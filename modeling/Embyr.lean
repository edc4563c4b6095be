import Embyr.AggregateCount
import Embyr.ArrayFilter
import Embyr.BillingOnce
import Embyr.CheckedArithmetic
import Embyr.ClientIdentity
import Embyr.CommitOnce
import Embyr.ComplianceExact
import Embyr.CreateExclusive
import Embyr.CrossDocumentDiscovery
import Embyr.DottedPath
import Embyr.FilterStructure
import Embyr.ImportRouting
import Embyr.IntegerOrder
import Embyr.LastOwner
import Embyr.ListenConvergence
import Embyr.MissingInformation
import Embyr.OperandOrder
import Embyr.PathVariables
import Embyr.PatternReadBack
import Embyr.QuotedText
import Embyr.RangeFilter
import Embyr.ReadValidation
import Embyr.SdkKeys
import Embyr.SigninRateLimit
import Embyr.TenantIsolation
import Embyr.UpdateToken
import Embyr.VersionHistory
import Embyr.WriteStream
