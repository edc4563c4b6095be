import Embyr.FieldTransform
import Embyr.QueryCompliance
import Embyr.RulesImport
import Embyr.ResourceName
import Embyr.Lib.ReadCommitted

/-!
# The storage adapter

`PostgresBackendAdapter` (`embyr-pg-storage/src/backend_adapter.rs`) and the optimistic
checks of `transactions/occ.rs`, as programs over the statements they send.

* `Key`, `Key.Row` — the tables `documents` and `transactions`.
* `Call` — everything the server asks its surroundings: statements, clocks, identifiers,
  notifications, and the system database with the rules.
* `getDocument` … `deleteDocument`, `runQuery`, `beginTransaction`, `commitTransaction`,
  `rollbackTransaction` — the adapter's functions.

Fields are stored as they are; their JSON encoding is not part of this model. A statement
the source sends outside a transaction commits at once.
-/

namespace Embyr

open Program ReadCommitted

/-! ## Tables -/

/-- A row of `documents`. A deleted document keeps its row. -/
structure DocumentRow where
  fields : Fields
  version : Version
  createTime : Timestamp
  updateTime : Timestamp
  deleted : Bool

/-- The `status` column of `transactions`. -/
inductive TransactionStatus where
  | active
  | committed
  | rolledBack
  | expired
  deriving DecidableEq

/-- A row of `transactions`; `reads` maps a document to the version read, `none` where
the document was absent. -/
structure TransactionRow where
  projectId : ProjectId
  status : TransactionStatus
  startedAt : Timestamp
  reads : StrMap (Option Version)

/-- `uuid::Uuid`. -/
structure Uuid where
  bytes : List UInt8
  length_eq : bytes.length = 16
  deriving DecidableEq

/-- The identifier all of whose bytes are `n`. -/
def uuidOf (n : UInt8) : Uuid := ⟨List.replicate 16 n, rfl⟩

/-- The bytes a client names a transaction by (`TransactionId`). -/
abbrev TransactionId : Type := List UInt8

/-- `uuid_from_bytes`. -/
def uuidFromBytes (bytes : TransactionId) : Except CoreError Uuid :=
  if h : bytes.length = 16 then .ok ⟨bytes, h⟩
  else .error (.invalidArgument "invalid transaction ID length")

/-- The primary keys of the two tables. -/
inductive Key where
  | document (path : DocumentPath)
  | transaction (id : Uuid)
  deriving DecidableEq

/-- The rows under a key. -/
abbrev Key.Row : Key → Type
  | .document _ => DocumentRow
  | .transaction _ => TransactionRow

/-! ## What the server asks its surroundings -/

inductive Call where
  /-- one statement on the project's database -/
  | sql (q : Stmt Key.Row)
  /-- `Utc::now()` of the server -/
  | now
  /-- `NOW()` of the database -/
  | databaseNow
  /-- `Uuid::new_v4()` -/
  | newUuid
  /-- `pg_notify` on the channel of a project -/
  | notify (project : ProjectId) (payload : String)
  /-- `get_access_rule` of the system database -/
  | getAccessRule (project : ProjectId) (collectionPath : String)
  /-- `get_write_access_rule` -/
  | getWriteAccessRule (project : ProjectId) (collectionPath : String)
  /-- `get_group_access_rule` -/
  | getGroupAccessRule (project : ProjectId) (collectionId : String)
  /-- the stored patterns of a project, which the router searches -/
  | accessRulePatterns (project : ProjectId)
  /-- `is_index_ready` -/
  | isIndexReady (project : ProjectId) (collectionPath : String)
  /-- the rate limiter's `check` -/
  | checkRate (project : ProjectId)
  /-- `authenticate`; the answer says whether the project is suspended -/
  | authenticate (project : ProjectId) (apiKey : String)
  /-- the identity behind a token that `attach_client_identity_if_present` verifies -/
  | clientIdentity (project : ProjectId) (token : String)
  /-- subscribe to the channel of a project in the registry of live listeners -/
  | register (project : ProjectId)
  /-- a fresh `stream_token` -/
  | newStreamToken
  /-- the next message of a write stream has been taken in, whose writes name these
  documents -/
  | received (names : List String)

/-- The answers. A lookup in the system database may fail. -/
abbrev Call.Answer : Call → Type
  | .sql q => q.Answer
  | .now | .databaseNow => Timestamp
  | .newUuid => Uuid
  | .notify _ _ | .register _ | .received _ => Unit
  | .getAccessRule _ _ | .getWriteAccessRule _ _ | .getGroupAccessRule _ _ =>
    Except Failure (Option String)
  | .accessRulePatterns _ => Except Failure (List PatternRow)
  | .isIndexReady _ _ | .checkRate _ => Bool
  | .authenticate _ _ => Except Status Bool
  | .clientIdentity _ _ => Option AuthContext
  | .newStreamToken => String

/-- A function of the storage adapter. -/
abbrev Adapter (R : Type) : Type := Prog Call.Answer CoreError R

/-! ## Sending statements -/

/-- Send a statement; a failure is `BackendUnavailable`. -/
def sql (q : Stmt Key.Row) : Adapter q.Result :=
  .call (.sql q) fun
    | .ok r => .ok r
    | .error e => .error (.backendUnavailable e.text)

theorem sql_only {P : Call → Prop} {q : Stmt Key.Row} (h : P (.sql q)) : (sql q).Only P := by
  refine ⟨h, fun a => ?_⟩
  rcases a with e | r <;> trivial

/-- `Utc::now()`. -/
def utcNow {ε : Type} : Prog Call.Answer ε Timestamp := .ask Call.now

/-- `NOW()`. -/
def databaseNow {ε : Type} : Prog Call.Answer ε Timestamp := .ask Call.databaseNow

/-- `pool.begin()`, the body, and `pg_txn.commit()`; a transaction that is dropped on the
way out with an error is rolled back. -/
def inTransaction {R : Type} (body : Adapter R) : Adapter R := do
  let _ ← sql .begin
  match ← body.attempt with
  | .ok r =>
    let _ ← sql .commit
    return r
  | .error e => .call (.sql .rollback) fun _ => .error e

/-! ## Times -/

/-- A column of type `timestamptz` keeps microseconds. -/
def Timestamp.stored (t : Timestamp) : Timestamp := ⟨t.secs, t.nanos - t.nanos % 1000⟩

/-- Nanoseconds since the epoch. -/
def Timestamp.toNanos (t : Timestamp) : ℤ := t.secs.toInt * 1000000000 + t.nanos.toInt

/-- The lifetime of a transaction, in nanoseconds. -/
def transactionLifetime : ℤ := 60 * 1000000000

/-- `to_datetime`: what `chrono` can represent. -/
def toDatetime (t : Timestamp) : Except CoreError Timestamp :=
  if t.nanos.toInt < 0 ∨ 999999999 < t.nanos.toInt then
    .error (.invalidArgument
      ("Precondition.update_time.nanos must be within [0, 999999999], got: " ++
        toString t.nanos.toInt))
  else if t.secs.toInt < -8334601228800 ∨ 8210266876799 < t.secs.toInt then
    .error (.invalidArgument
      ("Precondition.update_time.seconds is out of range for a valid timestamp, got: " ++
        toString t.secs.toInt))
  else .ok t

/-! ## Single documents -/

/-- A row that readers see. -/
def DocumentRow.visible (row : DocumentRow) : Bool := !row.deleted

/-- The row of a document written for the first time. -/
def DocumentRow.fresh (fields : Fields) (now : Timestamp) : DocumentRow :=
  ⟨fields, 1, now, now, false⟩

/-- The row after another write: the creation time stays. -/
def DocumentRow.overwrite (fields : Fields) (now : Timestamp) (row : DocumentRow) : DocumentRow :=
  { row with fields := fields, version := row.version + 1, updateTime := now, deleted := false }

/-- The row after a delete: the fields stay. -/
def DocumentRow.remove (now : Timestamp) (row : DocumentRow) : DocumentRow :=
  { row with version := row.version + 1, updateTime := now, deleted := true }

/-- A row as the document readers get. -/
def DocumentRow.toDocument (path : DocumentPath) (row : DocumentRow) : FirestoreDocument :=
  ⟨path, row.fields, row.createTime, row.updateTime, row.version⟩

/-- The visible document of a row. -/
def visibleDocument (path : DocumentPath) (row : Option DocumentRow) : Option FirestoreDocument :=
  (row.filter DocumentRow.visible).map (·.toDocument path)

/-- `read_key`. -/
def readKey (path : DocumentPath) : String := path.collectionPath ++ "/" ++ path.documentId

/-- The transactions `record_read` accepts. -/
def TransactionRow.recordable (project : ProjectId) (now : Timestamp) (row : TransactionRow) :
    Bool :=
  row.projectId = project && row.status = .active &&
    decide (now.toNanos - transactionLifetime < row.startedAt.toNanos)

/-- `reads || {key: version}`: an entry of the same key is replaced. -/
def TransactionRow.record (key : String) (version : Option Version) (row : TransactionRow) :
    TransactionRow :=
  { row with reads := row.reads.insert key version }

/-- `record_read`. -/
def recordRead (project : ProjectId) (transactionId : TransactionId) (path : DocumentPath)
    (version : Option Version) : Adapter Unit := do
  let uuid ← Prog.ofExcept (uuidFromBytes transactionId)
  let now ← databaseNow
  let updated ← sql (.update (.transaction uuid) (TransactionRow.recordable project now)
    (TransactionRow.record (readKey path) version))
  match updated with
  | some _ => return ()
  | none => .error .transactionNotFound

/-- `get_document`. -/
def getDocument (path : DocumentPath) (transactionId : Option TransactionId) :
    Adapter (Option FirestoreDocument) := do
  let row ← sql (.select (.document path))
  let document := visibleDocument path row
  match transactionId with
  | none => return document
  | some id =>
    recordRead path.projectId id path (document.map (·.version))
    return document

/-- `send_notify`; its failure is ignored. -/
def sendNotify (path : DocumentPath) : Adapter Unit :=
  .call (.notify path.projectId (readKey path)) fun _ => .ok ()

/-- `INSERT` of a document; a row that is there already, deleted or not, is a conflict. -/
def insertDocument (path : DocumentPath) (fields : Fields) : Adapter DocumentRow := do
  let now ← databaseNow
  let row := DocumentRow.fresh fields now.stored
  .call (.sql (.insert (.document path) row)) fun
    | .ok _ => .ok row
    | .error .uniqueViolation => .error (.alreadyExists path.documentId)
    | .error e => .error (.backendUnavailable e.text)

/-- `create_document`. -/
def createDocument (path : DocumentPath) (fields : Fields) : Adapter WriteResult := do
  let row ← insertDocument path fields
  sendNotify path
  return ⟨row.updateTime, some row.createTime, []⟩

/-- `update_document`. -/
def updateDocument (path : DocumentPath) (fields : Fields) :
    Option WritePrecondition → Adapter WriteResult
  | none => do
    let now ← databaseNow
    let row ← sql (.upsert (.document path) (DocumentRow.fresh fields now.stored)
      (DocumentRow.overwrite fields now.stored))
    sendNotify path
    return ⟨DocumentRow.updateTime row, none, []⟩
  | some (.updateTime t) => do
    let expected ← Prog.ofExcept (toDatetime t)
    let now ← databaseNow
    let updated ← sql (.update (.document path)
      (fun row => decide (DocumentRow.updateTime row = expected.stored) && DocumentRow.visible row)
      (DocumentRow.overwrite fields now.stored))
    match updated with
    | some row =>
      sendNotify path
      return ⟨DocumentRow.updateTime row, none, []⟩
    | none =>
      -- no row: a stale time or no document
      let row ← sql (.select (.document path))
      match visibleDocument path row with
      | some _ => .error .occConflict
      | none => .error (.documentNotFound path.documentId)
  | some .mustExist => do
    let now ← databaseNow
    let updated ← sql (.update (.document path) DocumentRow.visible
      (DocumentRow.overwrite fields now.stored))
    match updated with
    | some row =>
      sendNotify path
      return ⟨DocumentRow.updateTime row, none, []⟩
    | none => .error (.documentNotFound path.documentId)
  | some .mustNotExist => do
    let row ← insertDocument path fields
    sendNotify path
    return ⟨row.updateTime, none, []⟩

/-- `delete_document`; the precondition is not looked at. -/
def deleteDocument (path : DocumentPath) (_precondition : Option WritePrecondition) :
    Adapter Unit := do
  let now ← databaseNow
  let updated ← sql (.update (.document path) DocumentRow.visible
    (DocumentRow.remove now.stored))
  match updated with
  | some _ => sendNotify path
  | none => .error (.documentNotFound path.documentId)

/-! ## Queries -/

inductive OrderDirection where
  | ascending
  | descending
  deriving DecidableEq

structure OrderBy where
  fieldPath : String
  direction : OrderDirection

structure Cursor where
  values : List FieldValue
  before : Bool

structure CollectionPath where
  projectId : ProjectId
  collectionPath : String

/-- What the adapter reads of a `StructuredQuery`. -/
structure StructuredQuery where
  allDescendants : Bool
  filter : Option QueryFilter
  orderBy : List OrderBy
  limit : Option Int32
  offset : Option Int32
  startAt : Option Cursor
  endAt : Option Cursor
  sinceUpdateTime : Option Timestamp

inductive AggregationKind where
  | count
  | sum (fieldPath : String)
  | avg (fieldPath : String)

inductive AggregateValue where
  | count (n : Int64)
  | sum (d : Binary64.Double)
  | avg (d : Option Binary64.Double)

/-- How the database evaluates a query: the field comparisons other than equality, the
collections of a group, the cursor bounds with ordering and paging, and the sums. Bounds,
ordering and paging only pick among the documents they are given. -/
structure QueryEngine where
  other : FieldFilter → Fields → Bool
  inGroup : String → String → Bool
  arrange : StructuredQuery → List FirestoreDocument → List FirestoreDocument
  arrange_subset : ∀ query docs, arrange query docs ⊆ docs
  sum : String → List FirestoreDocument → Binary64.Double
  avg : String → List FirestoreDocument → Option Binary64.Double

/-- The visible documents whose path satisfies `p`. -/
def documentsWhere (p : DocumentPath → Bool) (rows : AList Key.Row) : List (Sigma Key.Row) :=
  rows.entries.filter fun
    | ⟨.document path, row⟩ => p path && DocumentRow.visible row
    | ⟨.transaction _, _⟩ => false

/-- A row of a query's answer as a document. -/
def asDocument : Sigma Key.Row → Option FirestoreDocument
  | ⟨.document path, row⟩ => some (DocumentRow.toDocument path row)
  | ⟨.transaction _, _⟩ => none

/-- The documents a query ranges over. -/
def CollectionPath.covers (engine : QueryEngine) (collection : CollectionPath)
    (allDescendants : Bool) (path : DocumentPath) : Bool :=
  path.projectId = collection.projectId &&
    if allDescendants then engine.inGroup collection.collectionPath path.collectionPath
    else path.collectionPath = collection.collectionPath

/-- The documents that pass the filter of a query. -/
def selectDocuments (engine : QueryEngine) (collection : CollectionPath)
    (query : StructuredQuery) : Adapter (List FirestoreDocument) := do
  let rows ← sql (.scan (documentsWhere (collection.covers engine query.allDescendants)))
  return (List.filterMap asDocument rows).filter fun doc =>
    QueryFilter.optionSelects engine.other query.filter doc.fields

/-- The loop that registers the documents of a transactional query. -/
def recordReads (project : ProjectId) (transactionId : TransactionId) :
    List FirestoreDocument → Adapter Unit :=
  Prog.forEach fun doc => recordRead project transactionId doc.path (some doc.version)

/-- `run_query`. -/
def runQuery (engine : QueryEngine) (collection : CollectionPath) (query : StructuredQuery)
    (transactionId : Option TransactionId) : Adapter (List FirestoreDocument) := do
  let selected ← selectDocuments engine collection query
  let docs := engine.arrange query selected
  match transactionId with
  | none => return docs
  | some id =>
    recordReads collection.projectId id docs
    return docs

/-- `run_aggregation_query`. -/
def runAggregationQuery (engine : QueryEngine) (collection : CollectionPath)
    (query : StructuredQuery) (aggregation : AggregationKind) : Adapter AggregateValue := do
  let docs ← selectDocuments engine collection query
  return match aggregation with
    | .count => .count (Int64.ofNat docs.length)
    | .sum field => .sum (engine.sum field docs)
    | .avg field => .avg (engine.avg field docs)

/-- The distinct strings of a list, in order. -/
def sortedDistinct (l : List String) : List String :=
  (l.foldl (fun s x => s.insert x ()) (∅ : StrMap Unit)).keys

/-- The child of `parentPath` that a collection path runs through. -/
def childId (parentPath collectionPath : String) : String :=
  let rest :=
    if parentPath.isEmpty then collectionPath
    else String.ofList (collectionPath.toList.drop (parentPath.length + 1))
  (Text.split '/' rest).headD ""

/-- `list_collection_ids`. -/
def listCollectionIds (parent : CollectionPath) (limit offset : ℕ) : Adapter (List String) := do
  let rows ← sql (.scan (documentsWhere fun path =>
    path.projectId = parent.projectId &&
      (parent.collectionPath.isEmpty ||
        Text.like (parent.collectionPath ++ "/%") path.collectionPath)))
  let ids := (List.filterMap asDocument rows).map fun doc =>
    childId parent.collectionPath doc.path.collectionPath
  return ((sortedDistinct ids).drop offset).take limit

end Embyr
