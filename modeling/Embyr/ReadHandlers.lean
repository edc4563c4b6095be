import Embyr.WriteHandlers

/-!
# The reading handlers

`GetDocument`, `ListDocuments`, `ListCollectionIds`, `BatchGetDocuments`, `RunQuery`,
`RunAggregationQuery` (`grpc/handler.rs`) and the opening of a `Listen` stream
(`realtime/listen_handler.rs`).

`GetDocument` alone follows a collection's rule to its patterns and gives it everything it
may look at. `ListDocuments` and `BatchGetDocuments` evaluate an exact rule on a bare
context (`plainContext`); the queries check the shape of the query instead.
-/

namespace Embyr

open Program ReadCommitted

/-! ## GetDocument -/

/-- `document_to_proto`. -/
def documentToProto (doc : FirestoreDocument) : DocumentResponse :=
  ⟨documentName doc.path, doc.fields, doc.createTime, doc.updateTime⟩

/-- The answer to a request for `name`. -/
def foundOr (name : String) : Option FirestoreDocument → Except Status DocumentResponse
  | some doc => .ok (documentToProto doc)
  | none => .error ⟨.notFound, name ++ " not found"⟩

/-- The context `GetDocument` evaluates in. -/
def readContext (identity : Option AuthContext) (path : DocumentPath) (resource : Fields)
    (ancestors : StrMap String) (now : Timestamp) (cross : StrMap (Option FirestoreDocument)) :
    EvalContext where
  auth := identity
  resourceFields := resource
  requestResourceFields := ∅
  pathVariableValue := some path.documentId
  ancestorPathVariableValues := ancestors
  requestTime := some now.toValue
  crossDocumentReads := cross

/-- Parse, collect, evaluate. -/
def judgeRead (reparse : String) (identity : Option AuthContext) (path : DocumentPath)
    (resource : Fields) (ancestors : StrMap String) (source : String) : Handler Unit := do
  let condition ← Prog.ofExcept (parseStored reparse source)
  let now ← utcNow
  let cross ← fetchCrossDocumentReads path.projectId
    (discoverCrossDocumentPaths condition identity (some path.documentId) ancestors)
  Prog.ofExcept (enforce "access denied by rule" condition
    (readContext identity path resource ancestors now cross))

def readRuleReparse : String := "stored access rule failed to re-parse: "

def readPatternReparse : String := "stored access rule pattern failed to re-parse: "

/-- The read gate behind a route. -/
def readRouteGate (identity : Option AuthContext) (path : DocumentPath) (resource : Fields) :
    Option Route → Handler Unit
  | none => .ok ()
  | some (row, bindings) =>
    match row.readCondition with
    | none => .ok ()
    | some source => judgeRead readPatternReparse identity path resource bindings source

/-- The read gate of `handle_get_document`, once the exact rule is looked up. -/
def readGate (identity : Option AuthContext) (path : DocumentPath) (resource : Fields) :
    Option String → Handler Unit
  | some source => judgeRead readRuleReparse identity path resource ∅ source
  | none => do
    let route ← routePattern path.projectId path.collectionPath (some path.documentId)
    readRouteGate identity path resource route

structure GetDocumentRequest where
  name : String
  transaction : Option TransactionId

/-- `handle_get_document`. -/
def handleGetDocument (metadata : Metadata) (req : GetDocumentRequest) :
    Handler DocumentResponse := do
  let project ← admitName req.name metadata
  let identity ← identify project metadata
  let path ← Prog.ofExcept (parseDocumentPath req.name)
  let rule ← getAccessRule project path.collectionPath
  let doc ← storage (getDocument path req.transaction)
  readGate identity path ((doc.map FirestoreDocument.fields).getD ∅) rule
  Prog.ofExcept (foundOr req.name doc)

/-! ## Lists and batches of documents -/

/-- The bare context of `ListDocuments` and `BatchGetDocuments`: no path variable, no
clock, no other documents. -/
def plainContext (identity : Option AuthContext) (resource : Fields) : EvalContext where
  auth := identity
  resourceFields := resource
  requestResourceFields := ∅
  pathVariableValue := none
  ancestorPathVariableValues := ∅
  requestTime := none
  crossDocumentReads := ∅

/-- What an exact rule says on the bare context; without a rule everything is allowed. -/
def plainAllows (identity : Option AuthContext) (condition : Option Condition)
    (resource : Fields) : Bool :=
  condition.all fun condition => evaluate condition (plainContext identity resource) = .allow

/-- The parsed exact rule. -/
def parseRule : Option String → Except Status (Option Condition)
  | none => .ok none
  | some source => (parseStored readRuleReparse source).map some

/-- The rules looked up so far within one call. -/
abbrev RuleCache : Type := StrMap (Option String)

/-- An access rule through the cache. -/
def lookupCached (project : ProjectId) (cache : RuleCache) (collectionPath : String) :
    Handler (Option String × RuleCache) :=
  match cache[collectionPath]? with
  | some rule => .ok (rule, cache)
  | none => do
    let rule ← getAccessRule project collectionPath
    return (rule, cache.insert collectionPath rule)

/-- An item of the answer to `BatchGetDocuments`. -/
inductive BatchGetItem where
  | found (doc : DocumentResponse)
  | missing (name : String)

/-- A document that is denied looks like one that is absent. -/
def batchGetItem (identity : Option AuthContext) (name : String) (condition : Option Condition)
    (doc : Option FirestoreDocument) : BatchGetItem :=
  match doc.filter fun doc => plainAllows identity condition doc.fields with
  | some doc => .found (documentToProto doc)
  | none => .missing name

/-- The loop of `handle_batch_get_documents`. -/
def batchGetLoop (project : ProjectId) (identity : Option AuthContext)
    (transaction : Option TransactionId) : RuleCache → List String → Handler (List BatchGetItem)
  | _, [] => .ok []
  | cache, name :: names => do
    let path ← Prog.ofExcept (parseDocumentPath name)
    let (rule, cache) ← lookupCached project cache path.collectionPath
    let doc ← storage (getDocument path transaction)
    let condition ← Prog.ofExcept (parseRule rule)
    let rest ← batchGetLoop project identity transaction cache names
    return batchGetItem identity name condition doc :: rest

/-- Every name must be of the project. -/
def checkSameProject (project : ProjectId) : List String → Except Status Unit
  | [] => .ok ()
  | name :: names => do
    let other ← extractProjectId name
    if other = project then checkSameProject project names
    else .error ⟨.invalidArgument, "all documents must belong to the same project as database"⟩

theorem checkSameProject_eq_ok {project : ProjectId} {names : List String}
    (h : checkSameProject project names = .ok ())
    {name : String} (hmem : name ∈ names) : extractProjectId name = .ok project := by
  induction names with
  | nil => cases hmem
  | cons first names ih =>
    obtain ⟨other, hother, hrest⟩ := bind_eq_ok h
    by_cases hproject : other = project
    · rw [if_pos hproject] at hrest
      rcases List.mem_cons.mp hmem with rfl | hmem
      · rw [hother, hproject]
      · exact ih hrest hmem
    · rw [if_neg hproject] at hrest
      cases hrest

structure BatchGetDocumentsRequest where
  database : String
  documents : List String
  transaction : Option TransactionId

/-- `handle_batch_get_documents`. -/
def handleBatchGetDocuments (metadata : Metadata) (req : BatchGetDocumentsRequest) :
    Handler (List BatchGetItem) := do
  let project ← admitName req.database metadata
  let identity ← identify project metadata
  if req.documents.isEmpty then .error ⟨.invalidArgument, "documents must not be empty"⟩
  else if 1000 < req.documents.length then
    .error ⟨.invalidArgument, "documents must not exceed 1000 per call"⟩
  else do
    Prog.ofExcept (checkSameProject project req.documents)
    batchGetLoop project identity req.transaction ∅ req.documents

/-- A query for a whole collection. -/
def everything : StructuredQuery := ⟨false, none, [], none, none, none, none, none⟩

/-- One turn of the loop of `handle_list_documents`. -/
def listCollection (engine : QueryEngine) (project : ProjectId) (identity : Option AuthContext)
    (cache : RuleCache) (collectionPath : String) :
    Handler (List FirestoreDocument × RuleCache) := do
  let docs ← storage (runQuery engine ⟨project, collectionPath⟩ everything none)
  let (rule, cache) ← lookupCached project cache collectionPath
  let condition ← Prog.ofExcept (parseRule rule)
  return (docs.filter fun doc => plainAllows identity condition doc.fields, cache)

/-- The loop of `handle_list_documents`. -/
def listLoop (engine : QueryEngine) (project : ProjectId) (identity : Option AuthContext) :
    RuleCache → List String → Handler (List FirestoreDocument)
  | _, [] => .ok []
  | cache, collectionPath :: rest => do
    let (docs, cache) ← listCollection engine project identity cache collectionPath
    let more ← listLoop engine project identity cache rest
    return docs ++ more

/-- A hexadecimal digit. -/
def hexDigit? (c : Char) : Option ℕ :=
  if c.isDigit then some (c.toNat - 48)
  else if 'a' ≤ c ∧ c ≤ 'f' then some (c.toNat - 87)
  else if 'A' ≤ c ∧ c ≤ 'F' then some (c.toNat - 55)
  else none

/-- `u32::from_str_radix(_, 16)`. -/
def parseHex (token : String) : Option ℕ :=
  let digits := match token.toList with
    | '+' :: rest => rest
    | cs => cs
  if digits.isEmpty then none
  else ((digits.mapM hexDigit?).map (·.foldl (fun n d => 16 * n + d) 0)).filter (· < 2 ^ 32)

/-- `decode_page_token`. -/
def decodePageToken (token : String) : Except CoreError ℕ :=
  if token.isEmpty then .ok 0
  else
    match parseHex token with
    | some offset => .ok offset
    | none => .error (.invalidArgument ("invalid page_token: " ++ token))

/-- `encode_page_token`: eight hexadecimal digits. -/
def encodePageToken (offset : ℕ) : String :=
  ([24, 16, 8, 0].map fun shift => hexByte (UInt8.ofNat (offset >>> shift))).foldl (· ++ ·) ""

/-- The page size of the lists. -/
def pageSizeOf (requested : Int32) : ℕ :=
  if requested ≤ 0 then 100 else min requested.toInt.toNat 100

/-- The token of the next page, empty on the last one. -/
def nextPageToken (more : Bool) (offset pageSize : ℕ) : String :=
  if more then encodePageToken ((offset + pageSize) % 2 ^ 32) else ""

/-- The collections a list goes through. -/
def listedCollections (project : ProjectId) (parent collectionId : String) :
    Handler (List String) :=
  let under (name : String) := if parent.isEmpty then name else parent ++ "/" ++ name
  if collectionId.isEmpty then do
    let names ← storage (listCollectionIds ⟨project, parent⟩ (2 ^ 31 - 1) 0)
    return names.map under
  else .ok [under collectionId]

/-- The order of a listing. -/
def listedBefore (a b : FirestoreDocument) : Bool :=
  ((compare a.path.collectionPath b.path.collectionPath).then
    (compare a.path.documentId b.path.documentId)).isLE

structure ListDocumentsRequest where
  parent : String
  collectionId : String
  pageSize : Int32
  pageToken : String

structure ListDocumentsResponse where
  documents : List DocumentResponse
  nextPageToken : String

/-- `handle_list_documents`. -/
def handleListDocuments (engine : QueryEngine) (metadata : Metadata)
    (req : ListDocumentsRequest) : Handler ListDocumentsResponse := do
  let (project, parent) ← Prog.ofExcept (parseParentPrefix req.parent)
  admitProject project metadata
  let identity ← identify project metadata
  let pageSize := pageSizeOf req.pageSize
  let offset ← Prog.ofExcept ((decodePageToken req.pageToken).mapError coreErrorToStatus)
  let collections ← listedCollections project parent req.collectionId
  let docs ← listLoop engine project identity ∅ collections
  let page := (docs.mergeSort listedBefore).drop offset
  return ⟨(page.take pageSize).map documentToProto,
    nextPageToken (decide (pageSize < page.length)) offset pageSize⟩

structure ListCollectionIdsRequest where
  parent : String
  pageSize : Int32
  pageToken : String

structure ListCollectionIdsResponse where
  collectionIds : List String
  nextPageToken : String

/-- `handle_list_collection_ids`. The offset is sent as a signed integer, and the database
refuses a negative one. -/
def handleListCollectionIds (metadata : Metadata) (req : ListCollectionIdsRequest) :
    Handler ListCollectionIdsResponse := do
  let (project, parent) ← Prog.ofExcept (parseParentPrefix req.parent)
  admitProject project metadata
  let pageSize := pageSizeOf req.pageSize
  let offset ← Prog.ofExcept ((decodePageToken req.pageToken).mapError coreErrorToStatus)
  if 2 ^ 31 ≤ offset then .error Status.backend
  else do
    let ids ← storage (listCollectionIds ⟨project, parent⟩ (pageSize + 1) offset)
    return ⟨ids.take pageSize, nextPageToken (decide (pageSize < ids.length)) offset pageSize⟩

/-! ## Query gates -/

/-- `UnsatisfiedConjunct::reason_code`. -/
def UnsatisfiedConjunct.reasonCode : UnsatisfiedConjunct → String
  | .ownershipFilterMissing _ => "OWNERSHIP_FILTER_MISSING"
  | .denyAll => "RULE_DENIES_ALL"
  | .authRequired => "AUTH_REQUIRED"

/-- The reason of one unsatisfied conjunct. -/
def UnsatisfiedConjunct.reason (c : UnsatisfiedConjunct) : String :=
  match c with
  | .ownershipFilterMissing fieldPath =>
    "[" ++ c.reasonCode ++ "] missing required equality filter on '" ++ fieldPath ++
      "' bound to the caller's own identity"
  | .denyAll | .authRequired => "[" ++ c.reasonCode ++ "]"

/-- `query_compliance_rejection`. -/
def queryComplianceRejection : QueryComplianceOutcome → Status
  | .rejectedUnsupportedRuleShape =>
    ⟨.permissionDenied, "query rejected [UNSUPPORTED_RULE_SHAPE]: this collection's access " ++
      "rule is not a shape supported for query enforcement"⟩
  | .rejected conjuncts =>
    ⟨.permissionDenied, "query rejected by access rule: " ++
      "; ".intercalate (conjuncts.map UnsatisfiedConjunct.reason)⟩
  -- the source's `unreachable!`
  | .admitted => Status.backend

/-- `group_rule_not_defined_rejection`. -/
def groupRuleNotDefinedRejection : Status :=
  ⟨.permissionDenied, "query rejected [GROUP_RULE_NOT_DEFINED]: no collection-group rule " ++
    "is defined for this collection id"⟩

/-- The caller as the query gates see them: custom claims do not reach them. -/
def withoutClaims (identity : Option AuthContext) : Option AuthContext :=
  identity.map fun auth => ⟨auth.uid, ∅⟩

/-- `check_query_compliance` on a stored rule. -/
def checkCompliance (reparse : String) (identity : Option AuthContext)
    (filter : Option QueryFilter) (source : String) : Except Status Unit := do
  let condition ← parseStored reparse source
  match checkQueryCompliance condition filter (withoutClaims identity) with
  | .admitted => .ok ()
  | outcome => .error (queryComplianceRejection outcome)

/-- `get_group_access_rule`. -/
def getGroupAccessRule (project : ProjectId) (collectionId : String) : Handler (Option String) :=
  .call (.getGroupAccessRule project collectionId) orBackend

/-- The gate of a query on one collection: without an exact rule it passes. -/
def collectionGate (project : ProjectId) (identity : Option AuthContext) (collectionPath : String)
    (filter : Option QueryFilter) : Handler Unit := do
  match ← getAccessRule project collectionPath with
  | none => return ()
  | some source => Prog.ofExcept (checkCompliance readRuleReparse identity filter source)

/-- The gate of a query on a collection group: without a group rule it fails. -/
def groupGate (project : ProjectId) (identity : Option AuthContext) (collectionId : String)
    (filter : Option QueryFilter) : Handler Unit := do
  match ← getGroupAccessRule project collectionId with
  | none => .error groupRuleNotDefinedRejection
  | some source =>
    Prog.ofExcept (checkCompliance "stored group access rule failed to re-parse: " identity
      filter source)

/-- The two mutually exclusive gates. -/
def queryGate (project : ProjectId) (identity : Option AuthContext) (collectionPath : String)
    (query : StructuredQuery) : Handler Unit :=
  if query.allDescendants then groupGate project identity collectionPath query.filter
  else collectionGate project identity collectionPath query.filter

/-! ## Queries -/

mutual

/-- `collect_filter_fields`. -/
def collectFilterFields : QueryFilter → List (String × FilterOp)
  | .field ff => [(ff.fieldPath, ff.op)]
  | .composite filters | .compositeOr filters => collectAllFilterFields filters

/-- The fields of several filters. -/
def collectAllFilterFields : List QueryFilter → List (String × FilterOp)
  | [] => []
  | filter :: filters => collectFilterFields filter ++ collectAllFilterFields filters

end

/-- An `IN` together with a range on another field. -/
def mixesInWithRange (fields : List (String × FilterOp)) : Bool :=
  let inFields := (fields.filter fun f => f.2 = .isIn).map Prod.fst
  !inFields.isEmpty && fields.any fun f => f.2.isRange && !inFields.contains f.1

/-- `requires_composite_index`. -/
def requiresCompositeIndex (query : StructuredQuery) : Bool :=
  if 2 ≤ query.orderBy.length then true
  else
    match query.filter with
    | none => false
    | some filter =>
      let fields := collectFilterFields filter
      mixesInWithRange fields ||
        query.orderBy.any fun o => !(fields.any fun f => f.1 = o.fieldPath)

/-- What a `StructuredQuery` message decodes to. -/
structure ProtoQuery where
  /-- collection id and `all_descendants` of each selector -/
  selectors : List (String × Bool)
  filter : Except String (Option QueryFilter)
  orderBy : Except Status (List OrderBy)
  limit : Option Int32
  offset : Int32
  startAt : Option Cursor
  endAt : Option Cursor

/-- The first selector, with the source's defaults. -/
def ProtoQuery.selector (query : ProtoQuery) : String × Bool := query.selectors.headD ("", false)

/-- `translate_filter`'s result. -/
def ProtoQuery.translatedFilter (query : ProtoQuery) : Except Status (Option QueryFilter) :=
  query.filter.mapError fun message => ⟨.invalidArgument, message⟩

/-- `validate_cursor_value_types`. -/
def validateCursorValueTypes : List FieldValue → Except Status Unit
  | [] => .ok ()
  | .array _ :: _ => .error ⟨.invalidArgument, "cursor bound does not support array values"⟩
  | .map _ :: _ => .error ⟨.invalidArgument, "cursor bound does not support map values"⟩
  | .null :: _ => .error ⟨.invalidArgument, "cursor bound does not support null values"⟩
  | _ :: values => validateCursorValueTypes values

/-- The checks of a cursor. -/
def validateCursor (cursor : Option Cursor) : Except Status Unit :=
  match cursor with
  | none => .ok ()
  | some cursor => validateCursorValueTypes cursor.values

/-- The query of `handle_run_query`. -/
def ProtoQuery.translate (query : ProtoQuery) : Except Status StructuredQuery := do
  let filter ← query.translatedFilter
  let orderBy ← query.orderBy
  validateCursor query.startAt
  validateCursor query.endAt
  return ⟨query.selector.2, filter, orderBy, query.limit,
    if 0 < query.offset then some query.offset else none, query.startAt, query.endAt, none⟩

structure RunQueryRequest where
  parent : String
  query : Option ProtoQuery
  transaction : Option TransactionId

/-- The composite-index check. The message ends where the source appends the fields. -/
def checkIndex (project : ProjectId) (collectionPath : String) (query : StructuredQuery) :
    Handler Unit :=
  if requiresCompositeIndex query then do
    let ready ← Prog.ask (Call.isIndexReady project collectionPath)
    if ready then return ()
    else .error ⟨.failedPrecondition, "query requires a composite index on collection '" ++
      collectionPath ++ "' with fields "⟩
  else .ok ()

/-- `handle_run_query`. -/
def handleRunQuery (engine : QueryEngine) (metadata : Metadata) (req : RunQueryRequest) :
    Handler (List DocumentResponse) := do
  let project ← admitName req.parent metadata
  let identity ← identify project metadata
  match req.query with
  | none => .error ⟨.invalidArgument, "query_type is required"⟩
  | some proto =>
    let query ← Prog.ofExcept proto.translate
    let collectionPath := proto.selector.1
    queryGate project identity collectionPath query
    checkIndex project collectionPath query
    let docs ← storage (runQuery engine ⟨project, collectionPath⟩ query req.transaction)
    return docs.map documentToProto

structure RunAggregationQueryRequest where
  parent : String
  /-- the aggregations, each checked and translated, and the query below them -/
  query : Option (List (Except Status AggregationKind) × Option ProtoQuery)

/-- `aggregation_error_to_status`. -/
def aggregationErrorToStatus : CoreError → Status
  | .failedPrecondition message => ⟨.unimplemented, message⟩
  | e => coreErrorToStatus e

/-- `handle_run_aggregation_query`. -/
def handleRunAggregationQuery (engine : QueryEngine) (metadata : Metadata)
    (req : RunAggregationQueryRequest) : Handler AggregateValue := do
  let project ← admitName req.parent metadata
  let identity ← identify project metadata
  match req.query with
  | none => .error ⟨.invalidArgument, "query_type is required"⟩
  | some ([aggregation], proto) => do
    let kind ← Prog.ofExcept aggregation
    match proto with
    | none => .error ⟨.invalidArgument, "structured_query is required"⟩
    | some proto => do
      let filter ← Prog.ofExcept proto.translatedFilter
      let query : StructuredQuery :=
        ⟨proto.selector.2, filter, [], none, none, none, none, none⟩
      queryGate project identity proto.selector.1 query
      (runAggregationQuery engine ⟨project, proto.selector.1⟩ query kind).mapError
        aggregationErrorToStatus
  | some _ =>
    .error ⟨.unimplemented, "multiple aggregations per request are not yet supported"⟩

/-! ## Opening a Listen stream -/

/-- The target a client adds. -/
inductive ListenTarget where
  | query (parent : String) (structuredQuery : Option ProtoQuery)
  | other

structure ListenRequest where
  database : String
  /-- the target of an `AddTarget` message -/
  addTarget : Option ListenTarget
  /-- the time in the resume token -/
  resumeTime : Option Timestamp

/-- `extract_project_id_from_listen_request`. -/
def extractProjectIdFromListenRequest (database : String) : Except Status ProjectId :=
  match Text.splitn 5 '/' database with
  | "projects" :: pid :: _ =>
    if pid.isEmpty then
      .error ⟨.invalidArgument, "invalid database path in ListenRequest: " ++ database⟩
    else (ProjectId.new pid).mapError fun e => ⟨.invalidArgument, e.message⟩
  | _ => .error ⟨.invalidArgument, "invalid database path in ListenRequest: " ++ database⟩

/-- `project_id_from_parent`. -/
def projectIdFromParent (parent : String) : Except Status String :=
  match Text.splitn 5 '/' parent with
  | "projects" :: pid :: _ =>
    if pid.isEmpty then .error ⟨.internal, "invalid parent path: " ++ parent⟩ else .ok pid
  | _ => .error ⟨.internal, "invalid parent path: " ++ parent⟩

/-- The collection, with its own project, and the filter of a target. -/
def ListenTarget.resolve : ListenTarget → Except Status (CollectionPath × Option QueryFilter)
  | .other => .error ⟨.invalidArgument, "target must have Query target type"⟩
  | .query _ none => .error ⟨.internal, "QueryTarget has no query_type"⟩
  | .query parent (some sq) =>
    match sq.selectors with
    | [] => .error ⟨.internal, "structured query has no collection selector"⟩
    | (collectionId, _) :: _ => do
      let pid ← projectIdFromParent parent
      let filter ← sq.filter.mapError fun message => ⟨.internal, message⟩
      let project ← (ProjectId.new pid).mapError fun e => ⟨.internal, e.message⟩
      return (⟨project, collectionId⟩, filter)

/-- The rule of a target: an exact one is checked against the filter, a pattern only
parsed. -/
def listenGate (identity : Option AuthContext) (collection : CollectionPath)
    (filter : Option QueryFilter) : Handler Unit := do
  match ← getAccessRule collection.projectId collection.collectionPath with
  | some source => Prog.ofExcept (checkCompliance readRuleReparse identity filter source)
  | none =>
    match ← routePattern collection.projectId collection.collectionPath none with
    | none => return ()
    | some (row, _) =>
      match row.readCondition with
      | none => return ()
      | some source => do
        let _ ← Prog.ofExcept (parseStored readPatternReparse source)
        return ()

/-- A resume token is good for a day. -/
def freshResumeTime (now : Timestamp) (resumeTime : Option Timestamp) : Option Timestamp :=
  resumeTime.filter fun t => decide (now.toNanos - t.toNanos ≤ 24 * 3600 * 1000000000)

/-- `handle_add_target` up to the initial snapshot. The channel is that of the stream's
project, the query that of the target's. -/
def handleAddTarget (engine : QueryEngine) (project : ProjectId) (identity : Option AuthContext)
    (req : ListenRequest) : Handler (List DocumentResponse) :=
  match req.addTarget with
  | none => .error ⟨.invalidArgument, "first message must be AddTarget"⟩
  | some target => do
    let (collection, filter) ← Prog.ofExcept target.resolve
    listenGate identity collection filter
    let now ← utcNow
    let query : StructuredQuery :=
      ⟨false, filter, [], none, none, none, none, freshResumeTime now req.resumeTime⟩
    Prog.ask (Call.register project)
    let docs ← (runQuery engine collection query none).mapError fun _ => Status.backend
    return docs.map documentToProto

/-- `handle_listen` on the first message of the stream. -/
def handleListen (engine : QueryEngine) (metadata : Metadata) (first : Option ListenRequest) :
    Handler (List DocumentResponse) := do
  let apiKey ← Prog.ofExcept (extractApiKey metadata)
  match first with
  | none => .error ⟨.invalidArgument, "empty listen stream"⟩
  | some req => do
    let project ← Prog.ofExcept (extractProjectIdFromListenRequest req.database)
    admitKey project apiKey
    let identity ← identify project metadata
    handleAddTarget engine project identity req

/-! ## Values for examples -/

/-- A caller with an API key and no identity. -/
def anonymous : Metadata := ⟨some (some "Bearer key"), none⟩

/-- A database that answers in no particular order. -/
def plainEngine : QueryEngine where
  other _ _ := false
  inGroup _ _ := false
  arrange _ docs := docs
  arrange_subset _ _ := List.Subset.refl _
  sum _ _ := .ofInt 0
  avg _ _ := none

end Embyr
