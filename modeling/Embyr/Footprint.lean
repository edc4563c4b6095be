import Embyr.ReadHandlers

/-!
# What the server ever asks

`ServerCall S` lists every call a handler makes while it serves requests, with the form of
each statement: which rows it names and what it does to them. `S` are the documents in
reach. The lemmas go through the storage adapter, the gates and the handlers, in this
order, and say for each function which documents have to be in reach.

Invariants of the tables then need a case per constructor of `ServerCall`, not a case per
function.
-/

namespace Embyr

open Program ReadCommitted Prog

-- which calls are made does not depend on how a rule is parsed
attribute [local irreducible] parseCondition

/-- Neither the project's database nor its channel is involved. -/
def Call.offStorage : Call → Bool
  | .sql _ | .notify _ _ | .register _ => false
  | _ => true

/-- The call looks something up and changes nothing. -/
def Call.looksUp : Call → Bool
  | .sql (.select _) => true
  | .sql _ | .notify _ _ | .register _ | .newUuid | .newStreamToken => false
  | _ => true

def Call.isNotify : Call → Bool
  | .notify _ _ => true
  | _ => false

theorem Call.isNotify_of_looksUp {q : Call} (h : q.looksUp = true) : q.isNotify = false := by
  cases q with
  | notify => cases h
  | _ => rfl

/-- The calls of the server on documents in `S`. -/
inductive ServerCall (S : DocumentPath → Prop) : Call → Prop
  | off {q : Call} (h : q.offStorage = true) : ServerCall S q
  | notify {path : DocumentPath} (h : S path) :
      ServerCall S (.notify path.projectId (readKey path))
  | register {project : ProjectId} (h : ∀ path : DocumentPath, path.projectId = project → S path) :
      ServerCall S (.register project)
  | select {path : DocumentPath} (h : S path) : ServerCall S (.sql (.select (.document path)))
  | lock {path : DocumentPath} (h : S path) :
      ServerCall S (.sql (.selectForUpdate (.document path) DocumentRow.visible))
  | scan {p : DocumentPath → Bool} (h : ∀ path, p path = true → S path) :
      ServerCall S (.sql (.scan (documentsWhere p)))
  | insert {path : DocumentPath} (h : S path) (fields : Fields) (now : Timestamp) :
      ServerCall S (.sql (.insert (.document path) (DocumentRow.fresh fields now)))
  | upsert {path : DocumentPath} (h : S path) (fields : Fields) (now : Timestamp) :
      ServerCall S (.sql (.upsert (.document path) (DocumentRow.fresh fields now)
        (DocumentRow.overwrite fields now)))
  | overwrite {path : DocumentPath} (h : S path) (p : DocumentRow → Bool) (fields : Fields)
      (now : Timestamp) :
      ServerCall S (.sql (.update (.document path) p (DocumentRow.overwrite fields now)))
  | remove {path : DocumentPath} (h : S path) (p : DocumentRow → Bool) (now : Timestamp) :
      ServerCall S (.sql (.update (.document path) p (DocumentRow.remove now)))
  | selectTransaction (id : Uuid) : ServerCall S (.sql (.select (.transaction id)))
  | insertTransaction (id : Uuid) (row : TransactionRow) :
      ServerCall S (.sql (.insert (.transaction id) row))
  | updateTransaction (id : Uuid) (p : TransactionRow → Bool)
      (f : TransactionRow → TransactionRow) : ServerCall S (.sql (.update (.transaction id) p f))
  | begin : ServerCall S (.sql .begin)
  | commit : ServerCall S (.sql .commit)
  | rollback : ServerCall S (.sql .rollback)

/-- Every document of the project is in reach. -/
def Spans (S : DocumentPath → Prop) (project : ProjectId) : Prop :=
  ∀ path : DocumentPath, path.projectId = project → S path

variable {S : DocumentPath → Prop} {path : DocumentPath}

theorem served {b : Call → Bool} {x : Bool} (q : Call) (h : ServerCall S q) (_ : b q = x) :
    ServerCall S q := h

/-! ## Single documents and transactions -/

theorem recordRead_calls (project : ProjectId) (id : TransactionId) (path : DocumentPath)
    (version : Option Version) : (recordRead project id path version).Only (ServerCall S) := by
  refine (Only.ofExcept _).bind fun uuid => ⟨.off rfl, fun now => ?_⟩
  refine (sql_only (.updateTransaction _ _ _)).bind fun updated => ?_
  rcases updated with _ | row <;> trivial

theorem getDocument_calls (h : S path) (transaction : Option TransactionId) :
    (getDocument path transaction).Only (ServerCall S) := by
  refine (sql_only (.select h)).bind fun row => ?_
  rcases transaction with _ | id
  · trivial
  · exact (recordRead_calls ..).bind fun _ => trivial

theorem sendNotify_calls (h : S path) : (sendNotify path).Only (ServerCall S) :=
  ⟨.notify h, fun _ => trivial⟩

theorem insertDocument_calls (h : S path) (fields : Fields) :
    (insertDocument path fields).Only (ServerCall S) := by
  refine ⟨.off rfl, fun now => ⟨.insert h _ _, fun answer => ?_⟩⟩
  rcases answer with e | r
  · cases e <;> trivial
  · trivial

theorem createDocument_calls (h : S path) (fields : Fields) :
    (createDocument path fields).Only (ServerCall S) :=
  (insertDocument_calls h fields).bind fun _ => (sendNotify_calls h).bind fun _ => trivial

theorem updateDocument_calls (h : S path) (fields : Fields)
    (precondition : Option WritePrecondition) :
    (updateDocument path fields precondition).Only (ServerCall S) := by
  rcases precondition with _ | _ | _ | t
  · refine ⟨.off rfl, fun now => (sql_only (.upsert h _ _)).bind fun row => ?_⟩
    exact (sendNotify_calls h).bind fun _ => trivial
  · refine ⟨.off rfl, fun now => (sql_only (.overwrite h _ _ _)).bind fun updated => ?_⟩
    rcases updated with _ | row
    · trivial
    · exact (sendNotify_calls h).bind fun _ => trivial
  · exact (insertDocument_calls h fields).bind fun _ => (sendNotify_calls h).bind fun _ => trivial
  · refine (Only.ofExcept _).bind fun expected => ⟨.off rfl, fun now => ?_⟩
    refine (sql_only (.overwrite h _ _ _)).bind fun updated => ?_
    rcases updated with _ | row
    · refine (sql_only (.select h)).bind fun row => ?_
      rcases visibleDocument path row with _ | doc <;> trivial
    · exact (sendNotify_calls h).bind fun _ => trivial

theorem deleteDocument_calls (h : S path) (precondition : Option WritePrecondition) :
    (deleteDocument path precondition).Only (ServerCall S) := by
  refine ⟨.off rfl, fun now => (sql_only (.remove h _ _)).bind fun updated => ?_⟩
  rcases updated with _ | row
  · trivial
  · exact sendNotify_calls h

theorem rollbackTransaction_calls (project : ProjectId) (id : TransactionId) :
    (rollbackTransaction project id).Only (ServerCall S) := by
  refine (Only.ofExcept _).bind fun uuid => ?_
  refine (sql_only (.updateTransaction _ _ _)).bind fun updated => ?_
  rcases updated with _ | row <;> trivial

/-! ## Queries -/

variable {engine : QueryEngine} {project : ProjectId}

theorem selectDocuments_calls (h : Spans S project) (collectionPath : String)
    (query : StructuredQuery) :
    (selectDocuments engine ⟨project, collectionPath⟩ query).Only (ServerCall S) := by
  refine (sql_only (.scan fun path hcovers => h path ?_)).bind fun _ => trivial
  exact of_decide_eq_true (Bool.and_eq_true_iff.mp hcovers).1

theorem runQuery_calls (h : Spans S project) (collectionPath : String) (query : StructuredQuery)
    (transaction : Option TransactionId) :
    (runQuery engine ⟨project, collectionPath⟩ query transaction).Only (ServerCall S) := by
  refine (selectDocuments_calls h collectionPath query).bind fun docs => ?_
  rcases transaction with _ | id
  · trivial
  · refine Only.bind (.forEach fun doc _ => ?_) fun _ => trivial
    exact recordRead_calls ..

theorem runAggregationQuery_calls (h : Spans S project) (collectionPath : String)
    (query : StructuredQuery) (aggregation : AggregationKind) :
    (runAggregationQuery engine ⟨project, collectionPath⟩ query aggregation).Only
      (ServerCall S) :=
  (selectDocuments_calls h collectionPath query).bind fun _ => trivial

theorem listCollectionIds_calls (h : Spans S project) (parent : String) (limit offset : ℕ) :
    (listCollectionIds ⟨project, parent⟩ limit offset).Only (ServerCall S) := by
  refine (sql_only (.scan fun path hunder => h path ?_)).bind fun _ => trivial
  exact of_decide_eq_true (Bool.and_eq_true_iff.mp hunder).1

/-! ## Commit

A commit asks for no notification. -/

variable {R : Type}

section Commit

variable {P : Call → Prop} (hP : ∀ q, ServerCall S q → q.isNotify = false → P q)

include hP

theorem beginTransaction_only (project : ProjectId) : (beginTransaction project).Only P :=
  ⟨hP _ (.off rfl) rfl, fun _ => ⟨hP _ (.off rfl) rfl, fun _ =>
    (sql_only (hP _ (.insertTransaction _ _) rfl)).bind fun _ => trivial⟩⟩

theorem inTransaction_only {body : Adapter R} (h : body.Only P) :
    (inTransaction body).Only P := by
  refine (sql_only (hP _ .begin rfl)).bind fun _ => h.attempt.bind fun result => ?_
  rcases result with e | r
  · exact ⟨hP _ .rollback rfl, fun _ => trivial⟩
  · exact (sql_only (hP _ .commit rfl)).bind fun _ => trivial

variable {writes : List Write}

theorem performWrites_only (uuid : Uuid)
    (h : ∀ write ∈ writes, S write.path) : (performWrites uuid writes).Only P := by
  refine Only.bind (.mapEach fun write hmem => ?_) fun locked =>
    Only.ask (hP _ (.off rfl) rfl) fun now => ?_
  · rw [lockField]
    split_ifs with hreads
    · exact (sql_only (hP _ (.lock (h write hmem)) rfl)).bind fun _ => trivial
    · trivial
  · refine Only.bind (.mapEach fun pair hmem => ?_) fun _ => ?_
    · have hpath := h pair.1 (List.of_mem_zip hmem).1
      refine (Only.ofExcept _).bind fun effect => Only.bind (sql_only ?_) fun _ => trivial
      rcases effect with ⟨_ | fields, values⟩
      · exact hP _ (.remove hpath _ _) rfl
      · exact hP _ (.upsert hpath _ _) rfl
    · exact (sql_only (hP _ (.updateTransaction _ _ _) rfl)).bind fun _ => trivial

/-- A commit reaches the documents of its writes and, for its checks, any of its project. -/
theorem commitTransaction_only (hproject : Spans S project)
    (hwrites : ∀ write ∈ writes, S write.path) (id : TransactionId) :
    (commitTransaction project id writes).Only P := by
  refine (Only.ofExcept _).bind fun uuid => ?_
  refine (sql_only (hP _ (.selectTransaction uuid) rfl)).bind fun row => ?_
  rcases Option.filter (fun row => decide (TransactionRow.projectId row = project)) row with _ | row
  · trivial
  · dsimp only
    split_ifs with hstatus
    · trivial
    · refine Only.ask (hP _ (.off rfl) rfl) fun now => ?_
      split_ifs with hexpired
      · exact ⟨hP _ (.updateTransaction _ _ _) rfl, fun _ => trivial⟩
      · refine inTransaction_only hP
          (Only.bind ?_ fun _ => performWrites_only hP uuid hwrites)
        exact verifyCommit_only (fun write hmem => hP _ (.lock (hwrites write hmem)) rfl)
          fun path hpath => hP _ (.lock (hproject path hpath)) rfl

end Commit

/-! ## Gates

A gate looks things up. -/

section Gates

variable {P : Call → Prop} (hP : ∀ q, ServerCall S q → q.looksUp = true → P q)

include hP

theorem getAccessRule_only (project : ProjectId) (collectionPath : String) :
    (getAccessRule project collectionPath).Only P :=
  ⟨hP _ (.off rfl) rfl, orBackend_only⟩

theorem routePattern_only (project : ProjectId) (collectionPath : String)
    (documentId : Option String) :
    (routePattern project collectionPath documentId).Only P := by
  refine Only.bind ?_ fun patterns => .ofExcept _
  exact ⟨hP _ (.off rfl) rfl, orBackend_only⟩

theorem lookDocument_only (h : S path) : (getDocument path none).Only P :=
  (sql_only (hP _ (.select h) rfl)).bind fun _ => trivial

theorem fetchCrossDocumentReads_only (h : Spans S project)
    (paths : List String) : (fetchCrossDocumentReads project paths).Only P := by
  refine Only.bind (.mapEach fun path _ => ?_) fun _ => trivial
  rw [fetchCrossDocument]
  rcases Text.rsplitOnce '/' path with _ | ⟨collectionPath, documentId⟩
  · trivial
  · exact ((lookDocument_only hP (h _ rfl)).mapError _).bind fun _ => trivial

variable {c : WriteContext}

theorem judgeWrite_only (hpath : S c.path) (hcross : c.crosses = true → Spans S c.path.projectId)
    (reparse source : String) :
    (judgeWrite reparse c source).Only P := by
  refine (Only.ofExcept _).bind fun condition => Only.bind ?_ fun resource =>
    Only.bind ?_ fun time => Only.bind ?_ fun cross => .ofExcept _
  · rw [WriteContext.resource]
    split_ifs with hreads
    · exact ((lookDocument_only hP hpath).mapError _).bind fun _ => trivial
    · trivial
  · rw [WriteContext.time]
    split_ifs with htimed
    · exact Only.ask (hP _ (.off rfl) rfl) fun _ => trivial
    · trivial
  · rw [WriteContext.cross]
    split_ifs with hcrosses
    · exact fetchCrossDocumentReads_only hP (hcross hcrosses) _
    · trivial

theorem patternGate_only (h : S c.path) (route : Option Route) :
    (patternGate c route).Only P := by
  rcases route with _ | ⟨row, bindings⟩
  · trivial
  · rw [patternGate]
    rcases row.writeCondition with _ | source
    · trivial
    · refine judgeWrite_only hP ?_ ?_ _ _
      · exact h
      · exact fun hcrosses => absurd hcrosses Bool.false_ne_true

theorem singleGate_only (h : Spans S c.path.projectId) :
    (singleGate c).Only P := by
  refine Only.bind ⟨hP _ (.off rfl) rfl, orBackend_only⟩ fun rule => ?_
  rcases rule with _ | source
  · exact (routePattern_only hP ..).bind fun route => patternGate_only hP (h c.path rfl) route
  · exact judgeWrite_only hP (h c.path rfl) (fun _ => h) _ _

theorem evaluateWriteRuleForCommit_only (h : S path) (project : ProjectId)
    (identity : Option AuthContext) (proposed : Option Fields) :
    (evaluateWriteRuleForCommit project path identity proposed).Only P := by
  refine Only.bind ⟨hP _ (.off rfl) rfl, orBackend_only⟩ fun rule => ?_
  rcases rule with _ | source
  · trivial
  · exact judgeWrite_only hP h (fun hcrosses => absurd hcrosses Bool.false_ne_true) _ _

theorem judgeRead_only (h : Spans S path.projectId) (reparse : String)
    (identity : Option AuthContext) (resource : Fields) (ancestors : StrMap String)
    (source : String) :
    (judgeRead reparse identity path resource ancestors source).Only P := by
  refine (Only.ofExcept _).bind fun condition => Only.ask (hP _ (.off rfl) rfl) fun now => ?_
  exact (fetchCrossDocumentReads_only hP h _).bind fun cross => .ofExcept _

theorem readGate_only (h : Spans S path.projectId) (identity : Option AuthContext)
    (resource : Fields) (rule : Option String) :
    (readGate identity path resource rule).Only P := by
  rcases rule with _ | source
  · refine (routePattern_only hP ..).bind fun route => ?_
    rcases route with _ | ⟨row, bindings⟩
    · trivial
    · rw [readRouteGate]
      rcases row.readCondition with _ | source
      · trivial
      · exact judgeRead_only hP h _ _ _ _ _
  · exact judgeRead_only hP h _ _ _ _ _

end Gates

/-! ## Admission -/

variable {name : String} {f : ProjectId → Handler R}

section Admission

variable {P : Call → Prop} (hoff : ∀ q : Call, q.offStorage = true → q.looksUp = true → P q) {metadata : Metadata}

include hoff

theorem admitProject_only (project : ProjectId) : (admitProject project metadata).Only P :=
  (Only.ofExcept _).bind fun apiKey => admitKey_only apiKey (hoff _ rfl rfl) (hoff _ rfl rfl)

theorem identify_only (project : ProjectId) : (identify project metadata).Only P := by
  rw [identify]
  rcases extractClientIdentityToken metadata with _ | token
  · trivial
  · exact ⟨hoff _ rfl rfl, fun _ => trivial⟩

/-- A handler that is first admitted to the project that `name` names. -/
theorem admitName_only (h : ∀ project, extractProjectId name = .ok project → (f project).Only P) :
    (admitName name metadata >>= f).Only P := by
  have hcalls : (admitName name metadata).Only P :=
    (Only.ofExcept _).bind fun project =>
      (admitProject_only hoff project).bind fun _ => trivial
  have hproject : (admitName name metadata).Yields fun project =>
      extractProjectId name = .ok project :=
    Yields.bind (.ofExcept fun project hproject => hproject) fun project hproject =>
      Yields.bind (.of_forall (fun _ => hproject) _) fun _ h => h
  exact hcalls.then hproject h

end Admission

theorem admitProject_calls (project : ProjectId) (metadata : Metadata) :
    (admitProject project metadata).Only (ServerCall S) :=
  admitProject_only (fun _ h _ => .off h) project

theorem identify_calls (project : ProjectId) (metadata : Metadata) :
    (identify project metadata).Only (ServerCall S) :=
  identify_only (fun _ h _ => .off h) project

theorem admitName_then {metadata : Metadata}
    (h : ∀ project, extractProjectId name = .ok project → (f project).Only (ServerCall S)) :
    (admitName name metadata >>= f).Only (ServerCall S) :=
  admitName_only (fun _ h _ => .off h) h

/-- A handler that first reads the path of a document off its name. -/
theorem parsePath_then {f : DocumentPath → Handler R}
    (h : ∀ path, parseDocumentPath name = .ok path → (f path).Only (ServerCall S)) :
    (ofExcept (parseDocumentPath name) >>= f).Only (ServerCall S) :=
  (Only.ofExcept _).then (.ofExcept fun _ hpath => hpath) h

/-! ## The writing handlers -/

section Handlers

variable {metadata : Metadata}

theorem handleCreateDocument_calls {req : CreateDocumentRequest}
    (h : ∀ project, extractProjectId req.parent = .ok project → Spans S project) :
    (handleCreateDocument metadata req).Only (ServerCall S) := by
  refine admitName_then fun project hproject => ?_
  have hspans := h project hproject
  -- everything after the choice of the document id
  have hrest : ∀ path : DocumentPath, path.projectId = project → (do
      let fields ← ofExcept
        ((req.document.map (decodedFields "invalid field value")).getD (.ok ∅))
      let identity ← identify project metadata
      createGate path identity fields
      let result ← storage (createDocument path fields)
      return writeResponse path fields result : Handler DocumentResponse).Only (ServerCall S) := by
    rintro path rfl
    refine (Only.ofExcept _).bind fun fields => (identify_calls ..).bind fun identity => ?_
    refine (singleGate_only served hspans).bind fun _ => ?_
    exact ((createDocument_calls (hspans _ rfl) fields).mapError _).bind fun _ => trivial
  dsimp only
  split_ifs with hempty
  · exact Only.ask (.off rfl) fun uuid => hrest ⟨project, req.collectionId, uuid.text⟩ rfl
  · exact hrest ⟨project, req.collectionId, req.documentId⟩ rfl

theorem handleUpdateDocument_calls {req : UpdateDocumentRequest}
    (h : ∀ name fields, req.document = some (name, fields) → ∀ path,
      parseDocumentPath name = .ok path → Spans S path.projectId) :
    (handleUpdateDocument metadata req).Only (ServerCall S) := by
  rw [handleUpdateDocument]
  rcases hdocument : req.document with _ | ⟨name, fields⟩
  · trivial
  · refine parsePath_then fun path hpath => ?_
    have hspans := h name fields hdocument path hpath
    refine (admitProject_calls ..).bind fun _ => (Only.ofExcept _).bind fun fields => ?_
    refine (identify_calls ..).bind fun identity => (singleGate_only served hspans).bind fun _ => ?_
    exact ((updateDocument_calls (hspans _ rfl) fields _).mapError _).bind fun _ => trivial

theorem handleDeleteDocument_calls {req : DeleteDocumentRequest}
    (h : ∀ path, parseDocumentPath req.name = .ok path → Spans S path.projectId) :
    (handleDeleteDocument metadata req).Only (ServerCall S) := by
  refine parsePath_then fun path hpath => (admitProject_calls ..).bind fun _ => ?_
  have hspans := h path hpath
  refine (identify_calls ..).bind fun identity => (singleGate_only served hspans).bind fun _ => ?_
  exact (deleteDocument_calls (hspans _ rfl) _).mapError _

/-- The documents that the writes of a batch decode to are in reach. -/
def WritesWithin (S : DocumentPath → Prop) (messages : List ProtoWrite) : Prop :=
  ∀ message ∈ messages, ∀ operation, message.operation = some operation →
    ∀ decoded, operation.decode message.currentDocument = .ok decoded → S decoded.1.path

variable (project : ProjectId) (identity : Option AuthContext) {messages : List ProtoWrite}

section Translation

variable {P : Call → Prop} (hP : ∀ q, ServerCall S q → q.looksUp = true → P q)

include hP

theorem translateOneWriteForCommit_only {message : ProtoWrite}
    (h : ∀ operation, message.operation = some operation → ∀ decoded,
      operation.decode message.currentDocument = .ok decoded → S decoded.1.path) :
    (translateOneWriteForCommit project identity message).Only P ∧
      (translateOneWriteForCommit project identity message).Yields fun write? =>
        ∀ write, write? = some write → S write.path := by
  rw [translateOneWriteForCommit]
  rcases hoperation : message.operation with _ | operation
  · exact ⟨trivial, fun write hwrite => nomatch hwrite⟩
  · dsimp only
    rcases hdecode : operation.decode message.currentDocument with e | ⟨write, proposed⟩
    · exact ⟨trivial, trivial⟩
    · have hpath : S write.path := h operation hoperation _ hdecode
      change (evaluateWriteRuleForCommit project write.path identity proposed >>= fun _ =>
        pure (some write)).Only _ ∧ (evaluateWriteRuleForCommit project write.path identity
          proposed >>= fun _ => pure (some write)).Yields _
      constructor
      · exact (evaluateWriteRuleForCommit_only hP hpath _ _ _).bind fun _ => trivial
      · refine Yields.bind (.of_forall (fun _ => trivial) _) fun _ _ => ?_
        intro other hother
        cases hother
        exact hpath

theorem translateWritesForCommit_only (h : WritesWithin S messages) :
    (translateWritesForCommit project identity messages).Only P ∧
      (translateWritesForCommit project identity messages).Yields fun writes =>
        ∀ write ∈ writes, S write.path := by
  constructor
  · refine Only.bind (.mapEach fun message hmem => ?_) fun _ => trivial
    exact (translateOneWriteForCommit_only project identity hP (h message hmem)).1
  · refine Yields.bind (.mapEach fun message hmem =>
      (translateOneWriteForCommit_only project identity hP (h message hmem)).2) fun writes hwrites write hwrite => ?_
    obtain ⟨write?, hmem, hsome⟩ := List.mem_filterMap.mp hwrite
    exact hwrites write? hmem write hsome

theorem translateWritesCatching_only (h : WritesWithin S messages) :
    (translateWritesCatching project identity messages).Only P ∧
      (translateWritesCatching project identity messages).Yields fun translated =>
        ∀ result ∈ translated, ∀ write, result = .ok write → S write.path := by
  constructor
  · refine .mapEach fun message hmem => ?_
    refine ((translateOneWriteForCommit_only project identity hP (h message hmem)).1.attempt).bind fun result => ?_
    rcases result with e | _ | write <;> trivial
  · refine .mapEach fun message hmem => ?_
    refine ((translateOneWriteForCommit_only project identity hP (h message hmem)).2.attempt).bind
      fun result hresult => ?_
    rcases result with e | _ | write
    · exact fun write hwrite => nomatch hwrite
    · exact fun write hwrite => nomatch hwrite
    · intro other hother
      cases hother
      exact hresult _ rfl write rfl

end Translation

section Commits

variable {P : Call → Prop} (hP : ∀ q, ServerCall S q → q.isNotify = false → P q)

include hP

theorem lookup_of_quiet (q : Call) (h : ServerCall S q) (hlook : q.looksUp = true) : P q :=
  hP q h (Call.isNotify_of_looksUp hlook)

theorem off_of_quiet (q : Call) (h : q.offStorage = true) (hlook : q.looksUp = true) : P q :=
  lookup_of_quiet hP q (.off h) hlook

theorem handleCommit_only {req : CommitRequest}
    (h : ∀ project, extractProjectId req.database = .ok project → Spans S project)
    (hwrites : WritesWithin S req.writes) : (handleCommit metadata req).Only P := by
  refine admitName_only (off_of_quiet hP) fun project hproject => (identify_only (off_of_quiet hP) _).bind fun identity => ?_
  obtain ⟨htranslate, hwithin⟩ := translateWritesForCommit_only project identity (lookup_of_quiet hP) hwrites
  refine htranslate.then hwithin fun writes hpaths => ?_
  refine Only.bind ((commitTransaction_only hP (h project hproject) hpaths _).mapError _)
    fun results => Only.ask (hP _ (.off rfl) rfl) fun _ => trivial

variable {project : ProjectId}

theorem applyTranslated_only (hproject : Spans S project) {translated : Except Status Write}
    (h : ∀ write, translated = .ok write → S write.path) :
    (applyTranslated project translated).Only P := by
  rcases translated with status | write
  · trivial
  · refine ((beginTransaction_only hP project).attempt).bind fun begun => ?_
    rcases begun with e | id
    · trivial
    · have hwrites : ∀ other ∈ [write], S other.path := by
        intro other hmem
        obtain rfl := List.mem_singleton.mp hmem
        exact h _ rfl
      refine ((commitTransaction_only hP hproject hwrites id).attempt).bind fun committed => ?_
      rcases committed with e | results <;> trivial

theorem handleBatchWrite_only {req : BatchWriteRequest}
    (h : ∀ project, extractProjectId req.database = .ok project → Spans S project)
    (hwrites : WritesWithin S req.writes) :
    (handleBatchWrite metadata req).Only P := by
  refine admitName_only (off_of_quiet hP) fun project hproject => ?_
  split_ifs with hempty hlength
  · trivial
  · trivial
  · refine (identify_only (off_of_quiet hP) _).bind fun identity => ?_
    obtain ⟨htranslate, hwithin⟩ := translateWritesCatching_only project identity (lookup_of_quiet hP) hwrites
    refine htranslate.then hwithin fun translated hpaths => .mapEach fun result hmem => ?_
    exact applyTranslated_only hP (h project hproject) (hpaths result hmem)

theorem writeMessage_only (hproject : Spans S project) {message : WriteRequest}
    (hwrites : WritesWithin S message.writes) (token : String) :
    (writeMessage project identity token message).Only P := by
  refine ⟨hP _ (.off rfl) rfl, fun _ => ?_⟩
  dsimp only
  split_ifs with htoken
  · trivial
  · obtain ⟨htranslate, hwithin⟩ := translateWritesForCommit_only project identity (lookup_of_quiet hP) hwrites
    refine htranslate.then hwithin fun writes hpaths => ?_
    refine Only.bind ((beginTransaction_only hP project).mapError _) fun id => ?_
    refine Only.bind ((commitTransaction_only hP hproject hpaths id).mapError _) fun _ => ?_
    exact Only.ask (hP _ (.off rfl) rfl) fun _ => trivial

end Commits

theorem handleBeginTransaction_calls (req : BeginTransactionRequest) :
    (handleBeginTransaction metadata req).Only (ServerCall S) :=
  admitName_then fun project _ => (beginTransaction_only served project).mapError _

theorem handleRollback_calls (req : RollbackRequest) :
    (handleRollback metadata req).Only (ServerCall S) :=
  admitName_then fun project _ => (rollbackTransaction_calls project _).mapError _

/-! ## The reading handlers -/

theorem handleGetDocument_calls {req : GetDocumentRequest}
    (h : ∀ project, extractProjectId req.name = .ok project → Spans S project) :
    (handleGetDocument metadata req).Only (ServerCall S) := by
  refine admitName_then fun project hproject => (identify_calls ..).bind fun identity => ?_
  refine parsePath_then fun path hpath => (getAccessRule_only served _ _).bind fun rule => ?_
  have hspans := h _ (parseDocumentPath_projectId hpath)
  refine Only.bind ((getDocument_calls (hspans _ rfl) _).mapError _) fun doc => ?_
  exact (readGate_only served hspans _ _ _).bind fun _ => .ofExcept _

theorem lookupCached_calls (cache : RuleCache) (collectionPath : String) :
    (lookupCached project cache collectionPath).Only (ServerCall S) := by
  rw [lookupCached]
  rcases cache[collectionPath]? with _ | rule
  · exact (getAccessRule_only served _ _).bind fun _ => trivial
  · trivial

theorem batchGetLoop_calls {names : List String}
    (h : ∀ name ∈ names, ∀ path, parseDocumentPath name = .ok path → S path)
    (transaction : Option TransactionId) (cache : RuleCache) :
    (batchGetLoop project identity transaction cache names).Only (ServerCall S) := by
  induction names generalizing cache with
  | nil => trivial
  | cons name names ih =>
    refine parsePath_then fun path hpath => (lookupCached_calls ..).bind fun found => ?_
    have hreach := h name List.mem_cons_self path hpath
    refine Only.bind ((getDocument_calls hreach _).mapError _) fun doc => ?_
    refine (Only.ofExcept _).bind fun condition => ?_
    exact (ih (List.forall_mem_cons.mp h).2 _).bind fun _ => trivial

theorem handleListDocuments_calls {req : ListDocumentsRequest}
    (h : ∀ project, extractProjectId req.parent = .ok project → Spans S project) :
    (handleListDocuments engine metadata req).Only (ServerCall S) := by
  refine (Only.ofExcept _).then (.ofExcept fun _ hparent => hparent) fun parsed hparent => ?_
  obtain ⟨project, parent⟩ := parsed
  have hspans := h project (parseParentPrefix_projectId hparent)
  refine (admitProject_calls ..).bind fun _ => (identify_calls ..).bind fun identity => ?_
  refine (Only.ofExcept _).bind fun offset => Only.bind ?_ fun collections => ?_
  · simp only [listedCollections]
    split_ifs with hempty
    all_goals first
      | trivial
      | exact Only.bind ((listCollectionIds_calls hspans _ _ _).mapError _) fun _ => trivial
  · refine Only.bind ?_ fun _ => trivial
    have hloop : ∀ cache, (listLoop engine project identity cache collections).Only
        (ServerCall S) := by
      induction collections with
      | nil => exact fun _ => trivial
      | cons collectionPath rest ih =>
        intro cache
        refine Only.bind ?_ fun found => (ih found.2).bind fun _ => trivial
        refine Only.bind ((runQuery_calls hspans _ _ none).mapError _) fun docs => ?_
        exact (lookupCached_calls ..).bind fun _ => (Only.ofExcept _).bind fun _ => trivial
    exact hloop ∅

theorem handleListCollectionIds_calls {req : ListCollectionIdsRequest}
    (h : ∀ project, extractProjectId req.parent = .ok project → Spans S project) :
    (handleListCollectionIds metadata req).Only (ServerCall S) := by
  refine (Only.ofExcept _).then (.ofExcept fun _ hparent => hparent) fun parsed hparent => ?_
  obtain ⟨project, parent⟩ := parsed
  have hspans := h project (parseParentPrefix_projectId hparent)
  refine (admitProject_calls ..).bind fun _ => (Only.ofExcept _).bind fun offset => ?_
  split_ifs with hoffset
  · trivial
  · exact Only.bind ((listCollectionIds_calls hspans _ _ _).mapError _) fun _ => trivial

theorem queryGate_calls (collectionPath : String) (query : StructuredQuery) :
    (queryGate project identity collectionPath query).Only (ServerCall S) := by
  rw [queryGate]
  split_ifs with hgroup
  · refine Only.bind ⟨.off rfl, orBackend_only⟩ fun rule => ?_
    rcases rule with _ | source
    · trivial
    · exact .ofExcept _
  · refine (getAccessRule_only served _ _).bind fun rule => ?_
    rcases rule with _ | source
    · trivial
    · exact .ofExcept _

theorem handleRunQuery_calls {req : RunQueryRequest}
    (h : ∀ project, extractProjectId req.parent = .ok project → Spans S project) :
    (handleRunQuery engine metadata req).Only (ServerCall S) := by
  refine admitName_then fun project hproject => (identify_calls ..).bind fun identity => ?_
  rcases req.query with _ | proto
  · trivial
  · refine (Only.ofExcept _).bind fun query => (queryGate_calls ..).bind fun _ => ?_
    refine Only.bind ?_ fun _ => Only.bind
      ((runQuery_calls (h project hproject) _ query _).mapError _) fun _ => trivial
    rw [checkIndex]
    split_ifs with hneeded
    · refine Only.ask (.off rfl) fun ready => ?_
      rcases ready with _ | _ <;> trivial
    · trivial

theorem handleRunAggregationQuery_calls {req : RunAggregationQueryRequest}
    (h : ∀ project, extractProjectId req.parent = .ok project → Spans S project) :
    (handleRunAggregationQuery engine metadata req).Only (ServerCall S) := by
  refine admitName_then fun project hproject => (identify_calls ..).bind fun identity => ?_
  rcases req.query with _ | ⟨_ | ⟨aggregation, _ | _⟩, proto⟩
  · trivial
  · trivial
  · refine (Only.ofExcept _).bind fun kind => ?_
    rcases proto with _ | proto
    · trivial
    · refine (Only.ofExcept _).bind fun filter => (queryGate_calls ..).bind fun _ => ?_
      exact (runAggregationQuery_calls (h project hproject) _ _ _).mapError _
  · trivial

theorem listenGate_calls (collection : CollectionPath)
    (filter : Option QueryFilter) : (listenGate identity collection filter).Only (ServerCall S) := by
  refine (getAccessRule_only served _ _).bind fun rule => ?_
  rcases rule with _ | source
  · refine (routePattern_only served _ _ _).bind fun route => ?_
    rcases route with _ | ⟨row, bindings⟩
    · trivial
    · dsimp only
      rcases row.readCondition with _ | source
      · trivial
      · exact (Only.ofExcept _).bind fun _ => trivial
  · exact .ofExcept _

end Handlers

end Embyr
