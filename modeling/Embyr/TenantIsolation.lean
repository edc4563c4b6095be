import Embyr.Footprint
import Embyr.World

/-!
# Tenant isolation

A request is admitted to one project, the one its database, parent or name names. It should
reach documents of that project only, and be refused before the database is asked anything
if it names another project besides.

* `Isolated` — both, for one program and whatever its surroundings answer.
* `Request`, `Request.Isolated` — every call a client can make.
* `Request.Confined` — which requests are isolated. The batches of writes and the `Listen`
  targets take the project of a document from its own name and never compare it with the
  project that was admitted.
* `isolated_iff_confined` — the main result.
-/

namespace Embyr

open Program ReadCommitted Prog List

/-! ## Reach -/

/-- Not a document of another project. -/
def Key.Within (P : ProjectId) : Key → Prop
  | .document path => path.projectId = P
  | .transaction _ => True

/-- The statement reads and writes documents of the project only. -/
def StatementWithin (P : ProjectId) : Stmt Key.Row → Prop
  | .select k | .selectForUpdate k _ | .insert k _ | .update k _ _ | .upsert k _ _ => k.Within P
  | .scan pick => ∀ rows, ∀ entry ∈ pick rows, Key.Within P entry.1
  | .begin | .commit | .rollback => True

/-- The call reads, writes or subscribes to documents of the project only. -/
def Call.Within (P : ProjectId) : Call → Prop
  | .sql q => StatementWithin P q
  | .notify project _ | .register project => project = P
  | _ => True

/-- The project's database is not asked. -/
def Call.OffDatabase (q : Call) : Prop := ∀ s, q ≠ .sql s

theorem ServerCall.within {P : ProjectId} {q : Call}
    (h : ServerCall (fun path => path.projectId = P) q) : q.Within P := by
  cases h with
  | off h => cases q <;> trivial
  | notify h => exact h
  | @register project h => exact h ⟨project, "", ""⟩ rfl
  | select h => exact h
  | lock h => exact h
  | scan h =>
    rintro rows ⟨key, row⟩ hmem
    obtain ⟨-, hkept⟩ := mem_filter.mp hmem
    cases key with
    | document path => exact h path (Bool.and_eq_true_iff.mp hkept).1
    | transaction id => trivial
  | insert h => exact h
  | upsert h => exact h
  | overwrite h => exact h
  | remove h => exact h
  | selectTransaction => trivial
  | insertTransaction => trivial
  | updateTransaction => trivial
  | begin => trivial
  | commit => trivial
  | rollback => trivial

/-- The name is that of a resource of another project. -/
def namesOther (P : ProjectId) (name : String) : Bool :=
  match extractProjectId name with
  | .ok other => other ≠ P
  | .error _ => false

/-- One of the names is. -/
def Foreign (P : ProjectId) (names : List String) : Prop := ∃ name ∈ names, namesOther P name = true

/-- A request with these names keeps to the project, and does not get to the database if
it names another. -/
def Isolated {R : Type} (P : ProjectId) (names : List String) (p : Handler R) : Prop :=
  p.Only (Call.Within P) ∧ (Foreign P names → p.Only Call.OffDatabase)

variable {P : ProjectId} {metadata : Metadata}

theorem not_namesOther {name : String} (h : extractProjectId name = .ok P) :
    namesOther P name = false := by
  rw [namesOther, h]
  exact decide_eq_false (not_not.mpr rfl)

theorem project_of_not_namesOther {name : String} {other : ProjectId}
    (hname : extractProjectId name = .ok other) (h : namesOther P name ≠ true) : other = P := by
  rw [namesOther, hname] at h
  exact not_not.mp fun hne => h (decide_eq_true hne)

/-- Names of one project only. -/
theorem not_foreign_singleton {name : String} (h : extractProjectId name = .ok P) :
    ¬ Foreign P [name] := by
  rintro ⟨other, hmem, hother⟩
  obtain rfl := mem_singleton.mp hmem
  rw [not_namesOther h] at hother
  cases hother

/-- The reach of a handler, from its footprint. -/
theorem isolated_of_calls {R : Type} {names : List String} {p : Handler R}
    (hcalls : p.Only (ServerCall fun path => path.projectId = P)) (hnames : ¬ Foreign P names) :
    Isolated P names p :=
  ⟨hcalls.mono fun _ => ServerCall.within, fun h => absurd h hnames⟩

/-- Documents of the project that a name names. -/
theorem spans_of_name {name : String} (h : extractProjectId name = .ok P) (project : ProjectId)
    (hproject : extractProjectId name = .ok project) :
    Spans (fun path => path.projectId = P) project := by
  obtain rfl := Except.ok.inj (h.symm.trans hproject)
  exact fun _ hpath => hpath

/-! ## Batches of writes -/

/-- The operation of a message decodes. -/
def ProtoWrite.Decodes (message : ProtoWrite) : Prop :=
  ∃ operation decoded, message.operation = some operation ∧
    operation.decode message.currentDocument = .ok decoded

/-- The first operation of a batch decodes. -/
def FirstDecodes (messages : List ProtoWrite) : Prop :=
  ∃ message, messages.find? (fun message => message.operation.isSome) = some message ∧
    message.Decodes

theorem decode_path {operation : Operation} {precondition : Option WritePrecondition}
    {decoded : Write × Option Fields} (h : operation.decode precondition = .ok decoded) :
    parseDocumentPath operation.name = .ok decoded.1.path := by
  obtain ⟨path, hpath, ⟨_, _, rfl⟩ | rfl | ⟨_, rfl⟩⟩ := Operation.decode_eq_ok h <;> exact hpath

/-- Writes that name no other project stay within. -/
theorem writesWithin_of_not_foreign {messages : List ProtoWrite}
    (h : ¬ Foreign P (writeNames messages)) :
    WritesWithin (fun path => path.projectId = P) messages := by
  intro message hmem operation hoperation decoded hdecode
  have hname := parseDocumentPath_projectId (decode_path hdecode)
  refine project_of_not_namesOther hname fun hother => h ⟨operation.name, ?_, hother⟩
  exact mem_filterMap.mpr ⟨message, hmem, by rw [hoperation]; rfl⟩

section Programs

variable (project : ProjectId) (identity : Option AuthContext) {messages : List ProtoWrite}

/-- A write that decodes may have its document read. -/
theorem translateOne_not_offDatabase {message : ProtoWrite} (h : message.Decodes) :
    ¬ (translateOneWriteForCommit project identity message).Only Call.OffDatabase := by
  obtain ⟨operation, ⟨write, proposed⟩, hoperation, hdecode⟩ := h
  rw [translateOneWriteForCommit, hoperation]
  dsimp only
  rw [hdecode]
  intro honly
  -- with a rule that allows everything, the gate still fetches the stored document
  have hseq : (evaluateWriteRuleForCommit project write.path identity proposed >>= fun _ =>
      pure (some write)).Only Call.OffDatabase := honly
  have hgate := (Only.left hseq).2 (.ok (some "true"))
  exact hgate.1 _ rfl

/-- If the first operation decodes, the batch gets to the database. -/
theorem translateWrites_not_offDatabase (h : FirstDecodes messages) :
    ¬ (translateWritesForCommit project identity messages).Only Call.OffDatabase := by
  intro honly
  have hloop := Only.left honly
  clear honly
  obtain ⟨first, hfind, hdecodes⟩ := h
  induction messages with
  | nil => cases hfind
  | cons message messages ih =>
    rw [find?_cons] at hfind
    rcases hoperation : message.operation with _ | operation
    · rw [hoperation] at hfind
      have hskip : translateOneWriteForCommit project identity message = .ok none := by
        rw [translateOneWriteForCommit, hoperation]
      rw [mapEach, hskip] at hloop
      exact ih (.left hloop) hfind
    · rw [hoperation] at hfind
      cases hfind
      exact translateOne_not_offDatabase project identity hdecodes (.left hloop)

/-- If it does not, and there is one, the batch is refused at once. -/
theorem translateWrites_eq_error (hforeign : Foreign P (writeNames messages))
    (h : ¬ FirstDecodes messages) :
    ∃ e, translateWritesForCommit project identity messages = .error e := by
  suffices hloop : ∃ e, mapEach (translateOneWriteForCommit project identity) messages =
      .error e by
    obtain ⟨e, he⟩ := hloop
    exact ⟨e, by rw [translateWritesForCommit, he]; rfl⟩
  obtain ⟨name, hname, -⟩ := hforeign
  induction messages with
  | nil => cases hname
  | cons message messages ih =>
    rcases hoperation : message.operation with _ | operation
    · have hskip : translateOneWriteForCommit project identity message = .ok none := by
        rw [translateOneWriteForCommit, hoperation]
      have hrest : ¬ FirstDecodes messages := by
        rintro ⟨first, hfind, hdecodes⟩
        refine h ⟨first, ?_, hdecodes⟩
        rw [find?_cons, hoperation]
        exact hfind
      have hname' : name ∈ writeNames messages := by
        rw [writeNames, filterMap_cons, hoperation] at hname
        exact hname
      obtain ⟨e, he⟩ := ih hrest hname'
      exact ⟨e, by rw [mapEach, hskip, ok_bind, he]; rfl⟩
    · rcases hdecode : operation.decode message.currentDocument with e | decoded
      · refine ⟨e, ?_⟩
        rw [mapEach, translateOneWriteForCommit, hoperation]
        dsimp only
        rw [hdecode]
        rfl
      · refine absurd ⟨message, ?_, operation, decoded, hoperation, hdecode⟩ h
        rw [find?_cons, hoperation]
        rfl

/-- Where no operation decodes, the writes of a `BatchWrite` are all refused. -/
theorem translateCatching_eq_error {message : ProtoWrite} (h : ¬ message.Decodes) :
    ∃ status, translateCatching project identity message = .ok (.error status) := by
  rw [translateCatching, translateOneWriteForCommit]
  rcases hoperation : message.operation with _ | operation
  · exact ⟨_, rfl⟩
  · dsimp only
    rcases hdecode : operation.decode message.currentDocument with e | decoded
    · exact ⟨e, rfl⟩
    · exact absurd ⟨operation, decoded, hoperation, hdecode⟩ h

theorem batchWrite_loop_of_none_decodes (h : ∀ message ∈ messages, ¬ message.Decodes) :
    ∃ results, (translateWritesCatching project identity messages >>=
      mapEach (applyTranslated project)) = .ok results := by
  suffices hloop : ∃ translated, translateWritesCatching project identity messages =
      .ok translated ∧ ∃ results, mapEach (applyTranslated project) translated =
        .ok results by
    obtain ⟨translated, htranslated, results, hresults⟩ := hloop
    exact ⟨results, by rw [htranslated, ok_bind, hresults]⟩
  induction messages with
  | nil => exact ⟨[], rfl, [], rfl⟩
  | cons message messages ih =>
    obtain ⟨translated, htranslated, results, hresults⟩ :=
      ih (forall_mem_cons.mp h).2
    obtain ⟨status, hstatus⟩ :=
      translateCatching_eq_error project identity (h message mem_cons_self)
    refine ⟨.error status :: translated, ?_, .error status :: results, ?_⟩
    · rw [translateWritesCatching] at htranslated ⊢
      rw [mapEach, hstatus, ok_bind, htranslated]
      rfl
    · rw [mapEach, applyTranslated, ok_bind, hresults]
      rfl

/-- If one decodes, a `BatchWrite` gets to the database. -/
theorem translateCatching_not_offDatabase (h : ∃ message ∈ messages, message.Decodes) :
    ¬ (translateWritesCatching project identity messages).Only Call.OffDatabase := by
  induction messages with
  | nil =>
    obtain ⟨message, hmem, -⟩ := h
    cases hmem
  | cons message messages ih =>
    intro honly
    by_cases hdecodes : message.Decodes
    · have hone := Only.of_attempt (.left (.left honly))
      exact translateOne_not_offDatabase project identity hdecodes hone
    · obtain ⟨status, hstatus⟩ := translateCatching_eq_error project identity hdecodes
      rw [translateWritesCatching, mapEach, hstatus] at honly
      refine ih ?_ (.left honly)
      obtain ⟨other, hmem, hother⟩ := h
      rcases mem_cons.mp hmem with rfl | hmem
      · exact absurd hother hdecodes
      · exact ⟨other, hmem, hother⟩

/-! ## Getting past admission -/

theorem admitKey_returns (apiKey : String) : (admitKey project apiKey).Returns () :=
  ⟨true, .ok false, rfl⟩

theorem admitName_returns {name apiKey : String} (hname : extractProjectId name = .ok project)
    (hkey : extractApiKey metadata = .ok apiKey) : (admitName name metadata).Returns project := by
  have hadmit : (admitProject project metadata).Returns () := by
    rw [admitProject, hkey]
    exact admitKey_returns project apiKey
  rw [admitName, hname]
  exact hadmit.bind rfl

theorem identify_returns (metadata : Metadata) :
    ∃ identity, (identify project metadata).Returns identity := by
  rw [identify]
  rcases extractClientIdentityToken metadata with _ | token
  · exact ⟨none, rfl⟩
  · exact ⟨none, none, rfl⟩

/-! ## Listen targets -/

theorem extractProjectId_of_split {name pid : String} {rest : List String}
    (hsplit : Text.splitn 5 '/' name = "projects" :: pid :: rest) (hempty : ¬ pid.isEmpty = true)
    (hnew : ProjectId.new pid = .ok P) : extractProjectId name = .ok P := by
  rw [extractProjectId, hsplit]
  change (if pid.isEmpty then _ else _) = _
  rw [if_neg hempty, hnew]

theorem extractProjectId_of_parent {parent pid : String} {other : ProjectId}
    (hparent : projectIdFromParent parent = .ok pid) (hnew : ProjectId.new pid = .ok other) :
    extractProjectId parent = .ok other := by
  rw [projectIdFromParent] at hparent
  split at hparent
  · rename_i pid' rest hsplit
    split_ifs at hparent with hempty
    cases hparent
    exact extractProjectId_of_split hsplit hempty hnew
  · cases hparent

theorem resolve_project {target : ListenTarget} {collection : CollectionPath}
    {filter : Option QueryFilter} (h : target.resolve = .ok (collection, filter)) :
    ∃ parent query, target = .query parent query ∧
      extractProjectId parent = .ok collection.projectId := by
  rcases target with ⟨parent, _ | sq⟩ | _
  · cases h
  · refine ⟨parent, some sq, rfl, ?_⟩
    rw [ListenTarget.resolve] at h
    rcases hselectors : sq.selectors with _ | ⟨⟨collectionId, group⟩, rest⟩
    · rw [hselectors] at h
      cases h
    · rw [hselectors] at h
      obtain ⟨pid, hpid, h₁⟩ := bind_eq_ok h
      obtain ⟨_, -, h₂⟩ := bind_eq_ok h₁
      obtain ⟨other, hother, h₃⟩ := bind_eq_ok h₂
      cases h₃
      exact extractProjectId_of_parent hpid (mapError_eq_ok hother)
  · cases h

/-- A rule that allows everything opens the gate of a target. -/
theorem listenGate_returns (collection : CollectionPath) (filter : Option QueryFilter) :
    (listenGate identity collection filter).Returns () :=
  ⟨.ok (some "true"), rfl⟩

end Programs

/-! ## Requests -/

/-- Every call a client makes. A `Write` stream consists of messages, each of which is
served with the project, identity and token of its stream. -/
inductive Request where
  | createDocument (req : CreateDocumentRequest)
  | updateDocument (req : UpdateDocumentRequest)
  | deleteDocument (req : DeleteDocumentRequest)
  | getDocument (req : GetDocumentRequest)
  | batchGetDocuments (req : BatchGetDocumentsRequest)
  | listDocuments (req : ListDocumentsRequest)
  | listCollectionIds (req : ListCollectionIdsRequest)
  | runQuery (req : RunQueryRequest)
  | runAggregationQuery (req : RunAggregationQueryRequest)
  | beginTransaction (req : BeginTransactionRequest)
  | commit (req : CommitRequest)
  | rollback (req : RollbackRequest)
  | batchWrite (req : BatchWriteRequest)
  | writeMessage (project : ProjectId) (identity : Option AuthContext) (token : String)
      (message : WriteRequest)
  | listen (req : ListenRequest)

namespace Request

/-- The name the handler takes its project from. -/
def project : Request → Except Status ProjectId
  | createDocument req => extractProjectId req.parent
  | updateDocument req =>
    match req.document with
    | some (name, _) => extractProjectId name
    | none => .error ⟨.invalidArgument, "document is required"⟩
  | deleteDocument req => extractProjectId req.name
  | getDocument req => extractProjectId req.name
  | batchGetDocuments req => extractProjectId req.database
  | listDocuments req => extractProjectId req.parent
  | listCollectionIds req => extractProjectId req.parent
  | runQuery req => extractProjectId req.parent
  | runAggregationQuery req => extractProjectId req.parent
  | beginTransaction req => extractProjectId req.database
  | commit req => extractProjectId req.database
  | rollback req => extractProjectId req.database
  | batchWrite req => extractProjectId req.database
  | writeMessage project _ _ _ => .ok project
  | listen req => extractProjectIdFromListenRequest req.database

/-- The other names in a request. -/
def names : Request → List String
  | batchGetDocuments req => req.documents
  | commit req => writeNames req.writes
  | batchWrite req => writeNames req.writes
  | writeMessage _ _ _ message => writeNames message.writes
  | listen req =>
    match req.addTarget with
    | some (.query parent _) => [parent]
    | _ => []
  | _ => []

/-- The request keeps to the project. -/
def Isolated (engine : QueryEngine) (metadata : Metadata) (P : ProjectId)
    (request : Request) : Prop :=
  match request with
  | createDocument req => Embyr.Isolated P request.names (handleCreateDocument metadata req)
  | updateDocument req => Embyr.Isolated P request.names (handleUpdateDocument metadata req)
  | deleteDocument req => Embyr.Isolated P request.names (handleDeleteDocument metadata req)
  | getDocument req => Embyr.Isolated P request.names (handleGetDocument metadata req)
  | batchGetDocuments req =>
    Embyr.Isolated P request.names (handleBatchGetDocuments metadata req)
  | listDocuments req => Embyr.Isolated P request.names (handleListDocuments engine metadata req)
  | listCollectionIds req =>
    Embyr.Isolated P request.names (handleListCollectionIds metadata req)
  | runQuery req => Embyr.Isolated P request.names (handleRunQuery engine metadata req)
  | runAggregationQuery req =>
    Embyr.Isolated P request.names (handleRunAggregationQuery engine metadata req)
  | beginTransaction req => Embyr.Isolated P request.names (handleBeginTransaction metadata req)
  | commit req => Embyr.Isolated P request.names (handleCommit metadata req)
  | rollback req => Embyr.Isolated P request.names (handleRollback metadata req)
  | batchWrite req => Embyr.Isolated P request.names (handleBatchWrite metadata req)
  | writeMessage project identity token message =>
    Embyr.Isolated P request.names (Embyr.writeMessage project identity token message)
  | listen req => Embyr.Isolated P request.names (handleListen engine metadata (some req))

/-- The requests that keep to the project. -/
def Confined (P : ProjectId) (request : Request) : Prop :=
  match request with
  | commit req => Foreign P request.names → ¬ FirstDecodes req.writes
  | batchWrite req => Foreign P request.names →
      500 < req.writes.length ∨ ∀ message ∈ req.writes, ¬ message.Decodes
  | writeMessage _ _ token message => Foreign P request.names →
      message.streamToken ≠ token ∨ ¬ FirstDecodes message.writes
  | listen req => ∀ target collection filter, req.addTarget = some target →
      target.resolve = .ok (collection, filter) → collection.projectId = P
  | _ => True

end Request

/-! ## The main result -/

section MainResult

-- it does not matter here how rules and names are parsed
attribute [local irreducible] parseCondition extractProjectId

variable {engine : QueryEngine} {apiKey : String}

theorem not_foreign_nil : ¬ Foreign P [] := by
  rintro ⟨name, hmem, -⟩
  cases hmem

theorem offDatabase_of_offStorage (q : Call) (h : q.offStorage = true) : q.OffDatabase := by
  rintro s rfl
  cases h

/-- A program that asks neither the database nor the channels. -/
theorem isolated_of_offStorage {R : Type} {p : Handler R} {names : List String}
    (h : p.Only fun q => q.offStorage = true) : Isolated P names p :=
  ⟨h.mono fun _ hq => ServerCall.within (.off hq), fun _ => h.mono offDatabase_of_offStorage⟩

theorem batchGetDocuments_isolated {req : BatchGetDocumentsRequest}
    (hproject : extractProjectId req.database = .ok P) :
    Isolated P req.documents (handleBatchGetDocuments metadata req) := by
  -- the names are compared before the first document is fetched
  constructor
  · refine .mono (fun _ => ServerCall.within) (admitName_then fun project hname => ?_)
    obtain rfl := Except.ok.inj (hproject.symm.trans hname)
    refine (identify_calls ..).bind fun identity => ?_
    split_ifs with hempty hlength
    · trivial
    · trivial
    · refine (Only.ofExcept _).then (.ofExcept fun _ hsame => hsame) fun _ hsame => ?_
      refine batchGetLoop_calls P identity (fun name hmem path hpath => ?_) _ _
      have hname := checkSameProject_eq_ok hsame hmem
      exact Except.ok.inj ((parseDocumentPath_projectId hpath).symm.trans hname)
  · rintro ⟨name, hmem, hother⟩
    refine admitName_only (fun q h _ => offDatabase_of_offStorage q h) fun project hname => ?_
    obtain rfl := Except.ok.inj (hproject.symm.trans hname)
    refine (identify_only (fun q h _ => offDatabase_of_offStorage q h) P).bind fun identity => ?_
    split_ifs with hempty hlength
    · trivial
    · trivial
    · refine (Only.ofExcept _).then (.ofExcept fun _ hsame => hsame) fun _ hsame => ?_
      rw [not_namesOther (checkSameProject_eq_ok hsame hmem)] at hother
      cases hother

/-- A batch that names another project gets to the database once its first operation
decodes. -/
theorem commit_isolated_iff {req : CommitRequest}
    (hproject : extractProjectId req.database = .ok P) (hkey : extractApiKey metadata = .ok apiKey) :
    Isolated P (writeNames req.writes) (handleCommit metadata req) ↔
      (Foreign P (writeNames req.writes) → ¬ FirstDecodes req.writes) := by
  constructor
  · intro h hforeign hdecodes
    obtain ⟨identity, hidentity⟩ := identify_returns P metadata
    have hrest := (h.2 hforeign).right (admitName_returns P hproject hkey)
    exact translateWrites_not_offDatabase P identity hdecodes
      (.left (hrest.right hidentity))
  · intro h
    by_cases hforeign : Foreign P (writeNames req.writes)
    · refine isolated_of_offStorage (admitName_only (fun _ hq _ => hq) fun project hname => ?_)
      refine (identify_only (fun _ hq _ => hq) project).bind fun identity => ?_
      obtain ⟨e, he⟩ := translateWrites_eq_error project identity hforeign (h hforeign)
      rw [he]
      trivial
    · exact isolated_of_calls (handleCommit_only served (spans_of_name hproject)
        (writesWithin_of_not_foreign hforeign)) hforeign

theorem batchWrite_isolated_iff {req : BatchWriteRequest}
    (hproject : extractProjectId req.database = .ok P) (hkey : extractApiKey metadata = .ok apiKey) :
    Isolated P (writeNames req.writes) (handleBatchWrite metadata req) ↔
      (Foreign P (writeNames req.writes) →
        500 < req.writes.length ∨ ∀ message ∈ req.writes, ¬ message.Decodes) := by
  constructor
  · intro h hforeign
    by_contra hreaches
    simp only [not_or, not_forall, not_not, exists_prop] at hreaches
    obtain ⟨hlength, hdecodes⟩ := hreaches
    have hrest := (h.2 hforeign).right (admitName_returns P hproject hkey)
    obtain ⟨message, hmem, hmessage⟩ := hdecodes
    have hempty : ¬ req.writes.isEmpty = true := by
      rw [List.isEmpty_iff]
      rintro hnil
      rw [hnil] at hmem
      cases hmem
    rw [if_neg hempty, if_neg hlength] at hrest
    obtain ⟨identity, hidentity⟩ := identify_returns P metadata
    exact translateCatching_not_offDatabase P identity ⟨message, hmem, hmessage⟩
      (.left (hrest.right hidentity))
  · intro h
    by_cases hforeign : Foreign P (writeNames req.writes)
    · refine isolated_of_offStorage (admitName_only (fun _ hq _ => hq) fun project hname => ?_)
      split_ifs with hempty hlength
      · trivial
      · trivial
      · refine (identify_only (fun _ hq _ => hq) project).bind fun identity => ?_
        have hnone := (h hforeign).resolve_left hlength
        obtain ⟨results, hresults⟩ := batchWrite_loop_of_none_decodes project identity hnone
        rw [hresults]
        trivial
    · exact isolated_of_calls (handleBatchWrite_only served (spans_of_name hproject)
        (writesWithin_of_not_foreign hforeign)) hforeign

theorem writeMessage_isolated_iff (identity : Option AuthContext) (token : String)
    (message : WriteRequest) :
    Isolated P (writeNames message.writes) (writeMessage P identity token message) ↔
      (Foreign P (writeNames message.writes) →
        message.streamToken ≠ token ∨ ¬ FirstDecodes message.writes) := by
  constructor
  · intro h hforeign
    by_contra hreaches
    simp only [not_or, not_not] at hreaches
    obtain ⟨htoken, hdecodes⟩ := hreaches
    have hrest := (h.2 hforeign).2 ()
    rw [if_neg (not_not.mpr htoken)] at hrest
    exact translateWrites_not_offDatabase P identity hdecodes (.left hrest)
  · intro h
    by_cases hforeign : Foreign P (writeNames message.writes)
    · refine isolated_of_offStorage ⟨rfl, fun _ => ?_⟩
      dsimp only
      split_ifs with htoken
      · trivial
      · have hfirst := (h hforeign).resolve_left htoken
        obtain ⟨e, he⟩ := translateWrites_eq_error P identity hforeign hfirst
        rw [he]
        trivial
    · exact isolated_of_calls (writeMessage_only identity served (fun _ hpath => hpath)
        (writesWithin_of_not_foreign hforeign) token) hforeign

theorem listen_isolated_iff {req : ListenRequest}
    (hproject : extractProjectIdFromListenRequest req.database = .ok P)
    (hkey : extractApiKey metadata = .ok apiKey) :
    Isolated P (Request.listen req).names (handleListen engine metadata (some req)) ↔
      ∀ target collection filter, req.addTarget = some target →
        target.resolve = .ok (collection, filter) → collection.projectId = P := by
  have hnames : ∀ {target collection filter}, req.addTarget = some target →
      target.resolve = .ok (collection, filter) → ∃ parent,
        (Request.listen req).names = [parent] ∧
        extractProjectId parent = .ok collection.projectId := by
    intro target collection filter htarget hresolve
    obtain ⟨parent, query, rfl, hparent⟩ := resolve_project hresolve
    exact ⟨parent, by rw [Request.names, htarget], hparent⟩
  constructor
  · intro h target collection filter htarget hresolve
    by_contra hother
    obtain ⟨parent, hparents, hparent⟩ := hnames htarget hresolve
    have hforeign : Foreign P (Request.listen req).names := by
      refine ⟨parent, by rw [hparents]; exact mem_singleton.mpr rfl, ?_⟩
      rw [namesOther, hparent]
      exact decide_eq_true hother
    have honly := h.2 hforeign
    rw [handleListen, hkey] at honly
    have hadmitted : (ofExcept (extractProjectIdFromListenRequest req.database) >>=
        fun project => admitKey project apiKey >>= fun _ => identify project metadata >>=
          fun identity => handleAddTarget engine project identity req).Only
            Call.OffDatabase := honly
    rw [hproject] at hadmitted
    have hkeyed : (admitKey P apiKey >>= fun _ => identify P metadata >>=
        fun identity => handleAddTarget engine P identity req).Only Call.OffDatabase := hadmitted
    obtain ⟨identity, hidentity⟩ := identify_returns P metadata
    have hadd := (hkeyed.right (admitKey_returns P apiKey)).right hidentity
    rw [handleAddTarget, htarget] at hadd
    dsimp only at hadd
    rw [hresolve] at hadd
    -- the gate opens, the clock and the channel answer, and then the query is sent
    have hresolved := Only.right hadd (r := (collection, filter)) rfl
    have hquery := ((hresolved.right (listenGate_returns identity collection filter)).2
      ⟨0, 0⟩).2 ()
    exact (Only.of_mapError (.left hquery)).1 _ rfl
  · intro h
    have hlisten : (handleListen engine metadata (some req)).Only
        (ServerCall fun path => path.projectId = P) := by
      refine (Only.ofExcept _).bind fun apiKey => ?_
      refine (Only.ofExcept _).then (.ofExcept fun _ hname => hname) fun project hname => ?_
      obtain rfl := Except.ok.inj (hproject.symm.trans hname)
      refine (admitKey_only apiKey (.off rfl) (.off rfl)).bind fun _ =>
        (identify_calls ..).bind fun identity => ?_
      rw [handleAddTarget.eq_def]
      rcases htarget : req.addTarget with _ | target
      · trivial
      · refine (Only.ofExcept _).then (.ofExcept fun _ hresolve => hresolve)
          fun resolved hresolve => ?_
        obtain ⟨⟨other, collectionPath⟩, filter⟩ := resolved
        obtain rfl : other = P := h target _ filter htarget hresolve
        refine (listenGate_calls ..).bind fun _ => .ask (.off rfl) fun now => ?_
        refine .ask (.register fun _ hpath => hpath) fun _ => ?_
        refine .bind (.mapError ?_ _) fun _ => trivial
        exact runQuery_calls (fun _ hpath => hpath) collectionPath _ none
    refine ⟨hlisten.mono fun _ => ServerCall.within, fun hforeign => ?_⟩
    -- a target that names another project does not resolve
    refine (Only.ofExcept _).bind fun apiKey => (Only.ofExcept _).bind fun project => ?_
    refine (admitKey_only apiKey (offDatabase_of_offStorage _ rfl)
      (offDatabase_of_offStorage _ rfl)).bind fun _ =>
        (identify_only (fun q h _ => offDatabase_of_offStorage q h) project).bind fun identity => ?_
    rw [handleAddTarget.eq_def]
    rcases htarget : req.addTarget with _ | target
    · trivial
    · refine (Only.ofExcept _).then (.ofExcept fun _ hresolve => hresolve)
        fun resolved hresolve => ?_
      obtain ⟨parent, hparents, hparent⟩ := hnames htarget hresolve
      rw [h target _ _ htarget hresolve] at hparent
      rw [hparents] at hforeign
      exact absurd hforeign (not_foreign_singleton hparent)

/-- A request admitted to a project keeps to it exactly if it is confined. -/
theorem isolated_iff_confined (engine : QueryEngine) (metadata : Metadata) (request : Request)
    {P : ProjectId} {apiKey : String} (hproject : request.project = .ok P)
    (hkey : extractApiKey metadata = .ok apiKey) :
    request.Isolated engine metadata P ↔ request.Confined P := by
  have hconfined : ∀ {R : Type} {p : Handler R}, p.Only (ServerCall fun path => path.projectId = P) →
      (Isolated P [] p ↔ True) :=
    fun hcalls => iff_true_intro (isolated_of_calls hcalls not_foreign_nil)
  cases request with
  | createDocument req =>
    exact hconfined (handleCreateDocument_calls (spans_of_name hproject))
  | updateDocument req =>
    refine hconfined (handleUpdateDocument_calls fun name fields hdocument path hpath => ?_)
    rw [Request.project, hdocument] at hproject
    exact spans_of_name hproject _ (parseDocumentPath_projectId hpath)
  | deleteDocument req =>
    refine hconfined (handleDeleteDocument_calls fun path hpath => ?_)
    exact spans_of_name hproject _ (parseDocumentPath_projectId hpath)
  | getDocument req => exact hconfined (handleGetDocument_calls (spans_of_name hproject))
  | batchGetDocuments req => exact iff_true_intro (batchGetDocuments_isolated hproject)
  | listDocuments req => exact hconfined (handleListDocuments_calls (spans_of_name hproject))
  | listCollectionIds req =>
    exact hconfined (handleListCollectionIds_calls (spans_of_name hproject))
  | runQuery req => exact hconfined (handleRunQuery_calls (spans_of_name hproject))
  | runAggregationQuery req =>
    exact hconfined (handleRunAggregationQuery_calls (spans_of_name hproject))
  | beginTransaction req => exact hconfined (handleBeginTransaction_calls req)
  | commit req => exact commit_isolated_iff hproject hkey
  | rollback req => exact hconfined (handleRollback_calls req)
  | batchWrite req => exact batchWrite_isolated_iff hproject hkey
  | writeMessage project identity token message =>
    cases hproject
    exact writeMessage_isolated_iff identity token message
  | listen req => exact listen_isolated_iff hproject hkey

/-- The messages of a `Write` stream are served one after the other, so a stream of
confined messages keeps to its project. -/
theorem runWriteSession_within {stream : List WriteRequest} (identity : Option AuthContext)
    (h : ∀ message ∈ stream, ∀ token, (Request.writeMessage P identity token message).Confined P)
    (token : String) : (runWriteSession P identity token stream).Only (Call.Within P) := by
  induction stream generalizing token with
  | nil => trivial
  | cons message stream ih =>
    have hfirst := (writeMessage_isolated_iff identity token message).mpr
      (h message mem_cons_self token)
    refine hfirst.1.bind fun answer => ?_
    exact (ih (forall_mem_cons.mp h).2 _).bind fun _ => trivial

end MainResult

/-- A stream that deletes a note of its own project. -/
theorem runWriteSession_within_note :
    (runWriteSession demo none "t" [⟨"", "", "t",
      [⟨some (.delete "projects/demo/databases/(default)/documents/notes/n"), none⟩]⟩]).Only
      (Call.Within demo) := by
  refine runWriteSession_within none (fun message hmem token hforeign => ?_) "t"
  obtain rfl := mem_singleton.mp hmem
  exact absurd hforeign (not_foreign_singleton rfl)

section OtherProject

/-- Another project. -/
def otherProject : ProjectId := ⟨"other", by decide⟩

/-- A commit to one project that writes a note of the other. -/
def foreignCommit : CommitRequest :=
  ⟨"projects/demo/databases/(default)", (uuidOf 1).bytes,
    [⟨some (.update "projects/other/databases/(default)/documents/notes/n" (some ∅) (.ok [])),
      none⟩]⟩

/-- It is not isolated. -/
theorem isolated_iff_confined_foreign :
    ¬ (Request.commit foreignCommit).Isolated plainEngine anonymous demo := by
  have hproject : (Request.commit foreignCommit).project = .ok demo := rfl
  have hkey : extractApiKey anonymous = .ok "key" := rfl
  rw [isolated_iff_confined plainEngine anonymous _ hproject hkey]
  intro hconfined
  refine hconfined ⟨_, mem_singleton.mpr rfl, rfl⟩ ?_
  exact ⟨_, rfl, _, _, rfl, rfl⟩

/-- It succeeds, and the other project has a new note. -/
theorem commit_writes_other_project :
    let row : TransactionRow := ⟨demo, .active, ⟨0, 0⟩, ∅⟩
    let w := World.holding .still ((∅ : AList Key.Row).insert (.transaction (uuidOf 1)) row)
    let path : DocumentPath := ⟨otherProject, "notes", "n"⟩
    (Request.commit foreignCommit).project = .ok demo ∧ demo ≠ otherProject ∧
      w.document path = none ∧
      (w.run (handleCommit anonymous foreignCommit)).1 =
        .ok ⟨[⟨⟨0, 0⟩, none, []⟩], ⟨0, 0⟩⟩ ∧
      (w.run (handleCommit anonymous foreignCommit)).2.document path = some ∅ :=
  ⟨rfl, by decide, rfl, rfl, rfl⟩

end OtherProject

end Embyr
