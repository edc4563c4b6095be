import Embyr.GateAgreement
import Embyr.InformationOrder
import Embyr.ReadHandlers

/-!
# The reading handlers compared

When a document that `BatchGetDocuments`, `ListDocuments` or a `RunQuery` on one collection
hands out is one that `GetDocument` hands out as well.

* `World.ReadPasses`, `World.run_handleGetDocument` — what `GetDocument` requires.
* `World.Discloses` — what the other handlers have checked about a document they return;
  one lemma per handler establishes it.
* `returned_by_getDocument` — the comparison. An exact rule that was satisfied on the bare
  context is satisfied on the full one by `evalBool_mono`; an admitted query is satisfied
  by every document it selects.
-/

namespace Embyr

open Program ReadCommitted Documents List

/-- A query that is not on a collection group. -/
def RunQueryRequest.OnCollection (req : RunQueryRequest) : Prop :=
  ∀ proto, req.query = some proto → proto.selector.2 = false

variable {name : String} {condition : Condition} {response : DocumentResponse}

namespace World

variable {w w' : World} {project : ProjectId} {metadata : Metadata}

/-! ## Admission -/

/-- The verified caller of a request. -/
def caller (w : World) (project : ProjectId) (metadata : Metadata) : Option AuthContext :=
  (extractClientIdentityToken metadata).bind (w.env.identity project)

/-- The request gets past admission. -/
def Admits (w : World) (project : ProjectId) (metadata : Metadata) : Prop :=
  w.run (admitProject project metadata) = (.ok (), w)

theorem run_identify (w : World) (project : ProjectId) (metadata : Metadata) :
    w.run (identify project metadata) = (.ok (w.caller project metadata), w) := by
  rw [identify, caller]
  rcases extractClientIdentityToken metadata with _ | token <;> rfl

theorem run_admitProject_state (w : World) (project : ProjectId) (metadata : Metadata) :
    (w.run (admitProject project metadata)).2 = w := by
  have honly : (admitProject project metadata).Only fun q => ∀ w, (answer q w).2 = w := by
    refine (Prog.Only.ofExcept _).bind fun apiKey => ?_
    exact admitKey_only apiKey (fun _ => rfl) fun _ => rfl
  have hstep : ∀ w' q, w' = w → (∀ w, (answer q w).2 = w) → (answer q w').2 = w :=
    fun w' q hw hq => (hq w').trans hw
  exact honly.run hstep rfl

theorem Admits.of_run (h : w.run (admitProject project metadata) = (.ok (), w')) :
    w.Admits project metadata ∧ w' = w := by
  have hstate := run_admitProject_state w project metadata
  rw [h] at hstate
  exact ⟨hstate ▸ h, hstate⟩

theorem run_admitName (hname : extractProjectId name = .ok project)
    (h : w.Admits project metadata) : w.run (admitName name metadata) = (.ok project, w) := by
  rw [admitName, hname]
  exact run_bind_of_ok h

theorem run_admitName_eq_ok (h : w.run (admitName name metadata) = (.ok project, w')) :
    extractProjectId name = .ok project ∧ w.Admits project metadata ∧ w' = w := by
  obtain ⟨other, hname, hrest⟩ := run_ofExcept_bind_eq_ok h
  obtain ⟨_, w₁, hadmit, hpure⟩ := run_bind_eq_ok hrest
  obtain ⟨hadmits, rfl⟩ := Admits.of_run hadmit
  cases hpure
  exact ⟨hname, hadmits, rfl⟩

/-! ## What GetDocument requires -/

/-- The context `GetDocument` collects for a rule. -/
def readGateContext (w : World) (identity : Option AuthContext) (path : DocumentPath)
    (ancestors : StrMap String) (condition : Condition) : EvalContext :=
  readContext identity path (Documents.stored w.document path) ancestors w.env.clock
    (w.crossReads path.projectId
      (discoverCrossDocumentPaths condition identity (some path.documentId) ancestors))

/-- A stored read rule parses and allows. -/
def AllowsRead (w : World) (identity : Option AuthContext) (path : DocumentPath)
    (ancestors : StrMap String) (source : String) : Prop :=
  ∃ condition, parseCondition source = .ok condition ∧
    evaluate condition (w.readGateContext identity path ancestors condition) = .allow

/-- A route without pattern, or without read condition, lets everything pass. -/
def RouteAllowsRead (w : World) (identity : Option AuthContext) (path : DocumentPath) :
    Option Route → Prop
  | none => True
  | some (row, bindings) => ∀ source, row.readCondition = some source →
      w.AllowsRead identity path bindings source

/-- The document is routed, and the route lets the read pass. -/
def PatternAllowsRead (w : World) (identity : Option AuthContext) (path : DocumentPath) : Prop :=
  ∃ route, resolveAccessRulePattern (w.env.rules path.projectId).patterns path.collectionPath
      (some path.documentId) = .ok route ∧ w.RouteAllowsRead identity path route

/-- The exact rule of a collection. -/
def readRule (w : World) (path : DocumentPath) : Option String :=
  (w.env.rules path.projectId).readRules[path.collectionPath]?

/-- The read gate of `GetDocument` opens. -/
def ReadPasses (w : World) (identity : Option AuthContext) (path : DocumentPath) : Prop :=
  match w.readRule path with
  | some source => w.AllowsRead identity path ∅ source
  | none => w.PatternAllowsRead identity path

variable {identity : Option AuthContext} {path : DocumentPath}

variable {source reparse : String}

theorem run_judgeRead {ancestors : StrMap String}
    (h : w.AllowsRead identity path ancestors source) :
    w.run (judgeRead reparse identity path (stored w.document path) ancestors source) =
      (.ok (), w) := by
  obtain ⟨condition, hparse, hallow⟩ := h
  have hstored : parseStored reparse source = .ok condition := by
    rw [parseStored, hparse]
  rw [judgeRead, hstored]
  refine (run_bind_of_ok (run_fetchCrossDocumentReads w _ _)).trans ?_
  have henforce : enforce "access denied by rule" condition
      (w.readGateContext identity path ancestors condition) = .ok () := by
    rw [enforce, hallow]
  exact (run_ofExcept _).trans (congrArg (·, w) henforce)

theorem run_readGate (h : w.ReadPasses identity path) :
    w.run (readGate identity path (stored w.document path) (w.readRule path)) =
      (.ok (), w) := by
  rw [ReadPasses] at h
  rcases hrule : w.readRule path with _ | source
  · rw [hrule] at h
    obtain ⟨route, hroute, hallows⟩ := h
    have hrun := run_routePattern w path.projectId path.collectionPath (some path.documentId)
    rw [hroute] at hrun
    refine (run_bind_of_ok hrun).trans ?_
    rcases route with _ | ⟨row, bindings⟩
    · rfl
    · rw [readRouteGate]
      rcases hread : row.readCondition with _ | source
      · rfl
      · exact run_judgeRead (hallows source hread)
  · rw [hrule] at h
    exact run_judgeRead h

variable {doc : FirestoreDocument}

/-- `GetDocument` returns a stored document to a caller whom its gate lets pass. -/
theorem run_handleGetDocument (hpath : parseDocumentPath name = .ok path)
    (hadmits : w.Admits path.projectId metadata)
    (hdoc : visibleDocument path (w.documentRow path) = some doc)
    (hpasses : w.ReadPasses (w.caller path.projectId metadata) path) :
    w.run (handleGetDocument metadata ⟨name, none⟩) = (.ok (documentToProto doc), w) := by
  have hresource : ((some doc).map FirestoreDocument.fields).getD ∅ =
      stored w.document path := by
    rw [← hdoc, fields_visibleDocument]
    rfl
  refine (run_bind_of_ok (run_admitName (parseDocumentPath_projectId hpath) hadmits)).trans ?_
  refine (run_bind_of_ok (run_identify w _ _)).trans ?_
  rw [hpath]
  refine (run_bind_of_ok (run_storage_ok (run_getDocument w path))).trans ?_
  rw [hdoc, hresource]
  exact (run_bind_of_ok (run_readGate hpasses)).trans rfl

/-! ## What the other handlers have checked -/

/-- What is known of a document that a handler returns: it is stored, its project admits
the caller, and the exact rule of its collection, if there is one, is `Satisfied`. -/
structure Discloses (w : World) (metadata : Metadata) (path : DocumentPath)
    (doc : FirestoreDocument) (Satisfied : Condition → Prop) : Prop where
  admits : w.Admits path.projectId metadata
  visible : visibleDocument path (w.documentRow path) = some doc
  rule : ∀ source, w.readRule path = some source →
    ∃ condition, parseCondition source = .ok condition ∧ Satisfied condition

theorem Discloses.run_handleGetDocument {Satisfied : Condition → Prop}
    (h : w.Discloses metadata path doc Satisfied) (hpath : parseDocumentPath name = .ok path)
    (hexact : ∀ source condition, w.readRule path = some source →
      parseCondition source = .ok condition → Satisfied condition →
      evaluate condition (w.readGateContext (w.caller path.projectId metadata) path ∅ condition) =
        .allow)
    (hpattern : w.readRule path = none →
      w.PatternAllowsRead (w.caller path.projectId metadata) path) :
    w.run (handleGetDocument metadata ⟨name, none⟩) = (.ok (documentToProto doc), w) := by
  refine World.run_handleGetDocument hpath h.admits h.visible ?_
  rw [ReadPasses]
  rcases hrule : w.readRule path with _ | source
  · exact hpattern hrule
  · obtain ⟨condition, hparse, hsatisfied⟩ := h.rule source hrule
    exact ⟨condition, hparse, hexact source condition hrule hparse hsatisfied⟩

/-- Other documents may be recorded as read, but all of them are the same. -/
structure SameDocuments (w w' : World) : Prop where
  env_eq : w'.env = w.env
  row_eq : w'.documentRow = w.documentRow

theorem SameDocuments.trans {w'' : World} (h : w.SameDocuments w') (h' : w'.SameDocuments w'') :
    w.SameDocuments w'' :=
  ⟨h'.env_eq.trans h.env_eq, h'.row_eq.trans h.row_eq⟩

/-- A call that changes no document. -/
def LeavesDocuments (q : Call) : Prop := ∀ w : World, w.SameDocuments (answer q w).2

theorem state_run_sql (w : World) (q : Stmt Key.Row) : (w.run (sql q)).2 = (w.execute q).2 := by
  have hrun : w.run (sql q) = (match (w.execute q).1 with
      | .ok r => .ok r
      | .error e => .error (.backendUnavailable e.text) : Adapter q.Result).run answer
        (w.execute q).2 := rfl
  rw [hrun]
  rcases (w.execute q).1 with e | r <;> rfl

theorem leavesDocuments_sql {q : Stmt Key.Row}
    (h : ∀ w : World, w.SameDocuments (w.run (sql q)).2) : LeavesDocuments (.sql q) :=
  fun w => state_run_sql w q ▸ h w

theorem leavesDocuments_updateTransaction (uuid : Uuid) (p : TransactionRow → Bool)
    (f : TransactionRow → TransactionRow) :
    LeavesDocuments (.sql (.update (.transaction uuid) p f)) := by
  refine leavesDocuments_sql fun w => ?_
  rcases hrow : Option.filter p (w.rowsSeen.lookup (.transaction uuid)) with _ | row
  · rw [run_update_none hrow]
    exact ⟨rfl, rfl⟩
  · rw [run_update_some hrow]
    exact ⟨rfl, funext fun _ => lookup_rowsSeen_put_ne (by simp)⟩

theorem leavesDocuments_select (k : Key) : LeavesDocuments (.sql (.select k)) := by
  refine leavesDocuments_sql fun w => ?_
  rw [run_select]
  exact ⟨rfl, rfl⟩

theorem getDocument_leavesDocuments (path : DocumentPath) (transaction : Option TransactionId) :
    (getDocument path transaction).Only LeavesDocuments := by
  refine (sql_only (leavesDocuments_select _)).bind fun row => ?_
  rcases transaction with _ | id
  · trivial
  · refine .bind ?_ fun _ => trivial
    refine (Prog.Only.ofExcept _).bind fun uuid => ?_
    refine ⟨fun _ => ⟨rfl, rfl⟩, fun now => ?_⟩
    refine (sql_only (leavesDocuments_updateTransaction _ _ _)).bind fun updated => ?_
    rcases updated with _ | _ <;> trivial

variable {transaction : Option TransactionId}

theorem run_getDocument_eq_ok {doc : Option FirestoreDocument}
    (h : w.run (storage (getDocument path transaction)) = (.ok doc, w')) :
    doc = visibleDocument path (w.documentRow path) ∧ w.SameDocuments w' := by
  have hrun := run_storage_eq_ok h
  constructor
  · obtain ⟨row, w₁, hselect, hrest⟩ := run_bind_eq_ok hrun
    obtain ⟨hrow, -⟩ := Prod.mk.inj (run_select.symm.trans hselect)
    cases hrow
    rcases transaction with _ | id
    · cases hrest
      rfl
    · obtain ⟨_, w₂, -, hpure⟩ := run_bind_eq_ok hrest
      cases hpure
      rfl
  · have hsame := (getDocument_leavesDocuments path transaction).run
      (fun w₁ q (h₁ : w.SameDocuments w₁) hq => h₁.trans (hq w₁)) ⟨rfl, rfl⟩
    rw [show Prog.run answer (getDocument path transaction) w = (.ok doc, w') from hrun] at hsame
    exact hsame

/-! ## Rules on the bare context -/

/-- An exact rule allows on the bare context. -/
def PlainlyAllows (identity : Option AuthContext) (fields : Fields) (condition : Condition) :
    Prop :=
  evaluate condition (plainContext identity fields) = .allow

theorem parseStored_eq_ok
    (h : parseStored reparse source = .ok condition) : parseCondition source = .ok condition := by
  rw [parseStored] at h
  rcases hparse : parseCondition source with e | c
  · rw [hparse] at h
    cases h
  · rw [hparse] at h
    cases h
    rfl

theorem parseRule_plainAllows {rule : Option String} {condition : Option Condition}
    {fields : Fields} (hparse : parseRule rule = .ok condition)
    (hallows : plainAllows identity condition fields = true) (hrule : rule = some source) :
    ∃ c, parseCondition source = .ok c ∧ PlainlyAllows identity fields c := by
  subst hrule
  obtain ⟨c, hstored, rfl⟩ := map_eq_ok hparse
  have hallow : evaluate c (plainContext identity fields) = .allow := of_decide_eq_true hallows
  exact ⟨c, parseStored_eq_ok hstored, hallow⟩

/-- The cache holds what the system database says. -/
def CacheFits (w : World) (project : ProjectId) (cache : RuleCache) : Prop :=
  ∀ (collectionPath : String) (rule : Option String), cache[collectionPath]? = some rule →
    rule = (w.env.rules project).readRules[collectionPath]?

variable {cache : RuleCache}

theorem run_lookupCached (h : w.CacheFits project cache) (collectionPath : String) :
    ∃ cache', w.run (lookupCached project cache collectionPath) =
        (.ok ((w.env.rules project).readRules[collectionPath]?, cache'), w) ∧
      w.CacheFits project cache' := by
  rw [lookupCached]
  rcases hcache : cache[collectionPath]? with _ | rule
  · refine ⟨_, rfl, fun other rule hrule => ?_⟩
    rw [Std.ExtTreeMap.getElem?_insert] at hrule
    split_ifs at hrule with heq
    · obtain rfl := Std.LawfulEqCmp.eq_of_compare heq
      exact (Option.some.inj hrule).symm
    · exact h other rule hrule
  · refine ⟨cache, ?_, h⟩
    rw [h collectionPath rule hcache]
    rfl

theorem cacheFits_empty (w : World) (project : ProjectId) : w.CacheFits project ∅ := by
  intro collectionPath rule hrule
  simp at hrule

/-! ## BatchGetDocuments -/

theorem batchGetItem_eq_found {condition : Option Condition} {doc : Option FirestoreDocument}
    (h : batchGetItem identity name condition doc = .found response) :
    ∃ d, doc = some d ∧ plainAllows identity condition d.fields = true ∧
      response = documentToProto d := by
  rw [batchGetItem] at h
  rcases hfilter : doc.filter (fun doc => plainAllows identity condition doc.fields) with _ | d
  · rw [hfilter] at h
    cases h
  · rw [hfilter] at h
    obtain ⟨hdoc, hallows⟩ := Option.filter_eq_some_iff.mp hfilter
    exact ⟨d, hdoc, hallows, (BatchGetItem.found.inj h).symm⟩

/-- What the loop has checked about each document it found. -/
theorem batchGetLoop_found {names : List String} {w₁ w₂ : World} {items : List BatchGetItem}
    (hsame : w.SameDocuments w₁) (hcache : w.CacheFits project cache)
    (hrun : w₁.run (batchGetLoop project identity transaction cache names) = (.ok items, w₂))
    (hmem : (name, BatchGetItem.found response) ∈ names.zip items) :
    ∃ path doc, parseDocumentPath name = .ok path ∧ response = documentToProto doc ∧
      visibleDocument path (w.documentRow path) = some doc ∧
      ∀ source, (w.env.rules project).readRules[path.collectionPath]? = some source →
        ∃ c, parseCondition source = .ok c ∧ PlainlyAllows identity doc.fields c := by
  -- each turn may record a read, so the worlds differ, but the documents do not
  induction names generalizing cache w₁ w₂ items with
  | nil => cases hmem
  | cons first names ih =>
    obtain ⟨path, hpath, hrun₁⟩ := run_ofExcept_bind_eq_ok hrun
    have hcache₁ : w₁.CacheFits project cache := by
      intro collectionPath rule hrule
      rw [hsame.env_eq]
      exact hcache collectionPath rule hrule
    obtain ⟨cache', hlookup, hcache'⟩ := run_lookupCached hcache₁ path.collectionPath
    rw [run_bind_of_ok hlookup] at hrun₁
    obtain ⟨doc, w₃, hget, hrun₂⟩ := run_bind_eq_ok hrun₁
    obtain ⟨hdoc, hsame'⟩ := run_getDocument_eq_ok hget
    obtain ⟨condition, hparse, hrun₃⟩ := run_ofExcept_bind_eq_ok hrun₂
    obtain ⟨rest, w₄, hrest, hpure⟩ := run_bind_eq_ok hrun₃
    cases hpure
    rw [hsame.env_eq] at hparse
    rw [hsame.row_eq] at hdoc
    rcases mem_cons.mp hmem with hfirst | hmem
    · obtain ⟨rfl, hitem⟩ := Prod.mk.inj hfirst
      obtain ⟨d, hd, hallows, hresponse⟩ := batchGetItem_eq_found hitem.symm
      refine ⟨path, d, hpath, hresponse, hdoc ▸ hd, fun source hrule => ?_⟩
      exact parseRule_plainAllows hparse hallows hrule
    · refine ih (hsame.trans hsame') (fun collectionPath rule hrule => ?_) hrest hmem
      rw [← hsame.env_eq]
      exact hcache' collectionPath rule hrule

theorem handleBatchGetDocuments_discloses {req : BatchGetDocumentsRequest}
    {items : List BatchGetItem}
    (hrun : w.run (handleBatchGetDocuments metadata req) = (.ok items, w'))
    (hmem : (name, BatchGetItem.found response) ∈ req.documents.zip items) :
    ∃ path doc, parseDocumentPath name = .ok path ∧ response = documentToProto doc ∧
      w.Discloses metadata path doc
        (PlainlyAllows (w.caller path.projectId metadata) doc.fields) := by
  obtain ⟨project, w₁, hadmit, hrun₁⟩ := run_bind_eq_ok hrun
  obtain ⟨-, hadmits, rfl⟩ := run_admitName_eq_ok hadmit
  rw [run_bind_of_ok (run_identify w₁ project metadata)] at hrun₁
  split_ifs at hrun₁ with hempty hlength
  · cases hrun₁
  · cases hrun₁
  · obtain ⟨_, hproject, hloop⟩ := run_ofExcept_bind_eq_ok hrun₁
    obtain ⟨path, doc, hpath, hresponse, hvisible, hrule⟩ :=
      batchGetLoop_found ⟨rfl, rfl⟩ (cacheFits_empty w₁ project) hloop hmem
    have hname := checkSameProject_eq_ok hproject (of_mem_zip hmem).1
    obtain rfl := Except.ok.inj ((parseDocumentPath_projectId hpath).symm.trans hname)
    exact ⟨path, doc, hpath, hresponse, hadmits, hvisible, hrule⟩

/-! ## Scans -/

theorem mem_documentsWhere {p : DocumentPath → Bool} {rows : AList Key.Row}
    (h : doc ∈ (documentsWhere p rows).filterMap asDocument) :
    p doc.path = true ∧ visibleDocument doc.path (rows.lookup (.document doc.path)) = some doc := by
  obtain ⟨⟨key, row⟩, hmem, hdoc⟩ := mem_filterMap.mp h
  obtain ⟨hentry, hkept⟩ := mem_filter.mp hmem
  cases key with
  | transaction id => cases hkept
  | document path =>
    obtain ⟨hp, hvisible⟩ := Bool.and_eq_true_iff.mp hkept
    cases hdoc
    refine ⟨hp, ?_⟩
    have hlookup : rows.lookup (.document path) = some row := AList.mem_lookup_iff.mpr hentry
    rw [visibleDocument, show (DocumentRow.toDocument path row).path = path from rfl, hlookup]
    rw [Option.filter_some, if_pos hvisible]
    rfl

theorem run_selectDocuments (w : World) (engine : QueryEngine) (collection : CollectionPath)
    (query : StructuredQuery) :
    w.run (selectDocuments engine collection query) =
      (.ok (((documentsWhere (collection.covers engine query.allDescendants) w.rowsSeen).filterMap
        asDocument).filter fun doc =>
          QueryFilter.optionSelects engine.other query.filter doc.fields), w) :=
  run_bind_of_ok run_scan

variable {engine : QueryEngine} {query : StructuredQuery} {docs : List FirestoreDocument}

/-- A document of a query's answer is covered, selected and stored. -/
theorem run_runQuery_eq_ok {collection : CollectionPath}
    (h : w.run (runQuery engine collection query transaction) = (.ok docs, w'))
    (hmem : doc ∈ docs) :
    collection.covers engine query.allDescendants doc.path = true ∧
      QueryFilter.optionSelects engine.other query.filter doc.fields = true ∧
      visibleDocument doc.path (w.documentRow doc.path) = some doc := by
  rw [runQuery, run_bind_of_ok (run_selectDocuments w engine collection query)] at h
  have hdocs : doc ∈ ((documentsWhere (collection.covers engine query.allDescendants)
      w.rowsSeen).filterMap asDocument).filter fun doc =>
        QueryFilter.optionSelects engine.other query.filter doc.fields := by
    apply engine.arrange_subset query
    rcases transaction with _ | id
    · cases h
      exact hmem
    · obtain ⟨_, w₁, -, hpure⟩ := run_bind_eq_ok h
      cases hpure
      exact hmem
  obtain ⟨hscanned, hselected⟩ := mem_filter.mp hdocs
  obtain ⟨hcovers, hvisible⟩ := mem_documentsWhere hscanned
  exact ⟨hcovers, hselected, hvisible⟩

/-! ## ListDocuments -/

/-- What a listing has checked about a document. -/
def Listed (w : World) (project : ProjectId) (identity : Option AuthContext)
    (doc : FirestoreDocument) : Prop :=
  doc.path.projectId = project ∧ visibleDocument doc.path (w.documentRow doc.path) = some doc ∧
    ∀ source, w.readRule doc.path = some source →
      ∃ c, parseCondition source = .ok c ∧ PlainlyAllows identity doc.fields c

variable {collectionPath : String}

theorem run_listCollection {cache' : RuleCache} (hcache : w.CacheFits project cache)
    (h : w.run (listCollection engine project identity cache collectionPath) =
      (.ok (docs, cache'), w')) :
    w' = w ∧ w.CacheFits project cache' ∧ ∀ doc ∈ docs, w.Listed project identity doc := by
  obtain ⟨found, w₁, hquery, hrest⟩ := run_bind_eq_ok h
  have hrun := run_storage_eq_ok hquery
  have hw₁ : w₁ = w := by
    rw [runQuery, run_bind_of_ok (run_selectDocuments w _ _ _)] at hrun
    cases hrun
    rfl
  subst hw₁
  obtain ⟨cache₁, hlookup, hcache₁⟩ := run_lookupCached hcache collectionPath
  rw [run_bind_of_ok hlookup] at hrest
  obtain ⟨condition, hparse, hpure⟩ := run_ofExcept_bind_eq_ok hrest
  cases hpure
  refine ⟨rfl, hcache₁, fun doc hmem => ?_⟩
  obtain ⟨hfound, hallows⟩ := mem_filter.mp hmem
  obtain ⟨hcovers, -, hvisible⟩ := run_runQuery_eq_ok hrun hfound
  obtain ⟨hproject, hcollection⟩ := Bool.and_eq_true_iff.mp hcovers
  have hproject : doc.path.projectId = project := of_decide_eq_true hproject
  have hcollection : doc.path.collectionPath = collectionPath := of_decide_eq_true hcollection
  refine ⟨hproject, hvisible, fun source hrule => ?_⟩
  rw [readRule, hproject, hcollection] at hrule
  exact parseRule_plainAllows hparse hallows hrule

theorem run_listLoop {collections : List String} (hcache : w.CacheFits project cache)
    (h : w.run (listLoop engine project identity cache collections) = (.ok docs, w')) :
    ∀ doc ∈ docs, w.Listed project identity doc := by
  induction collections generalizing cache docs w' with
  | nil =>
    cases h
    intro doc hmem
    cases hmem
  | cons collectionPath rest ih =>
    obtain ⟨⟨first, cache'⟩, w₁, hfirst, hrest⟩ := run_bind_eq_ok h
    obtain ⟨rfl, hcache', hlisted⟩ := run_listCollection hcache hfirst
    obtain ⟨more, w₂, hmore, hpure⟩ := run_bind_eq_ok hrest
    cases hpure
    intro doc hmem
    rcases mem_append.mp hmem with hmem | hmem
    · exact hlisted doc hmem
    · exact ih hcache' hmore doc hmem

theorem listedCollections_state {parent collectionId : String} {collections : List String}
    (h : w.run (listedCollections project parent collectionId) = (.ok collections, w')) :
    w' = w := by
  simp only [listedCollections] at h
  by_cases hempty : collectionId.isEmpty = true
  · rw [if_pos hempty] at h
    obtain ⟨names, w₁, hnames, hpure⟩ := run_bind_eq_ok h
    have hrun := run_storage_eq_ok hnames
    rw [listCollectionIds, run_bind_of_ok run_scan] at hrun
    cases hrun
    cases hpure
    rfl
  · rw [if_neg hempty] at h
    cases h
    rfl

theorem handleListDocuments_discloses {req : ListDocumentsRequest} {answer : ListDocumentsResponse}
    (hrun : w.run (handleListDocuments engine metadata req) = (.ok answer, w'))
    (hmem : response ∈ answer.documents) :
    ∃ doc, response = documentToProto doc ∧
      w.Discloses metadata doc.path doc
        (PlainlyAllows (w.caller doc.path.projectId metadata) doc.fields) := by
  obtain ⟨⟨project, parent⟩, -, hrun₁⟩ := run_ofExcept_bind_eq_ok hrun
  obtain ⟨_, w₁, hadmit, hrun₂⟩ := run_bind_eq_ok hrun₁
  obtain ⟨hadmits, rfl⟩ := Admits.of_run hadmit
  rw [run_bind_of_ok (run_identify w₁ project metadata)] at hrun₂
  obtain ⟨offset, -, hrun₃⟩ := run_ofExcept_bind_eq_ok hrun₂
  obtain ⟨collections, w₂, hcollections, hrun₄⟩ := run_bind_eq_ok hrun₃
  obtain rfl := listedCollections_state hcollections
  obtain ⟨docs, w₃, hloop, hpure⟩ := run_bind_eq_ok hrun₄
  cases hpure
  obtain ⟨doc, hdoc, rfl⟩ := mem_map.mp hmem
  have hlisted : doc ∈ docs :=
    mem_mergeSort.mp (mem_of_mem_drop (mem_of_mem_take hdoc))
  obtain ⟨rfl, hvisible, hrule⟩ :=
    run_listLoop (cacheFits_empty w₂ project) hloop doc hlisted
  exact ⟨doc, rfl, hadmits, hvisible, hrule⟩

/-! ## RunQuery -/

/-- A rule that holds whatever the rest of the context is. -/
def AllowsAnyway (identity : Option AuthContext) (fields : Fields) (condition : Condition) :
    Prop :=
  ∀ ctx : EvalContext, ctx.auth = identity → ctx.resourceFields = fields →
    evaluate condition ctx = .allow

/-- The claims the query gates drop do not matter to an atom. -/
theorem atom_holds_withoutClaims {ctx : EvalContext} {atom : Atom}
    (h : atom.Holds { ctx with auth := withoutClaims ctx.auth }) : atom.Holds ctx := by
  cases atom with
  | literal b => exact h
  | ownershipEquality field =>
    obtain ⟨auth, hauth, hfield⟩ := h
    obtain ⟨auth', hauth', rfl⟩ := Option.map_eq_some_iff.mp hauth
    exact ⟨auth', hauth', hfield⟩
  | authRequired =>
    have hsome : (withoutClaims ctx.auth).isSome = true := h
    rw [withoutClaims, Option.isSome_map] at hsome
    exact hsome

variable {filter : Option QueryFilter}

/-- An admitted query selects only documents its rule allows. -/
theorem admitted_allowsAnyway {fields : Fields} {other : FieldFilter → Fields → Bool}
    (hadmitted : checkQueryCompliance condition filter (withoutClaims identity) = .admitted)
    (hselect : QueryFilter.optionSelects other filter fields = true) :
    AllowsAnyway identity fields condition := by
  rintro ctx rfl rfl
  rw [checkQueryCompliance] at hadmitted
  rcases hatoms : decomposeDecidable condition with _ | atoms
  · rw [hatoms] at hadmitted
    cases hadmitted
  · rw [hatoms] at hadmitted
    let bare : EvalContext := { ctx with auth := withoutClaims ctx.auth }
    have hloop : complianceLoop filter bare.auth [] atoms = .admitted := hadmitted
    have hbare : QueryFilter.optionSelects other filter bare.resourceFields = true := hselect
    obtain ⟨-, hholds⟩ := complianceLoop_admitted hbare hloop
    refine evaluate_eq_allow_iff.mpr ((evalBool_iff_atoms hatoms).mpr fun a ha => ?_)
    exact atom_holds_withoutClaims (hholds a ha)

theorem checkCompliance_eq_ok (h : checkCompliance reparse identity filter source = .ok ()) :
    ∃ condition, parseCondition source = .ok condition ∧
      checkQueryCompliance condition filter (withoutClaims identity) = .admitted := by
  obtain ⟨condition, hparse, hcheck⟩ := bind_eq_ok h
  refine ⟨condition, parseStored_eq_ok hparse, ?_⟩
  rcases houtcome : checkQueryCompliance condition filter (withoutClaims identity) with _ | _ | _
  · rfl
  all_goals
    rw [houtcome] at hcheck
    cases hcheck

theorem run_collectionGate_eq_ok
    (h : w.run (collectionGate project identity collectionPath filter) = (.ok (), w')) :
    w' = w ∧ ∀ source, (w.env.rules project).readRules[collectionPath]? = some source →
      ∃ condition, parseCondition source = .ok condition ∧
        checkQueryCompliance condition filter (withoutClaims identity) = .admitted := by
  have hrule : w.run (getAccessRule project collectionPath) =
      (.ok (w.env.rules project).readRules[collectionPath]?, w) := rfl
  rw [collectionGate, run_bind_of_ok hrule] at h
  rcases hstored : (w.env.rules project).readRules[collectionPath]? with _ | source
  · rw [hstored] at h
    cases h
    exact ⟨rfl, fun source hsource => by cases hsource⟩
  · rw [hstored] at h
    obtain ⟨hcheck, hw⟩ := Prod.mk.inj ((run_ofExcept _).symm.trans h)
    refine ⟨hw.symm, fun source' hsource => ?_⟩
    cases hsource
    exact checkCompliance_eq_ok hcheck

theorem run_checkIndex_state
    (h : w.run (checkIndex project collectionPath query) = (.ok (), w')) : w' = w := by
  rw [checkIndex] at h
  split_ifs at h with hneeded
  · rw [Prog.ask_bind] at h
    change w.run (if w.env.indexReady project collectionPath then _ else _) = _ at h
    split_ifs at h with hready
    · cases h
      rfl
    · cases h
  · cases h
    rfl

theorem translate_eq_ok {proto : ProtoQuery} (h : proto.translate = .ok query) :
    ∃ filter orderBy limit offset startAt endAt, proto.translatedFilter = .ok filter ∧
      query = ⟨proto.selector.2, filter, orderBy, limit, offset, startAt, endAt, none⟩ := by
  obtain ⟨filter, hfilter, h₁⟩ := bind_eq_ok h
  obtain ⟨orderBy, -, h₂⟩ := bind_eq_ok h₁
  obtain ⟨_, -, h₃⟩ := bind_eq_ok h₂
  obtain ⟨_, -, h₄⟩ := bind_eq_ok h₃
  cases h₄
  exact ⟨filter, _, _, _, _, _, hfilter, rfl⟩

theorem handleRunQuery_discloses {req : RunQueryRequest} (hcollection : req.OnCollection)
    {responses : List DocumentResponse}
    (hrun : w.run (handleRunQuery engine metadata req) = (.ok responses, w'))
    (hmem : response ∈ responses) :
    ∃ doc, response = documentToProto doc ∧
      w.Discloses metadata doc.path doc
        (AllowsAnyway (w.caller doc.path.projectId metadata) doc.fields) := by
  obtain ⟨project, w₁, hadmit, hrun₁⟩ := run_bind_eq_ok hrun
  obtain ⟨-, hadmits, rfl⟩ := run_admitName_eq_ok hadmit
  rw [run_bind_of_ok (run_identify w₁ project metadata)] at hrun₁
  rcases hquery : req.query with _ | proto
  · rw [hquery] at hrun₁
    cases hrun₁
  rw [hquery] at hrun₁
  obtain ⟨query, htranslate, hrun₂⟩ := run_ofExcept_bind_eq_ok hrun₁
  have hgroup : query.allDescendants = false := by
    obtain ⟨_, _, _, _, _, _, -, rfl⟩ := translate_eq_ok htranslate
    exact hcollection proto hquery
  obtain ⟨_, w₂, hgate, hrun₃⟩ := run_bind_eq_ok hrun₂
  rw [queryGate, hgroup] at hgate
  obtain ⟨rfl, hrule⟩ := run_collectionGate_eq_ok hgate
  obtain ⟨_, w₃, hindex, hrun₄⟩ := run_bind_eq_ok hrun₃
  obtain rfl := run_checkIndex_state hindex
  obtain ⟨docs, w₄, hdocs, hpure⟩ := run_bind_eq_ok hrun₄
  cases hpure
  obtain ⟨doc, hdoc, rfl⟩ := mem_map.mp hmem
  obtain ⟨hcovers, hselect, hvisible⟩ := run_runQuery_eq_ok (run_storage_eq_ok hdocs) hdoc
  rw [hgroup] at hcovers
  obtain ⟨hproject, hpath⟩ := Bool.and_eq_true_iff.mp hcovers
  obtain rfl : doc.path.projectId = project := of_decide_eq_true hproject
  have hpath : doc.path.collectionPath = proto.selector.1 := of_decide_eq_true hpath
  refine ⟨doc, rfl, hadmits, hvisible, fun source hsource => ?_⟩
  rw [readRule, hpath] at hsource
  obtain ⟨condition, hparse, hadmitted⟩ := hrule source hsource
  exact ⟨condition, hparse, admitted_allowsAnyway hadmitted hselect⟩

end World

/-! ## The comparison -/

/-- The full context knows what the bare one knows. -/
theorem plainContext_below (identity : Option AuthContext) (path : DocumentPath)
    (resource : Fields) (ancestors : StrMap String) (now : Timestamp)
    (cross : StrMap (Option FirestoreDocument)) :
    (plainContext identity resource).Below
      (readContext identity path resource ancestors now cross) where
  auth_eq := rfl
  resource_eq := rfl
  request_eq := rfl
  variable_le := by
    intro name value h
    simp [plainContext, resolvePathVariable] at h
  time_le := by
    intro value h
    cases h
  cross_le := by
    intro path doc h
    simp [plainContext, EvalContext.crossDocument] at h

/-- A request of the three handlers; a query is on one collection. -/
inductive ReadRequest where
  | batchGet (req : BatchGetDocumentsRequest)
  | list (req : ListDocumentsRequest)
  | runQuery (req : RunQueryRequest) (hcollection : req.OnCollection)

namespace ReadRequest

/-- The documents a request returns, each under its name: the name it was asked by, or
else its own. -/
def returned (engine : QueryEngine) (metadata : Metadata) (w : World) :
    ReadRequest → List (String × DocumentResponse)
  | batchGet req =>
    match (w.run (handleBatchGetDocuments metadata req)).1 with
    | .ok items => (req.documents.zip items).filterMap fun
      | (name, .found doc) => some (name, doc)
      | (_, .missing _) => none
    | .error _ => []
  | list req =>
    match (w.run (handleListDocuments engine metadata req)).1 with
    | .ok answer => answer.documents.map fun doc => (doc.name, doc)
    | .error _ => []
  | runQuery req _ =>
    match (w.run (handleRunQuery engine metadata req)).1 with
    | .ok docs => docs.map fun doc => (doc.name, doc)
    | .error _ => []

/-- The handler evaluates rules, on the bare context. -/
def evaluates : ReadRequest → Bool
  | batchGet _ | list _ => true
  | runQuery _ _ => false

/-- Where documents are returned under their own names, these read back as their paths. -/
def NamesParse (w : World) : ReadRequest → Prop
  | batchGet _ => True
  | list _ | runQuery _ _ => ∀ path, (w.document path).isSome = true →
      parseDocumentPath (documentName path) = .ok path

/-- The rules of the document do not depend on what only `GetDocument` looks at: an exact
rule that is evaluated draws no conclusion from something being missing, and without an
exact rule the route lets the read pass. -/
def Comparable (metadata : Metadata) (w : World) (path : DocumentPath)
    (request : ReadRequest) : Prop :=
  match w.readRule path with
  | some source => request.evaluates = true → ∀ condition,
      parseCondition source = .ok condition → condition.positive = true
  | none => w.PatternAllowsRead (w.caller path.projectId metadata) path

/-- What is known of the rule behind a returned document. -/
def Satisfied (identity : Option AuthContext) (fields : Fields) (request : ReadRequest)
    (condition : Condition) : Prop :=
  if request.evaluates then World.PlainlyAllows identity fields condition
  else World.AllowsAnyway identity fields condition

variable {engine : QueryEngine} {metadata : Metadata} {w : World}

theorem satisfied_allows {identity : Option AuthContext} {path : DocumentPath}
    {request : ReadRequest} (hpositive : request.evaluates = true → condition.positive = true)
    (h : request.Satisfied identity (stored w.document path) condition) :
    evaluate condition (w.readGateContext identity path ∅ condition) = .allow := by
  rw [Satisfied] at h
  split_ifs at h with hevaluates
  · exact evaluate_mono (plainContext_below ..) (hpositive hevaluates) h
  · exact h _ rfl rfl

/-- What a request has checked about what it returns. -/
theorem returned_discloses {request : ReadRequest}
    (hmem : (name, response) ∈ request.returned engine metadata w) (hnames : request.NamesParse w) :
    ∃ path doc, parseDocumentPath name = .ok path ∧ response = documentToProto doc ∧
      w.Discloses metadata path doc
        (request.Satisfied (w.caller path.projectId metadata) doc.fields) := by
  have hstored : ∀ {path doc}, visibleDocument path (w.documentRow path) = some doc →
      (w.document path).isSome = true := by
    intro path doc hvisible
    rw [← World.fields_visibleDocument, hvisible]
    rfl
  cases request with
  | batchGet req =>
    rw [returned] at hmem
    rcases hrun : w.run (handleBatchGetDocuments metadata req) with ⟨e | items, w'⟩
    · rw [hrun] at hmem
      cases hmem
    · rw [hrun] at hmem
      obtain ⟨⟨asked, item⟩, hitem, hsome⟩ := mem_filterMap.mp hmem
      cases item with
      | missing _ => cases hsome
      | found doc =>
        cases hsome
        exact World.handleBatchGetDocuments_discloses hrun hitem
  | list req =>
    rw [returned] at hmem
    rcases hrun : w.run (handleListDocuments engine metadata req) with ⟨e | answer, w'⟩
    · rw [hrun] at hmem
      cases hmem
    · rw [hrun] at hmem
      obtain ⟨doc', hdoc', heq⟩ := mem_map.mp hmem
      cases heq
      obtain ⟨doc, rfl, hdiscloses⟩ := World.handleListDocuments_discloses hrun hdoc'
      exact ⟨doc.path, doc, hnames _ (hstored hdiscloses.visible), rfl, hdiscloses⟩
  | runQuery req hcollection =>
    rw [returned] at hmem
    rcases hrun : w.run (handleRunQuery engine metadata req) with ⟨e | docs, w'⟩
    · rw [hrun] at hmem
      cases hmem
    · rw [hrun] at hmem
      obtain ⟨doc', hdoc', heq⟩ := mem_map.mp hmem
      cases heq
      obtain ⟨doc, rfl, hdiscloses⟩ := World.handleRunQuery_discloses hcollection hrun hdoc'
      exact ⟨doc.path, doc, hnames _ (hstored hdiscloses.visible), rfl, hdiscloses⟩

end ReadRequest

/-- A document that `BatchGetDocuments`, `ListDocuments` or a `RunQuery` on one collection
returns is returned by `GetDocument` to the same caller in the same world, where the rules
do not depend on what only `GetDocument` looks at. -/
theorem returned_by_getDocument (engine : QueryEngine) (metadata : Metadata) (w : World)
    (request : ReadRequest) {name : String} {response : DocumentResponse} {path : DocumentPath}
    (hmem : (name, response) ∈ request.returned engine metadata w)
    (hnames : request.NamesParse w) (hpath : parseDocumentPath name = .ok path)
    (hcomparable : request.Comparable metadata w path) :
    (w.run (handleGetDocument metadata ⟨name, none⟩)).1 = .ok response := by
  obtain ⟨path', doc, hpath', rfl, hdiscloses⟩ := request.returned_discloses hmem hnames
  obtain rfl := Except.ok.inj (hpath.symm.trans hpath')
  have hfields : doc.fields = stored w.document path := by
    rw [stored, ← World.fields_visibleDocument, hdiscloses.visible]
    rfl
  rw [ReadRequest.Comparable] at hcomparable
  refine congrArg Prod.fst (hdiscloses.run_handleGetDocument hpath ?_ ?_)
  · intro source condition hrule hparse hsatisfied
    rw [hrule] at hcomparable
    rw [hfields] at hsatisfied
    exact ReadRequest.satisfied_allows (fun he => hcomparable he condition hparse) hsatisfied
  · intro hrule
    rw [hrule] at hcomparable
    exact hcomparable

section Notes

/-- A project with one note and the given rules. -/
def oneNote (rules : RuleSet) : World :=
  let row : DocumentRow := .fresh ∅ ⟨0, 0⟩
  .holding { Environment.still with rules := fun _ => rules }
    ((∅ : AList Key.Row).insert (.document ⟨demo, "notes", "n"⟩) row)

/-- The note as a client gets it. -/
def theNote : DocumentResponse :=
  ⟨"projects/demo/databases/(default)/documents/notes/n", ∅, ⟨0, 0⟩, ⟨0, 0⟩⟩

/-- `BatchGetDocuments` for the note. -/
def batchGetNote : BatchGetDocumentsRequest :=
  ⟨"projects/demo/databases/(default)", [theNote.name], none⟩

/-- With an exact rule that everybody satisfies, both handlers return the note. -/
theorem returned_by_getDocument_note :
    let w := oneNote ⟨(∅ : StrMap String).insert "notes" "true", ∅, []⟩
    (theNote.name, theNote) ∈ (ReadRequest.batchGet batchGetNote).returned plainEngine anonymous w ∧
      (w.run (handleGetDocument anonymous ⟨theNote.name, none⟩)).1 = .ok theNote := by
  intro w
  have hmem : (theNote.name, theNote) ∈
      (ReadRequest.batchGet batchGetNote).returned plainEngine anonymous w :=
    mem_singleton.mpr rfl
  have hpath : parseDocumentPath theNote.name = .ok ⟨demo, "notes", "n"⟩ := rfl
  refine ⟨hmem, returned_by_getDocument plainEngine anonymous w _ hmem trivial hpath ?_⟩
  intro _ condition hparse
  obtain rfl := Except.ok.inj (show Except.ok (Condition.literal true) = .ok condition from hparse)
  rfl

/-- Behind a pattern that lets nobody read, `GetDocument` alone refuses the note. -/
theorem returned_behind_pattern :
    let w := oneNote ⟨∅, ∅, [⟨"", 0, "", none, some "false", none, true⟩]⟩
    let query : ProtoQuery := ⟨[("notes", false)], .ok none, .ok [], none, 0, none, none⟩
    let parent := "projects/demo/databases/(default)/documents"
    (w.run (handleGetDocument anonymous ⟨theNote.name, none⟩)).1 =
        .error ⟨.permissionDenied, "access denied by rule"⟩ ∧
      (w.run (handleBatchGetDocuments anonymous batchGetNote)).1 = .ok [.found theNote] ∧
      (w.run (handleListDocuments plainEngine anonymous ⟨parent, "notes", 0, ""⟩)).1 =
        .ok ⟨[theNote], ""⟩ ∧
      (w.run (handleRunQuery plainEngine anonymous ⟨parent, some query, none⟩)).1 =
        .ok [theNote] := by
  -- the sort does not compute, so the page is taken of the unsorted listing
  let page (docs : List FirestoreDocument) : Except Status ListDocumentsResponse :=
    .ok ⟨((docs.drop 0).take 100).map documentToProto,
      nextPageToken (decide (100 < (docs.drop 0).length)) 0 100⟩
  exact ⟨rfl, rfl, congrArg page (mergeSort_singleton _), rfl⟩

end Notes

end Embyr
