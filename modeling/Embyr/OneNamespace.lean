import Embyr.HandlerRuns
import Embyr.NameRoundTrip
import Embyr.ReadAgreement
import Embyr.SoftDelete

/-!
# One namespace

`CreateDocument`, `GetDocument`, `ListDocuments` and `RunQuery` each put the parent and the
collection id of a request together in their own way. `GetDocument` reads both off the name,
`ListDocuments` joins them; `CreateDocument` and `RunQuery` take the project of the parent and
drop the rest of it.

* `World.run_list_eq`, `World.run_query_eq` — what a listing and an unfiltered query answer.
* `World.run_create_eq` — the document `CreateDocument` leaves behind.
* `one_namespace_iff` — the four agree at the root of the database and nowhere else.
-/

namespace Embyr

open Program ReadCommitted World Text List

/-! ## Listings and queries as a whole -/

variable {doc : FirestoreDocument}

theorem mem_documentsWhere_iff {p : DocumentPath → Bool} {rows : AList Key.Row} :
    doc ∈ (documentsWhere p rows).filterMap asDocument ↔
      p doc.path = true ∧
        visibleDocument doc.path (rows.lookup (.document doc.path)) = some doc := by
  refine ⟨mem_documentsWhere, ?_⟩
  rintro ⟨hp, hvisible⟩
  obtain ⟨row, hrow, hdoc⟩ := Option.map_eq_some_iff.mp hvisible
  obtain ⟨hlookup, hkept⟩ := Option.filter_eq_some_iff.mp hrow
  refine mem_filterMap.mpr ⟨⟨.document doc.path, row⟩, ?_, congrArg some hdoc⟩
  exact mem_filter.mpr ⟨AList.mem_lookup_iff.mp hlookup, Bool.and_eq_true_iff.mpr ⟨hp, hkept⟩⟩

/-- A query without bounds or pages leaves nothing out. -/
def QueryEngine.Keeps (engine : QueryEngine) : Prop :=
  ∀ docs : List FirestoreDocument, docs ⊆ engine.arrange everything docs

/-- The query of a request for a whole collection. -/
def bareQuery (collectionId : String) : ProtoQuery :=
  ⟨[(collectionId, false)], .ok none, .ok [], none, 0, none, none⟩

namespace World

variable {w w' : World} {engine : QueryEngine} {project : ProjectId} {metadata : Metadata}

/-- The visible documents of a collection. -/
def inCollection (w : World) (project : ProjectId) (collectionPath : String) :
    List FirestoreDocument :=
  (documentsWhere (fun path => path.projectId = project && path.collectionPath = collectionPath)
    w.rowsSeen).filterMap asDocument

theorem mem_inCollection {collectionPath : String} :
    doc ∈ w.inCollection project collectionPath ↔
      doc.path.projectId = project ∧ doc.path.collectionPath = collectionPath ∧
        visibleDocument doc.path (w.documentRow doc.path) = some doc := by
  rw [inCollection, mem_documentsWhere_iff, Bool.and_eq_true, decide_eq_true_eq,
    decide_eq_true_eq, and_assoc]
  rfl

theorem run_runQuery_everything (w : World) (engine : QueryEngine) (project : ProjectId)
    (collectionPath : String) :
    w.run (runQuery engine ⟨project, collectionPath⟩ everything none) =
      (.ok (engine.arrange everything (w.inCollection project collectionPath)), w) := by
  refine (run_bind_of_ok (run_selectDocuments w engine _ everything)).trans ?_
  have hselect : ∀ docs : List FirestoreDocument,
      (docs.filter fun doc => QueryFilter.optionSelects engine.other everything.filter doc.fields) =
        docs := fun docs => filter_eq_self.mpr fun _ _ => rfl
  rw [hselect]
  rfl

/-- What a listing of a collection goes through before it is cut into pages. -/
def listing (w : World) (engine : QueryEngine) (project : ProjectId)
    (identity : Option AuthContext) (condition : Option Condition) (collectionPath : String) :
    List FirestoreDocument :=
  ((engine.arrange everything (w.inCollection project collectionPath)).filter
    fun doc => plainAllows identity condition doc.fields).mergeSort listedBefore

/-- The collection under a parent, as `ListDocuments` joins the two. -/
def listedUnder (pre collectionId : String) : String :=
  if pre.isEmpty then collectionId else pre ++ "/" ++ collectionId

/-- A page of a listing. -/
def page (docs : List FirestoreDocument) (offset : ℕ) (pageSize : Int32) : ListDocumentsResponse :=
  let rest := docs.drop offset
  ⟨(rest.take (pageSizeOf pageSize)).map documentToProto,
    nextPageToken (decide (pageSizeOf pageSize < rest.length)) offset (pageSizeOf pageSize)⟩

variable {response : DocumentResponse}

section Lists

variable {parent pre collectionId token : String} {pageSize : Int32}

theorem listedCollections_one (hcollection : collectionId ≠ "") :
    listedCollections project pre collectionId = .ok [listedUnder pre collectionId] := by
  simp only [listedCollections]
  rw [if_neg (by simpa using hcollection)]
  rfl

/-- `ListDocuments` on one collection answers with a page of the listing. -/
theorem run_list_eq {offset : ℕ} {condition : Option Condition}
    (hparent : parseParentPrefix parent = .ok (project, pre)) (hadmits : w.Admits project metadata)
    (hcollection : collectionId ≠ "") (htoken : decodePageToken token = .ok offset)
    (hrule : parseRule (w.env.rules project).readRules[listedUnder pre collectionId]? =
      .ok condition) :
    w.run (handleListDocuments engine metadata ⟨parent, collectionId, pageSize, token⟩) =
      (.ok (page (w.listing engine project (w.caller project metadata) condition
        (listedUnder pre collectionId)) offset pageSize), w) := by
  obtain ⟨cache, hlookup, -⟩ :=
    run_lookupCached (cacheFits_empty w project) (listedUnder pre collectionId)
  have hone : w.run (listCollection engine project (w.caller project metadata) ∅
      (listedUnder pre collectionId)) =
        (.ok ((engine.arrange everything (w.inCollection project
          (listedUnder pre collectionId))).filter
            fun doc => plainAllows (w.caller project metadata) condition doc.fields, cache), w) := by
    refine (run_bind_of_ok (run_storage_ok (run_runQuery_everything w engine project _))).trans ?_
    refine (run_bind_of_ok hlookup).trans ?_
    exact (run_bind_of_ok ((run_ofExcept _).trans (congrArg (·, w) hrule))).trans rfl
  have hloop : w.run (listLoop engine project (w.caller project metadata) ∅
      [listedUnder pre collectionId]) =
        (.ok ((engine.arrange everything (w.inCollection project
          (listedUnder pre collectionId))).filter
            fun doc => plainAllows (w.caller project metadata) condition doc.fields), w) := by
    refine (run_bind_of_ok hone).trans ?_
    exact congrArg (fun docs => (Except.ok docs, w)) (append_nil _)
  have hoffset : w.run (Prog.ofExcept ((decodePageToken token).mapError coreErrorToStatus)) =
      (.ok offset, w) := by
    rw [run_ofExcept, htoken]
    rfl
  have hcollections : w.run (listedCollections project pre collectionId) =
      (.ok [listedUnder pre collectionId], w) := by
    rw [listedCollections_one hcollection]
    rfl
  refine (run_bind_of_ok ((run_ofExcept _).trans (congrArg (·, w) hparent))).trans ?_
  refine (run_bind_of_ok hadmits).trans ?_
  refine (run_bind_of_ok (run_identify w project metadata)).trans ?_
  refine (run_bind_of_ok hoffset).trans ?_
  refine (run_bind_of_ok hcollections).trans ?_
  exact run_bind_of_ok hloop

theorem run_listCollection_under {identity : Option AuthContext} {cache cache' : RuleCache}
    {collectionPath : String} {docs : List FirestoreDocument}
    (h : w.run (listCollection engine project identity cache collectionPath) =
      (.ok (docs, cache'), w')) : docs ⊆ w.inCollection project collectionPath := by
  obtain ⟨found, w₁, hquery, h⟩ := run_bind_eq_ok h
  obtain ⟨hfound, rfl⟩ := Prod.mk.inj
    ((run_runQuery_everything w engine project collectionPath).symm.trans (run_storage_eq_ok hquery))
  cases hfound
  obtain ⟨⟨rule, cache₁⟩, w₂, -, h⟩ := run_bind_eq_ok h
  obtain ⟨condition, -, h⟩ := run_ofExcept_bind_eq_ok h
  cases h
  exact Subset.trans (filter_subset_self _) (engine.arrange_subset _ _)

/-- A list that is answered lists documents directly under its parent. -/
theorem run_list_eq_ok {answer : ListDocumentsResponse}
    (hparent : parseParentPrefix parent = .ok (project, pre)) (hcollection : collectionId ≠ "")
    (h : w.run (handleListDocuments engine metadata ⟨parent, collectionId, pageSize, token⟩) =
      (.ok answer, w'))
    (hmem : response ∈ answer.documents) :
    ∃ doc, response = documentToProto doc ∧
      doc ∈ w.inCollection project (listedUnder pre collectionId) := by
  obtain ⟨⟨project', pre'⟩, hparsed, h₁⟩ := run_ofExcept_bind_eq_ok h
  obtain ⟨rfl, rfl⟩ := Prod.mk.inj (Except.ok.inj (hparent.symm.trans hparsed))
  obtain ⟨_, w₁, hadmit, h₂⟩ := run_bind_eq_ok h₁
  obtain ⟨-, rfl⟩ := Admits.of_run hadmit
  rw [run_bind_of_ok (run_identify w₁ project metadata)] at h₂
  obtain ⟨offset, -, h₃⟩ := run_ofExcept_bind_eq_ok h₂
  rw [listedCollections_one hcollection] at h₃
  obtain ⟨collections, w₂, hcollections, h₄⟩ := run_bind_eq_ok h₃
  cases hcollections
  obtain ⟨docs, w₂, hloop, h₅⟩ := run_bind_eq_ok h₄
  cases h₅
  obtain ⟨⟨first, cache⟩, w₃, hfirst, hpure⟩ := run_bind_eq_ok hloop
  cases hpure
  obtain ⟨doc, hdoc, rfl⟩ := mem_map.mp hmem
  have hlisted := mem_mergeSort.mp (mem_of_mem_drop (mem_of_mem_take hdoc))
  rw [append_nil] at hlisted
  exact ⟨doc, rfl, run_listCollection_under hfirst hlisted⟩

end Lists

section Queries

variable {parent collectionId : String}

/-- An unfiltered `RunQuery` answers with the collection at the root, whatever its parent is. -/
theorem run_query_eq (hparent : extractProjectId parent = .ok project)
    (hadmits : w.Admits project metadata)
    (hrule : ∀ source, (w.env.rules project).readRules[collectionId]? = some source →
      checkCompliance readRuleReparse (w.caller project metadata) none source = .ok ()) :
    w.run (handleRunQuery engine metadata ⟨parent, some (bareQuery collectionId), none⟩) =
      (.ok ((engine.arrange everything (w.inCollection project collectionId)).map documentToProto),
        w) := by
  have hgate : w.run (queryGate project (w.caller project metadata) collectionId everything) =
      (.ok (), w) := by
    have hlookup : w.run (getAccessRule project collectionId) =
        (.ok (w.env.rules project).readRules[collectionId]?, w) := rfl
    refine (run_bind_of_ok hlookup).trans ?_
    rcases hstored : (w.env.rules project).readRules[collectionId]? with _ | source
    · rfl
    · exact (run_ofExcept _).trans (congrArg (·, w) (hrule source hstored))
  refine (run_bind_of_ok (run_admitName hparent hadmits)).trans ?_
  refine (run_bind_of_ok (run_identify w project metadata)).trans ?_
  refine (run_bind_of_ok hgate).trans ?_
  exact run_bind_of_ok (run_storage_ok (run_runQuery_everything w engine project collectionId))

/-- A query that is answered returns documents of that collection. -/
theorem run_query_eq_ok {transaction : Option TransactionId} {answer : List DocumentResponse}
    (hparent : extractProjectId parent = .ok project)
    (h : w.run (handleRunQuery engine metadata ⟨parent, some (bareQuery collectionId), transaction⟩) =
      (.ok answer, w'))
    (hmem : response ∈ answer) :
    ∃ doc, response = documentToProto doc ∧ doc ∈ w.inCollection project collectionId := by
  obtain ⟨project', w₁, hadmit, h₁⟩ := run_bind_eq_ok h
  obtain ⟨hname, -, rfl⟩ := run_admitName_eq_ok hadmit
  obtain rfl := Except.ok.inj (hparent.symm.trans hname)
  rw [run_bind_of_ok (run_identify w₁ project metadata)] at h₁
  obtain ⟨query, htranslate, h₂⟩ := run_ofExcept_bind_eq_ok h₁
  obtain rfl : everything = query := Except.ok.inj htranslate
  obtain ⟨_, w₂, hgate, h₃⟩ := run_bind_eq_ok h₂
  obtain ⟨rfl, -⟩ := run_collectionGate_eq_ok hgate
  obtain ⟨_, w₃, hindex, h₄⟩ := run_bind_eq_ok h₃
  obtain rfl := run_checkIndex_state hindex
  obtain ⟨docs, w₄, hdocs, h₅⟩ := run_bind_eq_ok h₄
  cases h₅
  obtain ⟨doc, hdoc, rfl⟩ := mem_map.mp hmem
  obtain ⟨hcovers, -, hvisible⟩ := run_runQuery_eq_ok (run_storage_eq_ok hdocs) hdoc
  obtain ⟨hproject, hcollection⟩ := Bool.and_eq_true_iff.mp hcovers
  exact ⟨doc, rfl, mem_inCollection.mpr
    ⟨of_decide_eq_true hproject, of_decide_eq_true hcollection, hvisible⟩⟩

end Queries

/-- `GetDocument` returns the document under the path that it reads off the name. -/
theorem run_get_eq_ok {name : String} {path : DocumentPath} {transaction : Option TransactionId}
    (hpath : parseDocumentPath name = .ok path)
    (h : w.run (handleGetDocument metadata ⟨name, transaction⟩) = (.ok response, w')) :
    ∃ doc, response = documentToProto doc ∧ doc.path = path := by
  obtain ⟨project, w₁, hadmit, h₁⟩ := run_bind_eq_ok h
  obtain ⟨-, -, rfl⟩ := run_admitName_eq_ok hadmit
  rw [run_bind_of_ok (run_identify w₁ project metadata)] at h₁
  obtain ⟨path', hparsed, h₂⟩ := run_ofExcept_bind_eq_ok h₁
  obtain rfl := Except.ok.inj (hpath.symm.trans hparsed)
  obtain ⟨rule, w₂, -, h₃⟩ := run_bind_eq_ok h₂
  obtain ⟨doc, w₃, hdoc, h₄⟩ := run_bind_eq_ok h₃
  obtain ⟨rfl, -⟩ := run_getDocument_eq_ok hdoc
  obtain ⟨_, w₄, -, h₅⟩ := run_bind_eq_ok h₄
  obtain ⟨hfound, -⟩ := Prod.mk.inj ((run_ofExcept _).symm.trans h₅)
  rcases hvisible : visibleDocument path (w₂.documentRow path) with _ | doc
  · rw [hvisible] at hfound
    cases hfound
  · rw [hvisible] at hfound
    obtain ⟨row, -, rfl⟩ := Option.map_eq_some_iff.mp hvisible
    exact ⟨_, (Except.ok.inj hfound).symm, rfl⟩

section Creating

variable {parent collectionId documentId : String} {document : Option (Option Fields)}

/-- `create_document` leaves the document it reports, and touches nothing else. -/
theorem run_createDocument_eq_ok {path : DocumentPath} {fields : Fields} {result : WriteResult}
    (h : w.run (createDocument path fields) = (.ok result, w')) :
    ∃ row doc, visibleDocument path (some row) = some doc ∧
      w'.documentRow = Function.update w.documentRow path (some row) ∧
      writeResponse path fields result = documentToProto doc := by
  obtain ⟨row, w₁, hinsert, h⟩ := run_bind_eq_ok h
  rcases run_insertDocument w path fields with ⟨hnone, -⟩ | ⟨-, hfails⟩
  · obtain ⟨hrow, rfl⟩ := Prod.mk.inj ((run_insertDocument_none hnone fields).symm.trans hinsert)
    cases hrow
    obtain ⟨hresult, rfl⟩ := Prod.mk.inj h
    cases hresult
    have hfresh : w.written path fields = DocumentRow.fresh fields w.env.databaseClock.stored := by
      rw [written, hnone]
      rfl
    have hrows : (w.put (.document path) (w.written path fields)).documentRow =
        Function.update w.documentRow path (some (w.written path fields)) := documentRow_put
    rw [hfresh] at hrows ⊢
    exact ⟨_, DocumentRow.toDocument path (DocumentRow.fresh fields w.env.databaseClock.stored), rfl,
      hrows, rfl⟩
  · exact absurd (congrArg Prod.fst hinsert) (hfails.not_ok row)

/-- `CreateDocument` leaves the document in the collection at the root, whatever its parent is. -/
theorem run_create_eq_ok (hid : documentId ≠ "") (hparent : extractProjectId parent = .ok project)
    (h : w.run (handleCreateDocument metadata ⟨parent, collectionId, documentId, document⟩) =
      (.ok response, w')) :
    ∃ row doc, visibleDocument ⟨project, collectionId, documentId⟩ (some row) = some doc ∧
      w'.documentRow = Function.update w.documentRow ⟨project, collectionId, documentId⟩ (some row) ∧
      response = documentToProto doc := by
  obtain ⟨project', id, fields, result, drawn, hname, hdocumentId, hcreate, -, rfl⟩ :=
    run_handleCreateDocument_eq_ok h
  obtain rfl := Except.ok.inj (hparent.symm.trans hname)
  rw [if_neg (by simpa using hid)] at hdocumentId
  obtain rfl : documentId = id := hdocumentId.symm
  have hrows : ({ w with drawn := drawn } : World).documentRow = w.documentRow := rfl
  obtain ⟨row, doc, hvisible, hrow, hresponse⟩ := run_createDocument_eq_ok hcreate
  rw [hrows] at hrow
  exact ⟨row, doc, hvisible, hrow, hresponse⟩

/-- An empty database in which everybody may write to one collection. -/
def writable (collectionId : String) : World :=
  .holding { Environment.still with
    rules := fun _ => ⟨∅, (∅ : StrMap String).insert collectionId "true", []⟩ } ∅

theorem run_create_writable (hid : documentId ≠ "") (hparent : extractProjectId parent = .ok project) :
    ∃ response w', (writable collectionId).run
      (handleCreateDocument anonymous ⟨parent, collectionId, documentId, none⟩) =
        (.ok response, w') := by
  set w := writable collectionId
  have hadmits : w.Admits project anonymous := rfl
  have hgate : w.run (createGate ⟨project, collectionId, documentId⟩ none ∅) = (.ok (), w) := by
    refine Prod.ext (run_singleGate_iff.mpr ?_) (run_still (singleGate_still _) w)
    have hrule : (w.env.rules project).writeRules[collectionId]? = some "true" := by
      simp [w, writable, holding]
    simp only [hrule]
    exact ⟨.literal true, rfl, rfl⟩
  have hcreate : ∃ result w', w.run (createDocument ⟨project, collectionId, documentId⟩ ∅) =
      (.ok result, w') := by
    rcases run_createDocument w ⟨project, collectionId, documentId⟩ ∅ with
      ⟨-, r, w', hrun, -⟩ | ⟨hrow, -⟩
    · exact ⟨r, w', hrun⟩
    · exact absurd rfl hrow
  obtain ⟨result, w', hcreate⟩ := hcreate
  refine ⟨writeResponse ⟨project, collectionId, documentId⟩ ∅ result, w',
    (run_bind_of_ok (run_admitName hparent hadmits)).trans ?_⟩
  dsimp only
  rw [if_neg (by simpa using hid)]
  refine (run_bind_of_ok hgate).trans ?_
  exact run_bind_of_ok (run_storage_ok hcreate)

end Creating

/-- Everybody is admitted where the doors are those of `writable`. -/
theorem admits_of_env {collectionId : String} (henv : w.env = (writable collectionId).env) :
    w.Admits project anonymous := by
  obtain ⟨env, rows, txn, drawn, notified⟩ := w
  obtain rfl : env = (writable collectionId).env := henv
  rfl

end World

/-! ## The namespace -/

section Namespace

variable (engine : QueryEngine) (project : ProjectId) (segments : List String)
  (collectionId documentId : String)

/-- The path of a collection under a document, or under the root. -/
def childCollection : String := Text.join '/' (segments ++ [collectionId])

/-- What readers of a world are told about a document under a parent: `GetDocument` returns it
to those the rules let read it, it is on a page of `ListDocuments` for those the list shows it,
and `RunQuery` returns it to those it answers. -/
structure World.Shows (w : World) (response : DocumentResponse) (metadata : Metadata) : Prop where
  got : w.ReadPasses (w.caller project metadata)
      ⟨project, childCollection segments collectionId, documentId⟩ →
    (w.run (handleGetDocument metadata
      ⟨documentName ⟨project, childCollection segments collectionId, documentId⟩, none⟩)).1 =
        .ok response
  listed : ∀ condition, parseRule
      (w.env.rules project).readRules[childCollection segments collectionId]? = .ok condition →
    plainAllows (w.caller project metadata) condition response.fields = true →
    ∃ docs : List FirestoreDocument, response ∈ docs.map documentToProto ∧
      ∀ pageSize token offset, decodePageToken token = .ok offset →
        (w.run (handleListDocuments engine metadata
          ⟨parentName project (Text.join '/' segments), collectionId, pageSize, token⟩)).1 =
            .ok (World.page docs offset pageSize)
  queried : (∀ source,
      (w.env.rules project).readRules[childCollection segments collectionId]? = some source →
        checkCompliance readRuleReparse (w.caller project metadata) none source = .ok ()) →
    ∃ responses, (w.run (handleRunQuery engine metadata
      ⟨parentName project (Text.join '/' segments), some (bareQuery collectionId), none⟩)).1 =
        .ok responses ∧ response ∈ responses

/-- The document is directly under the parent. -/
def DirectlyUnder (response : DocumentResponse) : Prop :=
  ∃ doc, response = documentToProto doc ∧ doc.path.projectId = project ∧
    doc.path.collectionPath = childCollection segments collectionId

/-- The four handlers speak of the same documents. -/
structure OneNamespace : Prop where
  created : ∀ (w : World) {w' : World} {creator : Metadata} {document : Option (Option Fields)}
      {response : DocumentResponse},
    w.run (handleCreateDocument creator
      ⟨parentName project (Text.join '/' segments), collectionId, documentId, document⟩) =
        (.ok response, w') →
    response.name =
        documentName ⟨project, childCollection segments collectionId, documentId⟩ ∧
      ∀ metadata, w'.Admits project metadata →
        w'.Shows engine project segments collectionId documentId response metadata
  got : ∀ (w : World) {w' : World} {metadata : Metadata} {transaction : Option TransactionId}
      {response : DocumentResponse},
    w.run (handleGetDocument metadata
      ⟨documentName ⟨project, childCollection segments collectionId, documentId⟩, transaction⟩) =
        (.ok response, w') →
    DirectlyUnder project segments collectionId response
  listed : ∀ (w : World) {w' : World} {metadata : Metadata} {pageSize : Int32} {token : String}
      {answer : ListDocumentsResponse},
    w.run (handleListDocuments engine metadata
      ⟨parentName project (Text.join '/' segments), collectionId, pageSize, token⟩) =
        (.ok answer, w') →
    ∀ response ∈ answer.documents, DirectlyUnder project segments collectionId response
  queried : ∀ (w : World) {w' : World} {metadata : Metadata} {transaction : Option TransactionId}
      {responses : List DocumentResponse},
    w.run (handleRunQuery engine metadata
      ⟨parentName project (Text.join '/' segments), some (bareQuery collectionId), transaction⟩) =
        (.ok responses, w') →
    ∀ response ∈ responses, DirectlyUnder project segments collectionId response

end Namespace

section Main

variable {engine : QueryEngine} {project : ProjectId} {segments : List String}
  {collectionId documentId : String}

/-- A document of a collection at the root is shown to every reader. -/
theorem shows_root {w : World} {metadata : Metadata} (hkeeps : engine.Keeps)
    (hcollection : collectionId ≠ "")
    (hpath : parseDocumentPath (documentName ⟨project, collectionId, documentId⟩) =
      .ok ⟨project, collectionId, documentId⟩)
    (hparent : parseParentPrefix (parentName project (join '/' [])) = .ok (project, ""))
    (hadmits : w.Admits project metadata)
    (hvisible : visibleDocument ⟨project, collectionId, documentId⟩
      (w.documentRow ⟨project, collectionId, documentId⟩) = some doc) :
    w.Shows engine project [] collectionId documentId (documentToProto doc) metadata := by
  have hchild : childCollection [] collectionId = collectionId := join_singleton '/' _
  have hmem : doc ∈ engine.arrange everything (w.inCollection project collectionId) := by
    apply hkeeps
    obtain ⟨row, -, hdoc⟩ := Option.map_eq_some_iff.mp hvisible
    have hdocPath : doc.path = ⟨project, collectionId, documentId⟩ := by rw [← hdoc]; rfl
    rw [mem_inCollection, hdocPath]
    exact ⟨rfl, rfl, hvisible⟩
  constructor
  · rw [hchild]
    intro hpasses
    exact congrArg Prod.fst (run_handleGetDocument hpath hadmits hvisible hpasses)
  · rw [hchild]
    intro condition hrule hallows
    refine ⟨w.listing engine project (w.caller project metadata) condition collectionId, ?_, ?_⟩
    · exact mem_map_of_mem (mem_mergeSort.mpr (mem_filter.mpr ⟨hmem, hallows⟩))
    · intro pageSize token offset htoken
      exact congrArg Prod.fst (run_list_eq hparent hadmits hcollection htoken hrule)
  · rw [hchild]
    intro hrule
    have hextract := extractProjectId_parentName project (join '/' [])
    exact ⟨_, congrArg Prod.fst (run_query_eq hextract hadmits hrule),
      mem_map_of_mem hmem⟩

/-- At the root every handler finds the same collection. -/
theorem one_namespace_root (hkeeps : engine.Keeps) (hcollection : Segment collectionId)
    (hid : Segment documentId) (hproject : ¬ "documents".toList <+: project.value.toList) :
    OneNamespace engine project [] collectionId documentId := by
  have hchild : childCollection [] collectionId = collectionId := join_singleton '/' _
  have hextract := extractProjectId_parentName project (join '/' [])
  have hparent : parseParentPrefix (parentName project (join '/' [])) = .ok (project, "") :=
    (parseParentPrefix_parentName_iff (by simp)).mpr hproject
  have hunder : listedUnder "" collectionId = collectionId := rfl
  have hpath : parseDocumentPath (documentName ⟨project, collectionId, documentId⟩) =
      .ok ⟨project, collectionId, documentId⟩ := by
    have hone : ∀ c ∈ [collectionId], Segment c := by simpa using hcollection
    have hreads : NameReads project [collectionId] documentId := by
      refine .inl ⟨fun heq => hproject ?_, by simp⟩
      rw [heq]
    have hback := (parseDocumentPath_documentName_iff (by simp) hone hid).mpr hreads
    rwa [join_singleton] at hback
  constructor
  · intro w w' creator document response h
    obtain ⟨row, doc, hvisible, hrows, rfl⟩ := run_create_eq_ok hid.1 hextract h
    have hdoc : visibleDocument ⟨project, collectionId, documentId⟩
        (w'.documentRow ⟨project, collectionId, documentId⟩) = some doc := by
      rw [hrows, Function.update_self]
      exact hvisible
    refine ⟨?_, fun metadata hadmits =>
      shows_root hkeeps hcollection.1 hpath hparent hadmits hdoc⟩
    obtain ⟨_, -, rfl⟩ := Option.map_eq_some_iff.mp hvisible
    rw [hchild]
    rfl
  · intro w w' metadata transaction response h
    rw [hchild] at h
    obtain ⟨doc, rfl, hdoc⟩ := run_get_eq_ok hpath h
    refine ⟨doc, rfl, ?_, ?_⟩
    · rw [hdoc]
    · rw [hdoc, hchild]
  · intro w w' metadata pageSize token answer h response hmem
    obtain ⟨doc, rfl, hdoc⟩ := run_list_eq_ok hparent hcollection.1 h hmem
    obtain ⟨hdocProject, hdocCollection, -⟩ := mem_inCollection.mp hdoc
    exact ⟨doc, rfl, hdocProject, hdocCollection.trans (hunder.trans hchild.symm)⟩
  · intro w w' metadata transaction responses h response hmem
    obtain ⟨doc, rfl, hdoc⟩ := run_query_eq_ok hextract h hmem
    obtain ⟨hdocProject, hdocCollection, -⟩ := mem_inCollection.mp hdoc
    exact ⟨doc, rfl, hdocProject, hdocCollection.trans hchild.symm⟩

/-- Elsewhere a list goes through another collection than the one `CreateDocument` writes to. -/
theorem root_of_one_namespace (hsegments : ∀ c ∈ segments, Segment c)
    (hcollection : Segment collectionId) (hid : Segment documentId)
    (h : OneNamespace engine project segments collectionId documentId) :
    segments = [] ∧ ¬ "documents".toList <+: project.value.toList := by
  obtain ⟨pre, hparent, hroot⟩ := @parseParentPrefix_parentName project segments hsegments
  refine hroot.mp ?_
  by_contra hpre
  have hextract := extractProjectId_parentName project (join '/' segments)
  obtain ⟨response, w', hcreate⟩ := run_create_writable hid.1 hextract
  obtain ⟨-, hshows⟩ := h.created _ hcreate
  obtain ⟨row, doc, -, hrows, -⟩ := run_create_eq_ok hid.1 hextract hcreate
  have henv : w'.env = (writable collectionId).env := by
    have hrun := run_env (handleCreateDocument anonymous
      ⟨parentName project (join '/' segments), collectionId, documentId, none⟩)
      (writable collectionId)
    rwa [hcreate] at hrun
  obtain ⟨docs, hmem, hpages⟩ := (hshows anonymous (admits_of_env henv)).listed none
    (by rw [henv]; rfl) rfl
  have hfirst := hpages 0 "" 0 rfl
  rcases hrun : w'.run (handleListDocuments engine anonymous
    ⟨parentName project (join '/' segments), collectionId, 0, ""⟩) with ⟨answer, w''⟩
  rw [hrun] at hfirst
  obtain rfl : answer = .ok (page docs 0 0) := hfirst
  -- the only document is not where the list looks for it, so its first page is empty
  have hpage : ∀ listed, listed ∉ (page docs 0 0).documents := by
    intro listed hlisted
    obtain ⟨doc', -, hdoc'⟩ := run_list_eq_ok hparent hcollection.1 hrun hlisted
    obtain ⟨-, hunder, hvisible⟩ := mem_inCollection.mp hdoc'
    by_cases hpath : doc'.path = ⟨project, collectionId, documentId⟩
    · rw [hpath, listedUnder, if_neg (by simpa using hpre)] at hunder
      have hlen := congrArg (fun text : String => text.toList.length) hunder
      simp only [String.toList_append, length_append] at hlen
      have hslash : "/".toList.length = 1 := rfl
      omega
    · rw [hrows, Function.update_of_ne hpath] at hvisible
      cases hvisible
  have hdocs : docs = [] := by
    rcases docs with _ | ⟨first, rest⟩
    · rfl
    · exact absurd mem_cons_self (hpage (documentToProto first))
  rw [hdocs] at hmem
  cases hmem

/-- `CreateDocument`, `GetDocument`, `ListDocuments` and `RunQuery` speak of the same documents
exactly at the root of the database, in projects whose identifier does not start with
`documents`. -/
theorem one_namespace_iff (hkeeps : engine.Keeps) (hsegments : ∀ c ∈ segments, Segment c)
    (hcollection : Segment collectionId) (hid : Segment documentId) :
    OneNamespace engine project segments collectionId documentId ↔
      segments = [] ∧ ¬ "documents".toList <+: project.value.toList := by
  constructor
  · exact root_of_one_namespace hsegments hcollection hid
  · rintro ⟨rfl, hproject⟩
    exact one_namespace_root hkeeps hcollection hid hproject

end Main

/-! ## Namespaces written out -/

/-- Notes at the root. -/
theorem one_namespace_notes : OneNamespace plainEngine demo [] "notes" "n" := by
  have hkeeps : plainEngine.Keeps := fun docs => Subset.refl docs
  have hnotes : Segment "notes" := ⟨by decide, by decide⟩
  have hn : Segment "n" := ⟨by decide, by decide⟩
  exact (one_namespace_iff hkeeps (by simp) hnotes hn).mpr ⟨rfl, by decide⟩

/-- A post created under a user is stored at the root. It is neither found nor listed under the
user, but a query under any parent returns it. -/
theorem post_created_elsewhere :
    let user := "projects/demo/databases/(default)/documents/users/u"
    let root := "projects/demo/databases/(default)/documents"
    let post : DocumentResponse := ⟨root ++ "/posts/p", ∅, ⟨0, 0⟩, ⟨0, 0⟩⟩
    let created := (World.holding .still ∅).run
      (handleCreateDocument anonymous ⟨user, "posts", "p", none⟩)
    created.1 = .ok post ∧
      (created.2.run (handleGetDocument anonymous ⟨user ++ "/posts/p", none⟩)).1 =
        .error ⟨.notFound, user ++ "/posts/p not found"⟩ ∧
      (created.2.run (handleListDocuments plainEngine anonymous ⟨user, "posts", 0, ""⟩)).1 =
        .ok ⟨[], ""⟩ ∧
      (created.2.run (handleRunQuery plainEngine anonymous
        ⟨user ++ "/comments/c", some (bareQuery "posts"), none⟩)).1 = .ok [post] := by
  -- the sort does not compute, so the page is taken of the unsorted listing
  let page (docs : List FirestoreDocument) : Except Status ListDocumentsResponse :=
    .ok (page docs 0 0)
  exact ⟨rfl, rfl, congrArg page mergeSort_nil, rfl⟩

end Embyr
