import Embyr.ListenRuns
import Embyr.OneNamespace

/-!
# Filters and live events

The snapshot of a target is a query with the target's filter. The loop that follows looks at the
collection path of an event and at the rule, not at the filter, so a document that the filter
does not select is sent like any other, and nothing tells the client that it has left.

* `World.event_changed` — the document of an event.
* `ListenSession.Respects` — what the client is sent agrees with its filter.
* `live_events_respect_filter_iff` — for which targets, under which rules.
-/

namespace Embyr

open Program ReadCommitted World QueryFilter Text List

/-! ## Targets -/

theorem projectIdFromParent_parentName (project : ProjectId) (pre : String) :
    projectIdFromParent (parentName project pre) = .ok project.value := by
  rw [parentName_eq]
  obtain ⟨parts, hparts⟩ := splitn_five_eq (show '/' ∉ "projects".toList by decide)
    project.slash_not_mem ("databases" ++ "/" ++ ("(default)" ++ "/" ++ ("documents" ++
      if pre.isEmpty then "" else "/" ++ pre)))
  rw [projectIdFromParent, hparts]
  simp only [project.isEmpty_value, Bool.false_eq_true, if_false]

variable {project : ProjectId}

/-- A target on a collection below a document, or below the root. -/
theorem resolve_query {pre collectionId : String} {group : Bool} {more : List (String × Bool)}
    {filter : Option QueryFilter} {query : ProtoQuery}
    (hselectors : query.selectors = (collectionId, group) :: more)
    (hfilter : query.filter = .ok filter) :
    (ListenTarget.query (parentName project pre) (some query)).resolve =
      .ok (⟨project, collectionId⟩, filter) := by
  rw [ListenTarget.resolve, hselectors]
  simp only [projectIdFromParent_parentName, hfilter, ProjectId.new_value, bind, Except.bind,
    Except.mapError, pure, Except.pure]

/-- Without bounds or pages a query returns what it selects, or what has changed of it since a
time. -/
def QueryEngine.ComparesTimes (engine : QueryEngine) : Prop :=
  ∀ filter since docs doc,
    doc ∈ engine.arrange ⟨false, filter, [], none, none, none, none, since⟩ docs ↔
      doc ∈ docs ∧ ∀ t : Timestamp, since = some t → t.toNanos < doc.updateTime.toNanos

variable {collection : CollectionPath} {doc : FirestoreDocument}

namespace World

variable {w : World} {engine : QueryEngine}

theorem mem_snapshot_of {filter : Option QueryFilter} {since : Option Timestamp}
    (h : doc ∈ w.snapshot engine collection filter since) :
    doc ∈ w.inCollection collection.projectId collection.collectionPath ∧
      optionSelects engine.other filter doc.fields = true :=
  mem_filter.mp (engine.arrange_subset _ _ h)

theorem mem_snapshot (htimes : engine.ComparesTimes) {filter : Option QueryFilter}
    {since : Option Timestamp} :
    doc ∈ w.snapshot engine collection filter since ↔
      (doc ∈ w.inCollection collection.projectId collection.collectionPath ∧
        optionSelects engine.other filter doc.fields = true) ∧
      ∀ t : Timestamp, since = some t → t.toNanos < doc.updateTime.toNanos := by
  rw [snapshot, htimes, mem_filter]
  rfl

/-- The document of a change is the visible one, in the project of the listener and under an
identifier without `/`. -/
theorem event_changed {payload : String} (h : w.event project payload = .changed doc) :
    doc.path.projectId = project ∧ '/' ∉ doc.path.documentId.toList ∧
      visibleDocument doc.path (w.documentRow doc.path) = some doc := by
  rcases hsplit : rsplitOnce '/' payload with _ | ⟨collectionPath, documentId⟩
  · rw [event, hsplit] at h
    cases h
  · rw [event_of_split hsplit] at h
    rcases hrow : w.documentRow ⟨project, collectionPath, documentId⟩ with _ | row
    · rw [hrow] at h
      cases h
    · rw [hrow] at h
      simp only [rowEvent] at h
      split_ifs at h with hdeleted
      cases h
      refine ⟨rfl, not_mem_of_rsplitOnce hsplit, ?_⟩
      have hvisible : row.visible = true := by simp [DocumentRow.visible, hdeleted]
      rw [show (row.toDocument ⟨project, collectionPath, documentId⟩).path =
        ⟨project, collectionPath, documentId⟩ from rfl, hrow, visibleDocument, Option.filter_some,
        if_pos hvisible]
      rfl

/-- The document has been written and the write announced. -/
def announced (w : World) (path : DocumentPath) (fields : Fields) : World :=
  { w.put (.document path) (w.written path fields) with
    notified := (path.projectId, readKey path) :: w.notified }

theorem apply_create {path : DocumentPath} (hrow : w.documentRow path = none) (fields : Fields) :
    ClientWrite.apply w (.create path fields) = w.announced path fields := by
  have hcreate := run_insertDocument_none hrow fields
  rw [ClientWrite.apply, createDocument, run_bind_of_ok hcreate]
  rfl

theorem apply_update (path : DocumentPath) (fields : Fields) :
    ClientWrite.apply w (.update path fields none) = w.announced path fields := rfl

/-- What has been announced is fetched as a change. -/
theorem event_announced {path : DocumentPath} (hid : '/' ∉ path.documentId.toList)
    (fields : Fields) :
    ∃ doc, (w.announced path fields).event path.projectId (readKey path) = .changed doc ∧
      doc.path = path ∧ doc.fields = fields := by
  have hsplit : rsplitOnce '/' (readKey path) = some (path.collectionPath, path.documentId) :=
    rsplitOnce_append hid
  have hrow : (w.announced path fields).documentRow path = some (w.written path fields) :=
    documentRow_put_self
  rw [event_of_split hsplit]
  have hevent : ∃ doc, rowEvent path (some (w.written path fields)) = .changed doc ∧
      doc.path = path ∧ doc.fields = fields := by
    rw [written]
    rcases w.documentRow path with _ | row <;> exact ⟨_, rfl, rfl, rfl⟩
  exact hrow ▸ hevent

theorem notifies_announced {path : DocumentPath} {fields : Fields} {write : ClientWrite}
    (happly : write.apply w = w.announced path fields) :
    w.Notifies (w.announced path fields) path.projectId (readKey path) := by
  refine ⟨Relation.ReflTransGen.single ?_, [_], rfl, mem_singleton.mpr rfl⟩
  rw [← happly]
  exact .write write

end World

/-! ## Sessions that respect their filter -/

/-- Whether the client shows a document after these messages. -/
def shown (name : String) (messages : List ListenMessage) : Bool :=
  messages.foldl (fun shown message =>
    match message with
    | .documentChange document _ => shown || decide (document.name = name)
    | .documentDelete document _ => shown && !decide (document = name)
    | .reset _ => false
    | .current _ | .noChange _ => shown) false

/-- What is shown has been sent. -/
theorem sent_of_shown {name : String} {messages : List ListenMessage}
    (h : shown name messages = true) :
    ∃ document ids, .documentChange document ids ∈ messages ∧ document.name = name := by
  induction messages using reverseRecOn with
  | nil => cases h
  | append_singleton messages message ih =>
    rw [shown, foldl_append, ← shown] at h
    have hearlier : shown name messages = true →
        ∃ document ids, .documentChange document ids ∈ messages ++ [message] ∧
          document.name = name := by
      intro hshown
      obtain ⟨document, ids, hmem, hname⟩ := ih hshown
      exact ⟨document, ids, mem_append_left _ hmem, hname⟩
    cases message with
    | documentChange document ids =>
      rcases Bool.or_eq_true_iff.mp h with hshown | hname
      · exact hearlier hshown
      · exact ⟨document, ids, mem_append_right _ (mem_singleton.mpr rfl),
          of_decide_eq_true hname⟩
    | documentDelete document ids => exact hearlier (Bool.and_eq_true_iff.mp h).1
    | current ids => exact hearlier h
    | noChange token => exact hearlier h
    | reset ids => cases h

section Respects

variable (engine : QueryEngine) (stream project : ProjectId) (segments : List String)
  (collectionId : String) (filter : Option QueryFilter) (identity : Option AuthContext)

/-- A document that is sent is in the collection and selected. -/
def Fits (message : ListenMessage) : Prop :=
  ∀ document ids, message = .documentChange document ids →
    DirectlyUnder project segments collectionId document ∧
      QueryFilter.optionSelects engine.other filter document.fields = true

variable {engine stream identity} in
/-- The client is sent documents that fit, and of a document that it shows it is told when a
change makes the document leave. -/
structure ListenSession.Respects {target : ListenTarget}
    (s : ListenSession engine stream identity target) : Prop where
  sent : ∀ message ∈ s.first ++ s.live, Fits engine project segments collectionId filter message
  left : ∀ v payload doc, s.opened.Notifies v stream payload →
    v.event stream payload = .changed doc →
    shown (documentName doc.path) (s.first ++ s.live) = true →
    QueryFilter.optionSelects engine.other filter doc.fields = false →
    (s.opened.run (s.sub.liveMessage (.changed doc))).1 =
      .ok (some (.documentDelete (documentName doc.path) [s.targetId]))

/-- Where the loop needs no filter. If the target is admitted, then what the rule passes is in the
collection and selected; a snapshot is of the right collection; and no document can leave. -/
def FilterUnneeded (rules : ProjectId → RuleSet) : Prop :=
  ∀ rule, (rules project).listenRule identity collectionId filter = .ok rule →
    (∀ documentId fields, '/' ∉ documentId.toList →
      Subscription.LiveAllows ⟨0, ⟨project, collectionId⟩, identity, rule⟩ (rules project)
        ⟨stream, collectionId, documentId⟩ fields →
      stream = project ∧ segments = [] ∧
        QueryFilter.optionSelects engine.other filter fields = true) ∧
    (segments = [] ∨ ∀ fields, QueryFilter.optionSelects engine.other filter fields = false) ∧
    (stream = project → (∀ fields, QueryFilter.optionSelects engine.other filter fields = true) ∨
      ∀ fields, QueryFilter.optionSelects engine.other filter fields = false)

end Respects

/-! ## Where the filter is not needed -/

theorem documentName_projectId {path path' : DocumentPath}
    (h : documentName path = documentName path') : path.projectId = path'.projectId := by
  have hextract := extractProjectId_projects path.projectId
  have hextract' := extractProjectId_projects path'.projectId
  rw [documentName_eq, documentName_eq] at h
  exact Except.ok.inj ((hextract _).symm.trans ((congrArg extractProjectId h).trans (hextract' _)))

/-- The parts of a document's name. -/
theorem split_documentName (path : DocumentPath) :
    split '/' (documentName path) = ["projects", path.projectId.value, "databases",
      "(default)", "documents"] ++ (split '/' path.collectionPath ++
        split '/' path.documentId) := by
  have hprojects : '/' ∉ "projects".toList := by decide
  have hdatabases : '/' ∉ "databases".toList := by decide
  have hdefault : '/' ∉ "(default)".toList := by decide
  have hdocuments : '/' ∉ "documents".toList := by decide
  simp only [documentName_eq, split_append, split_of_not_mem hprojects,
    split_of_not_mem path.projectId.slash_not_mem, split_of_not_mem hdatabases,
    split_of_not_mem hdefault, split_of_not_mem hdocuments, cons_append,
    nil_append]

/-- A document of a collection at the root is directly under no document. -/
theorem root_of_directlyUnder {segments : List String} {collectionId : String}
    (hsegments : ∀ c ∈ segments, Segment c) (hcollection : Segment collectionId)
    (hpath : doc.path.collectionPath = collectionId) (hid : '/' ∉ doc.path.documentId.toList)
    (h : DirectlyUnder project segments collectionId (documentToProto doc)) :
    doc.path.projectId = project ∧ segments = [] := by
  obtain ⟨doc', hproto, hproject, hchild⟩ := h
  have hname : documentName doc.path = documentName doc'.path :=
    congrArg DocumentResponse.name hproto
  refine ⟨(documentName_projectId hname).trans hproject, ?_⟩
  -- the two names have the same number of parts
  have hparts := congrArg (fun name => (split '/' name).length) hname
  have hsplit : split '/' (childCollection segments collectionId) =
      segments ++ [collectionId] := by
    refine split_join (by simp) fun c hc => ?_
    rcases mem_append.mp hc with hc | hc
    · exact (hsegments c hc).2
    · rw [mem_singleton.mp hc]
      exact hcollection.2
  have hrest := length_pos_iff.mpr (split_ne_nil '/' doc'.path.documentId)
  simp only [split_documentName, hpath, hchild, hsplit, split_of_not_mem hcollection.2,
    split_of_not_mem hid, length_append, length_cons, length_nil] at hparts
  exact eq_nil_of_length_eq_zero (by omega)

section Sessions

variable {engine : QueryEngine} {stream project : ProjectId} {segments : List String}
  {collectionId : String} {filter : Option QueryFilter} {identity : Option AuthContext}
  {target : ListenTarget} {document : DocumentResponse} {ids : List Int32}
  (s : ListenSession engine stream identity target)
  (htarget : target.resolve = .ok (⟨project, collectionId⟩, filter))

include htarget

theorem mem_first (hmem : .documentChange document ids ∈ s.first) :
    ∃ doc, document = documentToProto doc ∧
      doc ∈ s.opened.inCollection project collectionId ∧
      optionSelects engine.other filter doc.fields = true := by
  obtain ⟨-, -, hfirst⟩ := s.opening_eq htarget
  rw [hfirst, opening] at hmem
  rcases mem_append.mp hmem with hmem | hmem
  · obtain ⟨doc, hdoc, hmessage⟩ := mem_map.mp hmem
    cases hmessage
    obtain ⟨hcollection, hselected⟩ := mem_snapshot_of hdoc
    exact ⟨doc, rfl, hcollection, hselected⟩
  · simp at hmem

theorem changed_of_mem_live (hmem : .documentChange document ids ∈ s.live) :
    ∃ doc, document = documentToProto doc ∧ doc.path.projectId = stream ∧
      doc.path.collectionPath = collectionId ∧ '/' ∉ doc.path.documentId.toList ∧
      Subscription.LiveAllows ⟨0, ⟨project, collectionId⟩, identity, s.sub.rule⟩
        (s.opened.env.rules project) doc.path doc.fields := by
  obtain ⟨-, hsub, -⟩ := s.opening_eq htarget
  rcases s.mem_live hmem with ⟨v, payload, -, hmessage, hallows⟩ | ⟨token, hmessage⟩ | hmessage
  · rcases hevent : v.event stream payload with doc | ⟨path, fields⟩
    · rw [hevent] at hmessage hallows
      cases hmessage
      obtain ⟨hproject, hid, -⟩ := event_changed hevent
      rw [hsub] at hallows
      exact ⟨doc, rfl, hproject, hallows.1, hid, hallows⟩
    · rw [hevent] at hmessage
      cases hmessage
  · cases hmessage
  · cases hmessage

/-- Where the loop needs no filter, every session respects it. -/
theorem ListenSession.respects_of_filterUnneeded
    (h : FilterUnneeded engine stream project segments collectionId filter identity
      s.opened.env.rules) :
    s.Respects project segments collectionId filter := by
  obtain ⟨hrule, -, -⟩ := s.opening_eq htarget
  obtain ⟨hlive, hsnapshot, hleaving⟩ := h s.sub.rule hrule
  -- whatever is sent live is in the target's collection and selected
  have hliveChange : ∀ {document ids}, .documentChange document ids ∈ s.live →
      ∃ doc, document = documentToProto doc ∧ doc.path.projectId = project ∧
        doc.path.collectionPath = collectionId ∧ stream = project ∧ segments = [] ∧
        optionSelects engine.other filter doc.fields = true := by
    intro document ids hmem
    obtain ⟨doc, rfl, hproject, hcollection, hid, hallows⟩ := changed_of_mem_live s htarget hmem
    have hpath : doc.path = ⟨stream, collectionId, doc.path.documentId⟩ := by
      rw [← hproject, ← hcollection]
    rw [hpath] at hallows
    obtain ⟨hstream, hroot, hselected⟩ := hlive doc.path.documentId doc.fields hid hallows
    exact ⟨doc, rfl, hproject.trans hstream, hcollection, hstream, hroot, hselected⟩
  have hchild : childCollection [] collectionId = collectionId := join_singleton '/' _
  constructor
  · rintro message hmem document ids rfl
    rcases mem_append.mp hmem with hmem | hmem
    · obtain ⟨doc, rfl, hdoc, hselected⟩ := mem_first s htarget hmem
      obtain ⟨hproject, hcollection, -⟩ := mem_inCollection.mp hdoc
      refine ⟨⟨doc, rfl, hproject, ?_⟩, hselected⟩
      rcases hsnapshot with rfl | hnone
      · exact hcollection.trans hchild.symm
      · exact absurd hselected (by simp [hnone])
    · obtain ⟨doc, rfl, hproject, hcollection, -, rfl, hselected⟩ := hliveChange hmem
      exact ⟨⟨doc, rfl, hproject, hcollection.trans hchild.symm⟩, hselected⟩
  · intro v payload doc hnotifies hevent hshown hunselected
    exfalso
    obtain ⟨document, ids, hmem, hname⟩ := sent_of_shown hshown
    obtain ⟨hstream, -, -⟩ := event_changed hevent
    -- a document that is shown is in the project of the target and selected
    have hshownDoc : ∃ doc' : FirestoreDocument, documentName doc'.path = documentName doc.path ∧
        doc'.path.projectId = project ∧
        optionSelects engine.other filter doc'.fields = true := by
      rcases mem_append.mp hmem with hmem | hmem
      · obtain ⟨doc', rfl, hdoc, hselected⟩ := mem_first s htarget hmem
        exact ⟨doc', hname, (mem_inCollection.mp hdoc).1, hselected⟩
      · obtain ⟨doc', rfl, hproject, -, -, -, hselected⟩ := hliveChange hmem
        exact ⟨doc', hname, hproject, hselected⟩
    obtain ⟨doc', hname, hproject, hselected⟩ := hshownDoc
    have hsame : stream = project := by
      rw [← hstream, ← hproject, documentName_projectId hname]
    rcases hleaving hsame with hall | hnone
    · exact absurd (hall doc.fields) (by simp [hunselected])
    · exact absurd hselected (by simp [hnone])

omit htarget

/-- A target that is opened, before anything is fetched. -/
def ListenSession.start {w : World} {rule : ListenRule} (hidle : w.txn = none)
    (htarget : target.resolve = .ok (⟨project, collectionId⟩, filter))
    (hrule : (w.env.rules project).listenRule identity collectionId filter = .ok rule) :
    ListenSession engine stream identity target where
  targetId := 0
  database := ""
  resumeTime := none
  opened := w
  sub := ⟨0, ⟨project, collectionId⟩, identity, rule⟩
  first := w.opening engine 0 ⟨project, collectionId⟩ filter none
  feed := []
  live := []
  idle := hidle
  opening := by
    rw [World.run_openTarget htarget, hrule]
    rfl
  fetching := by simp
  looping := rfl

/-- A target that is opened, and for which one change is fetched that passes. -/
def ListenSession.fetchOne {w v : World} {rule : ListenRule} {payload : String}
    (hidle : w.txn = none) (htarget : target.resolve = .ok (⟨project, collectionId⟩, filter))
    (hrule : (w.env.rules project).listenRule identity collectionId filter = .ok rule)
    (hnotifies : w.Notifies v stream payload)
    (hallows : Subscription.LiveAllows ⟨0, ⟨project, collectionId⟩, identity, rule⟩
      (w.env.rules project) (v.event stream payload).subject.1
      (v.event stream payload).subject.2) :
    ListenSession engine stream identity target :=
  { ListenSession.start (w := w) hidle htarget hrule with
    feed := [.fetched v payload]
    live := [Subscription.message ⟨0, ⟨project, collectionId⟩, identity, rule⟩
      (v.event stream payload)]
    fetching := by
      intro v' payload' hmem
      cases List.mem_singleton.mp hmem
      exact hnotifies
    looping := congrArg Prod.fst (World.run_listenLoop_event hallows) }

/-- The rules and nothing else. -/
def ruled (rules : ProjectId → RuleSet) (rows : AList Key.Row) : World :=
  .holding { Environment.still with rules := rules } rows

/-- One document. -/
def oneDocument (rules : ProjectId → RuleSet) (path : DocumentPath) (fields : Fields) : World :=
  let row : DocumentRow := .fresh fields ⟨0, 0⟩
  ruled rules ((∅ : AList Key.Row).insert (.document path) row)

theorem mem_snapshot_oneDocument {rules : ProjectId → RuleSet} {documentId : String}
    {fields : Fields} (htimes : engine.ComparesTimes)
    (hselected : optionSelects engine.other filter fields = true) :
    ∃ doc, doc.path = ⟨project, collectionId, documentId⟩ ∧
      doc ∈ (oneDocument rules ⟨project, collectionId, documentId⟩ fields).snapshot engine
        ⟨project, collectionId⟩ filter none := by
  have hrow : (oneDocument rules ⟨project, collectionId, documentId⟩ fields).documentRow
      ⟨project, collectionId, documentId⟩ = some (DocumentRow.fresh fields ⟨0, 0⟩) :=
    AList.lookup_insert _
  refine ⟨(DocumentRow.fresh fields ⟨0, 0⟩).toDocument ⟨project, collectionId, documentId⟩, rfl,
    (mem_snapshot htimes).mpr ⟨⟨mem_inCollection.mpr ⟨rfl, rfl, ?_⟩, hselected⟩, nofun⟩⟩
  exact congrArg (visibleDocument _) hrow

/-- A document of the snapshot is shown. -/
theorem shown_opening {w : World} {targetId : Int32} {resumeTime : Option Timestamp}
    (h : doc ∈ w.snapshot engine collection filter (freshResumeTime w.env.clock resumeTime)) :
    shown (documentName doc.path) (w.opening engine targetId collection filter resumeTime) =
      true := by
  have hchanges : ∀ (docs : List FirestoreDocument) (before : List ListenMessage), doc ∈ docs →
      shown (documentName doc.path) (before ++ docs.map fun doc =>
        ListenMessage.documentChange (documentToProto doc) [targetId]) = true := by
    intro docs
    induction docs using reverseRecOn with
    | nil => exact nofun
    | append_singleton docs last ih =>
      intro before hmem
      rw [map_append, ← append_assoc, shown, foldl_append, ← shown]
      rcases mem_append.mp hmem with hmem | hmem
      · exact Bool.or_eq_true_iff.mpr (.inl (ih before hmem))
      · rw [mem_singleton.mp hmem]
        exact Bool.or_eq_true_iff.mpr (.inr (decide_eq_true rfl))
  rw [opening, shown, foldl_append, ← shown]
  exact hchanges _ [] h

section Necessary

variable {rules : ProjectId → RuleSet} {rule : ListenRule} {fields : Fields}
  (htimes : engine.ComparesTimes) (hsegments : ∀ c ∈ segments, Segment c)
  (hcollection : Segment collectionId)
  (h : ∀ s : ListenSession engine stream identity target, s.opened.env.rules = rules →
    s.Respects project segments collectionId filter)
  (hrule : (rules project).listenRule identity collectionId filter = .ok rule)

include hsegments hcollection htarget h hrule

/-- A document that is created while the target listens. -/
theorem live_of_respects {documentId : String} (hid : '/' ∉ documentId.toList)
    (hallows : Subscription.LiveAllows ⟨0, ⟨project, collectionId⟩, identity, rule⟩ (rules project)
      ⟨stream, collectionId, documentId⟩ fields) :
    stream = project ∧ segments = [] ∧
      optionSelects engine.other filter fields = true := by
  set path : DocumentPath := ⟨stream, collectionId, documentId⟩ with hpath
  set w := ruled rules ∅ with hw
  have hcreate : ClientWrite.apply w (.create path fields) = w.announced path fields :=
    apply_create rfl fields
  obtain ⟨doc, hevent, hdocPath, hdocFields⟩ := @event_announced w path hid fields
  let s : ListenSession engine stream identity target :=
    .fetchOne (w := w) (v := w.announced path fields) rfl htarget hrule
      (notifies_announced hcreate) (by
        rw [hevent, ListenEvent.subject, hdocPath, hdocFields]
        exact hallows)
  have hlive : s.live = [.documentChange (documentToProto doc) [0]] := by
    change [Subscription.message _ _] = _
    rw [hevent]
    rfl
  have hfits := (h s rfl).sent (.documentChange (documentToProto doc) [0])
    (mem_append_right _ (hlive ▸ mem_singleton.mpr rfl)) _ _ rfl
  obtain ⟨hproject, hroot⟩ := root_of_directlyUnder hsegments hcollection
    (by rw [hdocPath]) (by rw [hdocPath]; exact hid) hfits.1
  rw [hdocPath] at hproject
  refine ⟨hproject, hroot, ?_⟩
  rw [← hdocFields]
  exact hfits.2

include htimes

/-- A document that is there when the target is opened. -/
theorem snapshot_of_respects
    (hselected : optionSelects engine.other filter fields = true) :
    segments = [] := by
  obtain ⟨doc, hpath, hmem⟩ :=
    @mem_snapshot_oneDocument engine project collectionId filter rules "a" fields htimes hselected
  let s : ListenSession engine stream identity target :=
    .start (w := oneDocument rules ⟨project, collectionId, "a"⟩ fields) rfl htarget hrule
  have hsent : .documentChange (documentToProto doc) [0] ∈ s.first ++ s.live :=
    mem_append_left _ (mem_append_left _ (mem_map_of_mem hmem))
  have hfits := (h s rfl).sent _ hsent _ _ rfl
  have hid : '/' ∉ doc.path.documentId.toList := by
    rw [hpath]
    exact (show '/' ∉ "a".toList by decide)
  exact (root_of_directlyUnder hsegments hcollection (by rw [hpath]) hid hfits.1).2

omit hsegments hcollection in
/-- A document that is there when the target is opened, and then changes. -/
theorem leaving_of_respects (hsame : stream = project) {fields' : Fields}
    (hselected : optionSelects engine.other filter fields = true) :
    optionSelects engine.other filter fields' = true := by
  subst hsame
  by_contra hunselected
  rw [Bool.not_eq_true] at hunselected
  set path : DocumentPath := ⟨stream, collectionId, "a"⟩ with hpath
  set w := oneDocument rules path fields with hw
  obtain ⟨doc, hdocPath, hmem⟩ :=
    @mem_snapshot_oneDocument engine stream collectionId filter rules "a" fields htimes hselected
  obtain ⟨changed, hevent, hchangedPath, hchangedFields⟩ :=
    @event_announced w path (show '/' ∉ "a".toList by decide) fields'
  let s : ListenSession engine stream identity target := .start (w := w) rfl htarget hrule
  have hshown : shown (documentName changed.path) (s.first ++ s.live) = true := by
    rw [hchangedPath.trans hdocPath.symm]
    exact (congrArg (shown _) (append_nil _)).trans (shown_opening hmem)
  have hleft := (h s rfl).left _ _ changed
    (notifies_announced (apply_update path fields')) hevent hshown
    (by rw [hchangedFields]; exact hunselected)
  -- but the message of a change is never that of a delete
  rw [run_liveMessage] at hleft
  obtain ⟨passes, -, hmessage⟩ := map_eq_ok hleft
  cases passes <;> cases hmessage

omit hrule in
/-- If every session respects its filter, the loop does not need it. -/
theorem filterUnneeded_of_respects :
    FilterUnneeded engine stream project segments collectionId filter identity rules := by
  intro rule hrule
  refine ⟨fun documentId fields => live_of_respects htarget hsegments hcollection h hrule, ?_, ?_⟩
  · by_cases hany : ∃ fields, optionSelects engine.other filter fields = true
    · obtain ⟨fields, hselected⟩ := hany
      exact .inl (snapshot_of_respects htarget htimes hsegments hcollection h hrule hselected)
    · exact .inr fun fields => Bool.eq_false_of_not_eq_true (not_exists.mp hany fields)
  · intro hsame
    by_cases hany : ∃ fields, optionSelects engine.other filter fields = true
    · obtain ⟨fields, hselected⟩ := hany
      exact .inl fun fields' => leaving_of_respects htarget htimes h hrule hsame hselected
    · exact .inr fun fields => Bool.eq_false_of_not_eq_true (not_exists.mp hany fields)

end Necessary

end Sessions

/-- The sessions of a query target respect its filter exactly under rules with which the loop does
not need it. -/
theorem live_events_respect_filter_iff {engine : QueryEngine} (htimes : engine.ComparesTimes)
    {stream project : ProjectId} {segments : List String} {collectionId : String} {group : Bool}
    {more : List (String × Bool)} {filter : Option QueryFilter} {query : ProtoQuery}
    {identity : Option AuthContext} {rules : ProjectId → RuleSet}
    (hsegments : ∀ c ∈ segments, Segment c) (hcollection : Segment collectionId)
    (hselectors : query.selectors = (collectionId, group) :: more)
    (hfilter : query.filter = .ok filter) :
    (∀ s : ListenSession engine stream identity
        (.query (parentName project (Text.join '/' segments)) (some query)),
      s.opened.env.rules = rules → s.Respects project segments collectionId filter) ↔
    FilterUnneeded engine stream project segments collectionId filter identity rules := by
  have htarget := @resolve_query project (join '/' segments) _ _ _ _ _ hselectors hfilter
  constructor
  · exact filterUnneeded_of_respects htarget htimes hsegments hcollection
  · rintro h s rfl
    exact s.respects_of_filterUnneeded htarget h

/-! ## Sessions written out -/

/-- A database that compares update times, in no particular order. -/
def timedEngine : QueryEngine :=
  { plainEngine with
    arrange := fun query docs => docs.filter fun doc =>
      query.sinceUpdateTime.all fun t => t.toNanos < doc.updateTime.toNanos
    arrange_subset := fun _ docs => List.filter_subset_self docs }

theorem timedEngine_comparesTimes : timedEngine.ComparesTimes := by
  intro filter since docs doc
  rw [timedEngine, mem_filter]
  cases since <;> simp

/-- All notes, at the root and without rules. -/
theorem live_events_respect_filter_notes :
    FilterUnneeded timedEngine demo demo [] "notes" none none (fun _ => .empty) ∧
      ∀ s : ListenSession timedEngine demo none
          (.query (parentName demo (Text.join '/' [])) (some (bareQuery "notes"))),
        s.opened.env.rules = (fun _ => .empty) → s.Respects demo [] "notes" none := by
  have hnotes : Segment "notes" := ⟨by decide, by decide⟩
  have hunneeded :
      FilterUnneeded timedEngine demo demo [] "notes" none none (fun _ => .empty) := by
    intro rule _
    exact ⟨fun _ _ _ _ => ⟨rfl, rfl, rfl⟩, .inl rfl, fun _ => .inl fun _ => rfl⟩
  exact ⟨hunneeded, (live_events_respect_filter_iff timedEngine_comparesTimes (by simp) hnotes rfl
    rfl).mpr hunneeded⟩

/-- The open notes. -/
def onlyOpen : QueryFilter := .field ⟨"state", .equal, .string "open"⟩

/-- An open note, in a project without rules. -/
def openNote : World :=
  oneDocument (fun _ => .empty) ⟨demo, "notes", "n"⟩ {("state", .string "open")}

/-- The note has been closed. -/
def closedNote : World :=
  ClientWrite.apply openNote (.update ⟨demo, "notes", "n"⟩ {("state", .string "closed")} none)

theorem event_closedNote :
    closedNote.event demo "notes/n" = .changed ⟨⟨demo, "notes", "n"⟩,
      {("state", .string "closed")}, ⟨0, 0⟩, ⟨0, 0⟩, 2⟩ := rfl

/-- A client that listens to the open notes is sent a note that has been closed. -/
theorem closed_note_sent :
    ∃ s : ListenSession timedEngine demo none (.query (parentName demo "")
        (some { bareQuery "notes" with filter := .ok (some onlyOpen) })),
      s.opened = openNote ∧ s.feed = [.fetched closedNote "notes/n"] ∧
      s.live = [.documentChange ⟨documentName ⟨demo, "notes", "n"⟩,
        {("state", .string "closed")}, ⟨0, 0⟩, ⟨0, 0⟩⟩ [0]] ∧
      ¬ s.Respects demo [] "notes" (some onlyOpen) := by
  have hrule : (openNote.env.rules demo).listenRule none "notes" (some onlyOpen) =
      .ok ⟨none, ∅, true⟩ := rfl
  have hallows : Subscription.LiveAllows ⟨0, ⟨demo, "notes"⟩, none, ⟨none, ∅, true⟩⟩ .empty
      ⟨demo, "notes", "n"⟩ {("state", .string "closed")} := ⟨rfl, none, ∅, rfl, nofun⟩
  have hnotifies : openNote.Notifies closedNote demo "notes/n" :=
    notifies_announced (apply_update _ _)
  refine ⟨.fetchOne (w := openNote) (v := closedNote) rfl (resolve_query rfl rfl) hrule hnotifies
    (event_closedNote ▸ hallows), rfl, rfl, ?_, fun hrespects => ?_⟩
  · change [Subscription.message _ _] = _
    rw [event_closedNote]
    rfl
  · have hfits := hrespects.sent _ (mem_append_right _ mem_cons_self) _ _
      (congrArg _ event_closedNote)
    exact absurd hfits.2 (by decide)

end Embyr
