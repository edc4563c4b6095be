import Embyr.ListenDisclosure
import Embyr.ListenerFailures

/-!
# Snapshot and live events join

A target registers before its snapshot, and an event carries the document as it is when it is
fetched. So an event may be older than the snapshot sent before it; but then the document has been
written since, and another notification is on its way.

* `clientView`, `World.ShownBy` — what the client shows, and what it should.
* `ListenSystem.Agrees` — a document is on its way, or the events still to be taken bring the view
  to what readers see. This is the invariant of one document.
* `ListenSystem.Undisturbed` — no failures, no overflow, and no `/` in an identifier.
* `snapshot_joins_live` — once nothing is on its way, the view is the collection.
-/

namespace Embyr

open Program ReadCommitted World Subscriber ListenSystem Function List

/-! ## Views -/

/-- The documents a client shows, by name. -/
abbrev ClientView : Type := String → Option DocumentResponse

def ClientView.receive (v : ClientView) : ListenMessage → ClientView
  | .documentChange document _ => Function.update v document.name (some document)
  | .documentDelete name _ => Function.update v name none
  | .current _ | .noChange _ | .reset _ => v

/-- The view after these messages. -/
def clientView (messages : List ListenMessage) : ClientView :=
  messages.foldl ClientView.receive fun _ => none

theorem clientView_append (messages messages' : List ListenMessage) :
    clientView (messages ++ messages') = messages'.foldl ClientView.receive (clientView messages) :=
  foldl_append

/-- The path of a document in the collection. -/
abbrev CollectionPath.document (collection : CollectionPath) (documentId : String) : DocumentPath :=
  ⟨collection.projectId, collection.collectionPath, documentId⟩

/-- What readers get at a path. -/
def World.response (w : World) (path : DocumentPath) : Option DocumentResponse :=
  (visibleDocument path (w.documentRow path)).map documentToProto

/-- The view consists of the visible documents of the collection. -/
structure World.ShownBy (w : World) (collection : CollectionPath) (v : ClientView) : Prop where
  documents : ∀ documentId, v (documentName (collection.document documentId)) =
    w.response (collection.document documentId)
  others : ∀ name, (∀ documentId, name ≠ documentName (collection.document documentId)) →
    v name = none

variable {collection : CollectionPath}

theorem documentName_document_inj {documentId documentId' : String}
    (h : documentName (collection.document documentId) =
      documentName (collection.document documentId')) : documentId = documentId' := by
  rw [documentName_eq, documentName_eq, ← String.toList_inj] at h
  rw [← String.toList_inj]
  simpa using h

/-- The document an event leaves with a client. -/
def ListenEvent.document : ListenEvent → Option DocumentResponse
  | .changed doc => some (documentToProto doc)
  | .removed _ _ => none

/-- The document after these events. -/
def settle (path : DocumentPath) (document : Option DocumentResponse) (events : List Fetched) :
    Option DocumentResponse :=
  events.foldl (fun d fetched =>
    if fetched.event.subject.1 = path then fetched.event.document else d) document

theorem settle_append (path : DocumentPath) (document : Option DocumentResponse)
    (events events' : List Fetched) :
    settle path document (events ++ events') = settle path (settle path document events) events' :=
  foldl_append

variable {event : ListenEvent}

/-- The message of an event in the view. -/
theorem receive_message (sub : Subscription) (v : ClientView)
    (hproject : event.subject.1.projectId = collection.projectId)
    (hcollection : event.subject.1.collectionPath = collection.collectionPath) :
    v.receive (sub.message event) = update v
      (documentName (collection.document event.subject.1.documentId)) event.document := by
  rw [CollectionPath.document, ← hproject, ← hcollection]
  cases event <;> rfl

/-! ## Snapshots -/

variable {document : Option DocumentResponse}

theorem foldl_documentChange {docs : List FirestoreDocument} {targetIds : List Int32}
    {v : ClientView} {name : String}
    (hdocs : ∀ doc ∈ docs, documentName doc.path = name → some (documentToProto doc) = document)
    (hv : v name = document ∨ ∃ doc ∈ docs, documentName doc.path = name) :
    (docs.map fun doc => ListenMessage.documentChange (documentToProto doc) targetIds).foldl
      ClientView.receive v name = document := by
  induction docs generalizing v with
  | nil => exact hv.resolve_right fun ⟨doc, hmem, _⟩ => nomatch hmem
  | cons doc docs ih =>
    obtain ⟨hdoc, hdocs⟩ := forall_mem_cons.mp hdocs
    refine ih hdocs ?_
    simp only [ClientView.receive, documentToProto]
    by_cases hname : documentName doc.path = name
    · subst hname
      exact .inl ((update_self ..).trans (hdoc rfl))
    · rw [update_of_ne (Ne.symm hname)]
      refine hv.imp_right ?_
      rintro ⟨doc', hmem, hname'⟩
      rcases mem_cons.mp hmem with rfl | hmem
      · exact absurd hname' hname
      · exact ⟨doc', hmem, hname'⟩

variable {w : World} {x : Subscriber}

/-- A snapshot shows the collection. -/
theorem shownBy_opening {engine : QueryEngine} (hengine : engine.ComparesTimes)
    (hfilter : x.filter = none) (hsince : x.sinceUpdateTime = none) :
    w.ShownBy x.sub.collection (clientView (x.opening engine w)) := by
  have hmem : ∀ doc, doc ∈ w.snapshot engine x.sub.collection x.filter x.sinceUpdateTime ↔
      doc.path.projectId = x.sub.collection.projectId ∧
        doc.path.collectionPath = x.sub.collection.collectionPath ∧
        visibleDocument doc.path (w.documentRow doc.path) = some doc := by
    intro doc
    rw [mem_snapshot hengine, mem_inCollection, hfilter, hsince]
    exact ⟨fun h => h.1.1, fun h => ⟨⟨h, rfl⟩, nofun⟩⟩
  -- a document of the snapshot is named after its place in the collection
  have hdocument : ∀ doc ∈ w.snapshot engine x.sub.collection x.filter x.sinceUpdateTime,
      doc.path = x.sub.collection.document doc.path.documentId := by
    intro doc hdoc
    obtain ⟨hproject, hcollection, -⟩ := (hmem doc).mp hdoc
    rw [CollectionPath.document, ← hproject, ← hcollection]
  rw [Subscriber.opening, clientView_append]
  refine ⟨fun documentId => ?_, fun name hname => ?_⟩
  · refine foldl_documentChange (fun doc hdoc hname => ?_) ?_
    · obtain ⟨-, -, hvisible⟩ := (hmem doc).mp hdoc
      rw [hdocument doc hdoc] at hname
      rw [← documentName_document_inj hname, ← hdocument doc hdoc, response, hvisible]
      rfl
    · rcases hvisible : visibleDocument (x.sub.collection.document documentId)
        (w.documentRow (x.sub.collection.document documentId)) with _ | doc
      · exact .inl (congrArg (Option.map documentToProto) hvisible).symm
      · have hpath := path_visibleDocument hvisible
        refine .inr ⟨doc, (hmem doc).mpr ?_, congrArg documentName hpath⟩
        rw [hpath]
        exact ⟨rfl, rfl, hvisible⟩
  · refine foldl_documentChange (fun doc hdoc hname' => ?_) (.inl rfl)
    rw [hdocument doc hdoc] at hname'
    exact absurd hname'.symm (hname _)

/-! ## Targets without rules -/

/-- No read rule or pattern governs the collection. -/
def RuleSet.Free (rules : RuleSet) (collectionPath : String) : Prop :=
  rules.readRules[collectionPath]? = none ∧
    ∀ documentId, resolveAccessRulePattern rules.patterns collectionPath documentId = .ok none

variable {rules : RuleSet} {collectionPath : String}

theorem RuleSet.Free.listenRule (h : rules.Free collectionPath) (identity : Option AuthContext)
    (filter : Option QueryFilter) :
    rules.listenRule identity collectionPath filter = .ok ⟨none, ∅, true⟩ := by
  rw [RuleSet.listenRule, h.1, h.2 none]
  rfl

theorem RuleSet.free_of_no_patterns (hread : rules.readRules[collectionPath]? = none)
    (hpatterns : rules.patterns = []) {segments : List PathSegment}
    (hparse : parsePathSegments collectionPath = .ok segments) :
    rules.Free collectionPath := by
  refine ⟨hread, fun documentId => ?_⟩
  rw [resolveAccessRulePattern, hparse, hpatterns]
  cases documentId <;> rfl

/-- Without rules every event of the collection is sent. -/
theorem run_liveMessage_free {sub : Subscription}
    (hfree : (w.env.rules sub.collection.projectId).Free sub.collection.collectionPath)
    (hrule : sub.rule = ⟨none, ∅, true⟩) (event : ListenEvent) :
    (w.run (sub.liveMessage event)).1 =
      .ok (if event.subject.1.collectionPath = sub.collection.collectionPath
        then some (sub.message event) else none) := by
  rw [run_liveMessage, Subscription.passesUnder, RuleSet.eventCondition, hrule]
  by_cases hcollection : event.subject.1.collectionPath = sub.collection.collectionPath
  · rw [if_pos hcollection, if_pos hcollection, if_pos rfl, hfree.2]
    rfl
  · rw [if_neg hcollection, if_neg hcollection]
    rfl

/-- A target on the collection, without filter or resume token. -/
structure Subscriber.Plain (collection : CollectionPath) (x : Subscriber) : Prop where
  collection : x.sub.collection = collection
  filter : x.filter = none
  sinceUpdateTime : x.sinceUpdateTime = none

/-! ## The invariant of one document -/

namespace ListenSystem

/-- The event that is about to be fanned out. -/
def held (s : ListenSystem) : List Fetched :=
  match s.task with
  | .fanningOut fetched => [fetched]
  | _ => []

/-- The document is on its way, or the events still to be taken turn what is shown, or the
snapshot if there has been none, into what readers see. -/
def Agrees (s : ListenSystem) (shown : Option (Option DocumentResponse)) (queue : List Fetched)
    (path : DocumentPath) : Prop :=
  s.Coming path ∨
    settle path (shown.getD (s.world.response path)) (queue ++ s.held) = s.world.response path

variable {engine : QueryEngine} {project : ProjectId} {s s' : ListenSystem} {path : DocumentPath}
  {shown : Option (Option DocumentResponse)} {queue : List Fetched}

/-- The world may change as long as the document does not. -/
theorem Agrees.of_same (h : s.Agrees shown queue path) (hcoming : s.Coming path → s'.Coming path)
    (hrow : s'.world.documentRow path = s.world.documentRow path) (hheld : s'.held = s.held) :
    s'.Agrees shown queue path := by
  have hresponse : s'.world.response path = s.world.response path := by
    rw [response, response, hrow]
  rw [Agrees, hresponse, hheld]
  exact h.imp_left hcoming

/-- The event of a document shows what readers see of it. -/
theorem document_event {payload : String} (hproject : path.projectId = project)
    (hnames : NamesDocument payload path) :
    (w.event project payload).document = w.response path := by
  obtain ⟨project', collectionPath, documentId⟩ := path
  obtain rfl : project' = project := hproject
  rw [event_of_split hnames, response, visibleDocument]
  rcases w.documentRow ⟨project', collectionPath, documentId⟩ with _ | row
  · rfl
  · rw [rowEvent, Option.filter_some]
    rcases hdeleted : row.deleted with _ | _ <;> simp [DocumentRow.visible, hdeleted] <;> rfl

variable {path' : DocumentPath}

/-- The event of a payload is about the document it names. -/
theorem subject_event (payload : String) (hpayload : payload = readKey path') :
    (w.event project payload).subject.1.projectId = project ∧
      NamesDocument payload (w.event project payload).subject.1 := by
  have hsome : Text.rsplitOnce '/' payload ≠ none := by
    rw [hpayload]
    exact Text.rsplitOnce_ne_none path'.collectionPath path'.documentId
  obtain ⟨⟨collectionPath, documentId⟩, hsplit⟩ := Option.ne_none_iff_exists'.mp hsome
  have hsubject : (w.event project payload).subject.1 = ⟨project, collectionPath, documentId⟩ := by
    rw [event_of_split hsplit]
    rcases w.documentRow ⟨project, collectionPath, documentId⟩ with _ | row
    · rfl
    · rw [rowEvent]
      split_ifs <;> rfl
  rw [hsubject]
  exact ⟨rfl, hsplit⟩

theorem Agrees.fetch (h : s.Agrees shown queue path) {notice : Notice}
    (htask : s.task = .fetching notice) (hpayload : notice.payload = readKey path')
    (hproject : path.projectId = project) :
    ({ s with task := .fanningOut (s.fetched project false notice) } : ListenSystem).Agrees
      shown queue path := by
  have hheld : s.held = [] := by rw [held, htask]
  by_cases hnames : NamesDocument notice.payload path
  · -- the event shows the document as it is now
    refine .inr ?_
    rw [settle_append]
    exact (if_pos (subject_fetched hnames hproject false)).trans (document_event hproject hnames)
  · have hsubject : (s.fetched project false notice).event.subject.1 ≠ path := by
      rintro rfl
      exact hnames (subject_event notice.payload hpayload).2
    rcases h with ⟨notice', hmem, hnames'⟩ | hsettled
    · rw [coming, htask] at hmem
      rcases mem_cons.mp hmem with rfl | hmem
      · exact absurd hnames' hnames
      · exact .inl ⟨notice', hmem, hnames'⟩
    · refine .inr ?_
      rw [hheld, append_nil] at hsettled
      rw [settle_append]
      exact (if_neg hsubject).trans hsettled

variable {fetched : Fetched}

/-- What is held joins the channel. -/
theorem Agrees.fanOut (h : s.Agrees shown queue path) (htask : s.task = .fanningOut fetched)
    {subscribers : ℕ → Option Subscriber} :
    ({ s with task := .receiving, subscribers := subscribers } : ListenSystem).Agrees shown
      (queue ++ [fetched]) path := by
  rw [Agrees, Coming, coming, held, htask] at h
  rw [Agrees, held, append_nil]
  exact h

/-- Nothing is held. -/
theorem agrees_of_held (hheld : s.held = []) : s.Agrees none [] path := by
  refine .inr ?_
  rw [hheld]
  rfl

/-- The stream takes an event that is about the document, or about another. -/
theorem Agrees.take (h : s.Agrees (some document) (fetched :: queue) path) :
    s.Agrees (some (if fetched.event.subject.1 = path then fetched.event.document else document))
      queue path :=
  h

/-- A write of another document, or one that is announced. -/
theorem Agrees.afterWrite (h : s.Agrees shown queue path) {write : ClientWrite}
    (hwrite : (write.apply s.world).documentRow path = s.world.documentRow path ∨
      (s.afterWrite project write).Coming path) :
    (s.afterWrite project write).Agrees shown queue path := by
  rcases hwrite with hrow | hcoming
  · exact h.of_same Coming.afterWrite hrow rfl
  · exact .inl hcoming

/-! ## Runs -/

/-- The actions of a run without failures and overflow, whose writes each create, update or delete
one document, of which those in the collection have no `/` in their identifiers. -/
def Undisturbed (collection : CollectionPath) (s : ListenSystem) : Action → Prop
  | .write write => ∃ path, write.document = some path ∧
      (path = collection.document path.documentId → '/' ∉ path.documentId.toList)
  | .fetch fails => fails = false
  | .fanOut => ∀ id x, s.subscribers id = some x → x.Plain collection →
      x.queue.length < channelCapacity
  | .lose => False
  | _ => True

/-- A plain target that has seen, or will see, all of the collection. -/
structure Joined (collection : CollectionPath) (s : ListenSystem) (x : Subscriber) : Prop where
  rule : x.sub.rule = ⟨none, ∅, true⟩
  going : x.reset = false ∧ x.ended = false
  taken : x.taken ≤ x.offered.length
  project : ∀ fetched ∈ x.offered, fetched.event.subject.1.projectId = collection.projectId
  agrees : ∀ documentId, s.Agrees
    (x.sent.map fun messages => clientView messages (documentName (collection.document documentId)))
    x.queue (collection.document documentId)
  others : ∀ messages, x.sent = some messages → ∀ name,
    (∀ documentId, name ≠ documentName (collection.document documentId)) →
      clientView messages name = none

/-- The invariant of the runs. -/
structure Steady (collection : CollectionPath) (s : ListenSystem) : Prop where
  idle : s.world.txn = none
  free : (s.world.env.rules collection.projectId).Free collection.collectionPath
  connected : s.connected = true
  payloads : ∀ notice ∈ s.coming, ∃ path, notice.payload = readKey path
  held : ∀ fetched ∈ s.held, fetched.event.subject.1.projectId = collection.projectId
  fresh : ∀ documentId, s.Agrees none [] (collection.document documentId)
  joined : ∀ id x, s.subscribers id = some x → x.Plain collection → s.Joined collection x

variable {collection : CollectionPath}

theorem Joined.of_agrees (h : s.Joined collection x)
    (hagrees : ∀ shown queue documentId, s.Agrees shown queue (collection.document documentId) →
      s'.Agrees shown queue (collection.document documentId)) : s'.Joined collection x :=
  ⟨h.rule, h.going, h.taken, h.project, fun documentId => hagrees _ _ documentId (h.agrees documentId),
    h.others⟩

theorem steady_start (hidle : w.txn = none)
    (hfree : (w.env.rules collection.projectId).Free collection.collectionPath) :
    Steady collection (.start w) :=
  ⟨hidle, hfree, rfl, nofun, nofun, fun _ => agrees_of_held rfl, nofun⟩

/-- A subscriber that goes on by itself. -/
theorem Steady.of_onSubscriber (h : Steady collection s) {id : ℕ} {f : Subscriber → Subscriber}
    (hplain : ∀ x, (f x).Plain collection → x.Plain collection)
    (hf : ∀ x, x.Plain collection → s.Joined collection x → s.Joined collection (f x)) :
    Steady collection (s.onSubscriber id f) := by
  refine ⟨h.idle, h.free, h.connected, h.payloads, h.held, h.fresh, fun id' x' hx' hplain' => ?_⟩
  obtain ⟨x, hx, rfl | rfl⟩ := onSubscriber_some hx'
  · exact (h.joined id' x' hx hplain').of_agrees fun _ _ _ hagrees => hagrees
  · exact (hf x (hplain x hplain') (h.joined id' x hx (hplain x hplain'))).of_agrees
      fun _ _ _ hagrees => hagrees

theorem sub_takeSnapshot (h : (x.takeSnapshot engine w).Plain collection) :
    x.Plain collection := by
  rw [takeSnapshot] at h
  split at h <;> exact ⟨h.collection, h.filter, h.sinceUpdateTime⟩

theorem Joined.takeSnapshot (hengine : engine.ComparesTimes) (hplain : x.Plain collection)
    (h : s.Joined collection x) :
    s.Joined collection (x.takeSnapshot engine s.world) := by
  obtain rfl := hplain.collection
  rw [takeSnapshot]
  split
  · rename_i hsent
    have hshown := shownBy_opening hengine (w := s.world) hplain.filter hplain.sinceUpdateTime
    refine ⟨h.rule, h.going, h.taken, h.project, fun documentId => ?_, ?_⟩
    · have hagrees := h.agrees documentId
      rw [hsent] at hagrees
      rw [Option.map_some, hshown.documents documentId]
      exact hagrees
    · rintro messages ⟨⟩
      exact hshown.others
  · exact h

theorem sub_deliver (h : (x.deliver w).Plain collection) :
    x.Plain collection := by
  rw [deliver] at h
  split at h
  · split at h <;> exact ⟨h.collection, h.filter, h.sinceUpdateTime⟩
  · exact h

/-- What an event of the collection does to the view of a document. -/
theorem receive_message_document (sub : Subscription) (v : ClientView)
    (hproject : event.subject.1.projectId = collection.projectId)
    (hcollection : event.subject.1.collectionPath = collection.collectionPath)
    (documentId : String) :
    v.receive (sub.message event) (documentName (collection.document documentId)) =
      if event.subject.1 = collection.document documentId then event.document
      else v (documentName (collection.document documentId)) := by
  have hsubject : event.subject.1 = collection.document event.subject.1.documentId := by
    rw [CollectionPath.document, ← hproject, ← hcollection]
  rw [receive_message sub v hproject hcollection]
  by_cases hid : documentId = event.subject.1.documentId
  · rw [hid, update_self, ← hsubject, if_pos rfl]
  · rw [update_of_ne fun hname => hid (documentName_document_inj hname), if_neg]
    intro hpath
    exact hid (congrArg DocumentPath.documentId hpath).symm

theorem Joined.deliver (hplain : x.Plain collection) (h : s.Joined collection x)
    (hfree : (s.world.env.rules collection.projectId).Free collection.collectionPath) :
    s.Joined collection (x.deliver s.world) := by
  obtain rfl := hplain.collection
  rw [deliver]
  split
  · rename_i messages fetched _ hsent hfetched
    have hproject := h.project fetched (List.mem_of_getElem? hfetched)
    have hqueue : x.queue = fetched :: x.offered.drop (x.taken + 1) :=
      (List.drop_eq_getElem?_toList_append.trans (by rw [hfetched]; rfl))
    have htaken : x.taken + 1 ≤ x.offered.length := (List.getElem?_eq_some_iff.mp hfetched).1
    have hagrees : ∀ documentId, s.Agrees (some (if fetched.event.subject.1 =
        x.sub.collection.document documentId then fetched.event.document
          else clientView messages (documentName (x.sub.collection.document documentId))))
        (x.offered.drop (x.taken + 1)) (x.sub.collection.document documentId) := by
      intro documentId
      have hagrees := h.agrees documentId
      rw [hqueue, hsent] at hagrees
      exact hagrees.take
    rw [run_liveMessage_free hfree h.rule]
    by_cases hcollection :
        fetched.event.subject.1.collectionPath = x.sub.collection.collectionPath
    · simp only [if_pos hcollection]
      refine ⟨h.rule, h.going, htaken, h.project, fun documentId => ?_, ?_⟩
      · rw [Option.map_some, clientView_append, Option.toList_some, List.foldl_cons, List.foldl_nil,
          receive_message_document x.sub _ hproject hcollection]
        exact hagrees documentId
      · rintro _ ⟨⟩ name hname
        rw [clientView_append]
        refine (congrFun (receive_message x.sub _ hproject hcollection) name).trans ?_
        rw [update_of_ne (hname _)]
        exact h.others messages hsent name hname
    · simp only [if_neg hcollection]
      refine ⟨h.rule, h.going, htaken, h.project, fun documentId => ?_, ?_⟩
      · have hsubject : fetched.event.subject.1 ≠ x.sub.collection.document documentId :=
          fun hpath => hcollection (congrArg DocumentPath.collectionPath hpath)
        have hagrees := hagrees documentId
        rw [if_neg hsubject] at hagrees
        rw [Option.map_some, Option.toList_none, List.append_nil]
        exact hagrees
      · rintro _ ⟨⟩
        simpa using h.others messages hsent
  · exact h

theorem sub_keepAlive (h : (x.keepAlive w).Plain collection) :
    x.Plain collection := by
  rw [keepAlive] at h
  split at h <;> exact ⟨h.collection, h.filter, h.sinceUpdateTime⟩

theorem Joined.keepAlive (h : s.Joined collection x) :
    s.Joined collection (x.keepAlive s.world) := by
  rw [Subscriber.keepAlive]
  split
  · rename_i messages _ hsent
    -- the view is the same before and after a token
    refine ⟨h.rule, h.going, h.taken, h.project, fun documentId => ?_, ?_⟩
    · have hagrees := h.agrees documentId
      rw [hsent] at hagrees
      rw [Option.map_some, clientView_append]
      exact hagrees
    · rintro _ ⟨⟩
      rw [clientView_append]
      exact h.others messages hsent
  · exact h

theorem sub_sendReset (h : x.sendReset.Plain collection) : x.Plain collection := by
  rw [sendReset] at h
  split at h <;> exact ⟨h.collection, h.filter, h.sinceUpdateTime⟩

theorem Joined.sendReset (h : s.Joined collection x) :
    s.Joined collection x.sendReset := by
  rw [Subscriber.sendReset]
  split
  · rename_i hreset _
    cases h.going.1.symm.trans hreset
  · exact h

theorem Joined.register
    (hfree : (s.world.env.rules collection.projectId).Free collection.collectionPath)
    (hfresh : ∀ documentId, s.Agrees none [] (collection.document documentId)) {req : TargetRequest}
    {now : ℕ} (hx : req.register s.world now = some x)
    (hplain : x.Plain collection) : s.Joined collection x := by
  have hcollection : x.sub.collection = req.collection ∧ x.sub.rule = ⟨none, ∅, true⟩ ∧
      x.reset = false ∧ x.ended = false ∧ x.taken = 0 ∧ x.offered = [] ∧ x.sent = none := by
    rw [TargetRequest.register] at hx
    split at hx
    · rename_i rule hrule
      cases hx
      obtain rfl := hplain.collection
      obtain rfl := Except.ok.inj ((hfree.listenRule _ _).symm.trans hrule)
      exact ⟨rfl, rfl, rfl, rfl, rfl, rfl, rfl⟩
    · cases hx
  obtain ⟨-, hrule, hreset, hended, htaken, hoffered, hsent⟩ := hcollection
  refine ⟨hrule, ⟨hreset, hended⟩, ?_, ?_, fun documentId => ?_, ?_⟩
  · rw [htaken]
    exact Nat.zero_le _
  · rw [hoffered]
    simp
  · rw [hsent, queue, hoffered, drop_nil]
    exact hfresh documentId
  · rw [hsent]
    simp

/-- Between writes by others, only what is on its way moves. -/
theorem Steady.of_agrees (h : Steady collection s) (hworld : s'.world.txn = none)
    (henv : s'.world.env.rules = s.world.env.rules) (hconnected : s'.connected = true)
    (hpayloads : ∀ notice ∈ s'.coming, ∃ path, notice.payload = readKey path)
    (hheld : ∀ fetched ∈ s'.held, fetched.event.subject.1.projectId = collection.projectId)
    (hsubscribers : s'.subscribers = s.subscribers)
    (hagrees : ∀ shown queue documentId, s.Agrees shown queue (collection.document documentId) →
      s'.Agrees shown queue (collection.document documentId)) : Steady collection s' := by
  refine ⟨hworld, henv ▸ h.free, hconnected, hpayloads, hheld,
    fun documentId => hagrees _ _ documentId (h.fresh documentId), fun id x hx hplain => ?_⟩
  rw [hsubscribers] at hx
  exact (h.joined id x hx hplain).of_agrees hagrees

theorem Steady.write (h : Steady collection s) {write : ClientWrite} {path : DocumentPath}
    (hwrite : write.document = some path)
    (hid : path = collection.document path.documentId → '/' ∉ path.documentId.toList) :
    Steady collection (s.afterWrite collection.projectId write) := by
  have hrules : (write.apply s.world).env.rules = s.world.env.rules := by
    rw [World.ClientWrite.apply_env]
  rcases ClientWrite.apply_eq_or h.idle hwrite with hsame | ⟨row, hchanged⟩
  · have hnotices : s.notices collection.projectId write = [] := by
      rw [notices, hsame, sentSince_self]
      rfl
    refine h.of_agrees ?_ hrules h.connected (fun notice hmem => ?_) h.held rfl
      fun shown queue documentId hagrees => hagrees.afterWrite (.inl ?_)
    · rw [show (s.afterWrite collection.projectId write).world = _ from hsame]
      exact h.idle
    · rcases mem_coming_afterWrite.mp hmem with hmem | ⟨-, hmem⟩
      · exact h.payloads notice hmem
      · rw [hnotices] at hmem
        cases hmem
    · rw [hsame]
  · have hsent : s.world.sentSince (write.apply s.world) = [(path.projectId, readKey path)] := by
      rw [hchanged, sentSince_announceRow]
    refine h.of_agrees ?_ hrules h.connected (fun notice hmem => ?_) h.held rfl
      fun shown queue documentId hagrees => hagrees.afterWrite ?_
    · rw [show (s.afterWrite collection.projectId write).world = _ from hchanged]
      exact txn_announceRow h.idle row
    · rcases mem_coming_afterWrite.mp hmem with hmem | ⟨-, hmem⟩
      · exact h.payloads notice hmem
      · obtain ⟨sent, hfiltered, rfl⟩ := mem_map.mp hmem
        rw [hsent] at hfiltered
        obtain rfl := mem_singleton.mp (mem_filter.mp hfiltered).1
        exact ⟨path, rfl⟩
    · by_cases hpath : collection.document documentId = path
      · subst hpath
        refine .inr ⟨⟨readKey (collection.document documentId), s.now + 1⟩, ?_,
          (namesDocument_readKey_iff _).mpr (hid rfl)⟩
        refine mem_coming_afterWrite.mpr (.inr ⟨h.connected, ?_⟩)
        rw [notices, hsent]
        simp
      · rw [hchanged, documentRow_announceRow, update_of_ne hpath]
        exact .inl rfl

theorem Steady.recv (h : Steady collection s) (i : ℕ) :
    Steady collection (s.step engine project (.recv i)) := by
  rw [step]
  split
  · rename_i notice htask howed
    have hheld : s.held = [] := by rw [ListenSystem.held, htask]
    refine h.of_agrees h.idle rfl h.connected (fun notice' hmem => h.payloads notice' ?_) (by rintro _ ⟨⟩) rfl
      fun shown queue documentId hagrees => hagrees.of_same (.recv htask howed) rfl hheld.symm
    refine mem_coming_of_mem_owed ?_
    rcases mem_cons.mp hmem with rfl | hmem
    · exact mem_of_getElem? howed
    · exact mem_of_mem_eraseIdx hmem
  · exact h

theorem Steady.fetch (h : Steady collection s) :
    Steady collection (s.step engine collection.projectId (.fetch false)) := by
  rw [step]
  split
  · rename_i notice htask
    obtain ⟨path', hpayload⟩ := h.payloads notice (by rw [coming, htask]; exact mem_cons_self)
    refine h.of_agrees h.idle rfl h.connected
      (fun notice' hmem => h.payloads notice' (mem_coming_of_mem_owed hmem)) ?_ rfl
      fun shown queue documentId hagrees => hagrees.fetch htask hpayload rfl
    intro fetched hmem
    obtain rfl := mem_singleton.mp hmem
    exact (subject_event notice.payload hpayload).1
  · exact h

/-- A channel with room takes the event. -/
theorem offer_of_room (hreset : x.reset = false) (hroom : x.queue.length < channelCapacity) :
    x.offer fetched = { x with offered := x.offered ++ [fetched] } := by
  rw [offer, if_neg (by simp [hreset]), if_neg (by omega)]

theorem sub_offer (h : (x.offer fetched).Plain collection) :
    x.Plain collection := by
  rw [offer] at h
  split_ifs at h <;> exact ⟨h.collection, h.filter, h.sinceUpdateTime⟩

theorem Steady.fanOut (h : Steady collection s)
    (hroom : ∀ id x, s.subscribers id = some x → x.Plain collection →
      x.queue.length < channelCapacity) :
    Steady collection (s.step engine project .fanOut) := by
  rw [step]
  split
  · rename_i fetched htask
    have hheld : s.held = [fetched] := by rw [ListenSystem.held, htask]
    refine ⟨h.idle, h.free, h.connected,
      fun notice hmem => h.payloads notice (mem_coming_of_mem_owed hmem), (by rintro _ ⟨⟩),
      fun documentId => agrees_of_held rfl, fun id x' hx' hplain' => ?_⟩
    obtain ⟨x, hx, rfl⟩ := Option.map_eq_some_iff.mp hx'
    have hplain := sub_offer hplain'
    have hjoined := h.joined id x hx hplain
    rw [offer_of_room hjoined.going.1 (hroom id x hx hplain)]
    refine ⟨hjoined.rule, hjoined.going, ?_, fun fetched' hmem => ?_, fun documentId => ?_,
      hjoined.others⟩
    · exact hjoined.taken.trans (by simp)
    · rcases mem_append.mp hmem with hmem | hmem
      · exact hjoined.project fetched' hmem
      · exact h.held fetched' (hheld ▸ hmem)
    · rw [queue, drop_append_of_le_length hjoined.taken]
      exact (hjoined.agrees documentId).fanOut htask
  · exact h

theorem steady_step (hengine : engine.ComparesTimes) (h : Steady collection s) {a : Action}
    (ha : Undisturbed collection s a) :
    Steady collection (s.step engine collection.projectId a) := by
  cases a with
  | write write =>
    obtain ⟨path, hwrite, hid⟩ := ha
    exact h.write hwrite hid
  | tick clock databaseClock =>
    exact h.of_agrees h.idle rfl h.connected h.payloads h.held rfl fun _ _ _ hagrees => hagrees
  | recv i => exact h.recv i
  | fetch fails =>
    obtain rfl : fails = false := ha
    exact h.fetch
  | fanOut => exact h.fanOut ha
  | lose => exact ha.elim
  | reconnect =>
    rw [step]
    split
    · exact h.of_agrees h.idle rfl rfl h.payloads h.held rfl fun _ _ _ hagrees => hagrees
    · exact h
  | register id req =>
    rw [step]
    split
    · refine ⟨h.idle, h.free, h.connected, h.payloads, h.held, h.fresh, fun id' x' hx' hplain => ?_⟩
      rcases update_some hx' with hx' | hnew
      · exact (h.joined id' x' hx' hplain).of_agrees fun _ _ _ hagrees => hagrees
      · exact (Joined.register h.free h.fresh hnew hplain).of_agrees fun _ _ _ hagrees => hagrees
    · exact h
  | snapshot id =>
    exact h.of_onSubscriber (fun _ => sub_takeSnapshot) fun _ => Joined.takeSnapshot hengine
  | deliver id =>
    exact h.of_onSubscriber (fun _ => sub_deliver) fun _ hplain hjoined =>
      hjoined.deliver hplain h.free
  | keepAlive id =>
    exact h.of_onSubscriber (fun _ => sub_keepAlive) fun _ _ hjoined => hjoined.keepAlive
  | sendReset id =>
    exact h.of_onSubscriber (fun _ => sub_sendReset) fun _ _ hjoined => hjoined.sendReset
  | leave id =>
    refine ⟨h.idle, h.free, h.connected, h.payloads, h.held, h.fresh, fun id' x' hx' hplain => ?_⟩
    rcases update_some hx' with hx' | hnew
    · exact (h.joined id' x' hx' hplain).of_agrees fun _ _ _ hagrees => hagrees
    · cases hnew

end ListenSystem

/-- Once every notification has been fetched, every event fanned out and taken, the client of a
target without filter, rule or token shows the visible documents of its collection. -/
theorem snapshot_joins_live {engine : QueryEngine} (hengine : engine.ComparesTimes)
    {collection : CollectionPath} {w : World} (hidle : w.txn = none)
    (hfree : (w.env.rules collection.projectId).Free collection.collectionPath) {s : ListenSystem}
    (hrun : ListenSystem.Reached engine collection.projectId
      (ListenSystem.Undisturbed collection) w s)
    {id : ℕ} {x : Subscriber} (hx : s.subscribers id = some x) (hplain : x.Plain collection)
    {messages : List ListenMessage} (hsent : x.sent = some messages)
    (howed : s.owed = []) (htask : s.task = .receiving) (hqueue : x.queue = []) :
    s.world.ShownBy collection (clientView messages) := by
  have hsteady : s.Steady collection :=
    hrun.invariant (ListenSystem.Steady collection) (steady_start hidle hfree)
      fun s a hs ha => steady_step hengine hs ha
  have hjoined := hsteady.joined id x hx hplain
  refine ⟨fun documentId => ?_, hjoined.others messages hsent⟩
  rcases hjoined.agrees documentId with ⟨notice, hmem, -⟩ | hsettled
  · rw [coming, htask, howed] at hmem
    cases hmem
  · rw [held, htask, hqueue, hsent] at hsettled
    exact hsettled

/-! ## Notes -/

/-- A note is created after the snapshot; what is announced on the channel of the project is
fetched and sent. -/
def noteSent (note : DocumentPath) : List ListenSystem.Action :=
  [.register 0 allNotes, .snapshot 0, .write (.create note ∅), .recv 0, .fetch false, .fanOut,
    .deliver 0]

def afterAll (project : ProjectId) (actions : List ListenSystem.Action) : ListenSystem :=
  actions.foldl (ListenSystem.step timedEngine project) (.start (.holding .still ∅))

/-- The client is sent the new note. -/
theorem snapshot_joins_live_agenda :
    ∃ x messages, (afterAll demo (noteSent agenda)).subscribers 0 = some x ∧
      x.sent = some messages ∧ (clientView messages (documentName agenda)).isSome = true ∧
      (afterAll demo (noteSent agenda)).world.ShownBy ⟨demo, "notes"⟩ (clientView messages) := by
  refine ⟨_, _, rfl, rfl, by decide, ?_⟩
  have hparse : parsePathSegments "notes" = .ok [.literal "notes"] := by decide
  have hroom : ∀ id x, (afterAll demo ((noteSent agenda).take 5)).subscribers id = some x →
      x.Plain ⟨demo, "notes"⟩ → x.queue.length < channelCapacity := by
    intro id x hx _
    rcases id with _ | id
    · cases hx
      decide
    · cases hx
  have hrun : ListenSystem.Reached timedEngine demo (ListenSystem.Undisturbed ⟨demo, "notes"⟩)
      (.holding .still ∅) (afterAll demo (noteSent agenda)) :=
    ListenSystem.Reached.foldl .start ⟨trivial, trivial, ⟨agenda, rfl, fun _ => by decide⟩,
      trivial, rfl, hroom, trivial, trivial⟩
  exact snapshot_joins_live timedEngine_comparesTimes rfl
    (RuleSet.free_of_no_patterns rfl rfl hparse) hrun
    (show (afterAll demo (noteSent agenda)).subscribers 0 = some _ from rfl) ⟨rfl, rfl, rfl⟩
    rfl rfl rfl rfl

/-- All has been processed, and the client still misses a visible note. -/
def Misses (s : ListenSystem) (note : DocumentPath) : Prop :=
  s.owed = [] ∧ s.task = .receiving ∧ (s.world.response note).isSome = true ∧
    ∃ x messages, s.subscribers 0 = some x ∧ x.Plain ⟨demo, "notes"⟩ ∧ x.queue = [] ∧
      x.sent = some messages ∧ (clientView messages (documentName note)).isNone = true

/-- The note `a/b` is fetched as the note `b` of `notes/a`; and nothing is announced on the channel
of another project, whose stream has the same target. -/
theorem slash_note_missed :
    Misses (afterAll demo (noteSent ⟨demo, "notes", "a/b"⟩)) ⟨demo, "notes", "a/b"⟩ ∧
      Misses (afterAll ⟨"other", by decide⟩ (noteSent agenda)) agenda := by
  constructor
  · exact ⟨rfl, rfl, by decide, _, _, rfl, ⟨rfl, rfl, rfl⟩, rfl, rfl, by decide⟩
  · exact ⟨rfl, rfl, by decide, _, _, rfl, ⟨rfl, rfl, rfl⟩, rfl, rfl, by decide⟩

end Embyr
