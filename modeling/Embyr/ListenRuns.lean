import Embyr.HandlerRuns
import Embyr.Listen
import Embyr.ReadAgreement
import Embyr.SoftDelete

/-!
# Runs of a Listen stream

What the parts of a `Listen` stream do in a world, and whole sessions: a target is opened, other
clients write, and the loop is fed what the listener fetches.

* `World.event`, `Subscription.LiveAllows` — what is fetched, and what passes.
* `mem_listenLoop` — where the messages of a loop come from.
* `World.Later` — other clients write and time passes.
* `ListenSession` — a target from its snapshot on.
-/

namespace Embyr

open Program ReadCommitted Subscription List

/-! ## The parts -/

variable {project : ProjectId}

namespace World

variable {w w' : World}

/-- What the listener makes of a payload. -/
def event (w : World) (project : ProjectId) (payload : String) : ListenEvent :=
  match Text.rsplitOnce '/' payload with
  | none => .removed ⟨project, "", payload⟩ ∅
  | some (collectionPath, documentId) =>
    rowEvent ⟨project, collectionPath, documentId⟩
      (w.documentRow ⟨project, collectionPath, documentId⟩)

theorem event_of_split {payload collectionPath documentId : String}
    (h : Text.rsplitOnce '/' payload = some (collectionPath, documentId)) :
    w.event project payload = rowEvent ⟨project, collectionPath, documentId⟩
      (w.documentRow ⟨project, collectionPath, documentId⟩) := by
  rw [event, h]

theorem run_fetchEvent {ε : Type} (w : World) (project : ProjectId) (payload : String) :
    w.run (fetchEvent project payload : Prog Call.Answer ε ListenEvent) =
      (.ok (w.event project payload), w) := by
  rw [fetchEvent, event]
  rcases Text.rsplitOnce '/' payload with _ | ⟨collectionPath, documentId⟩
  · rfl
  · exact congrArg (fun w' => (_, w')) (still_select _ w)

end World

/-- The rule of a target, as the rules of its project give it. -/
def RuleSet.listenRule (rules : RuleSet) (identity : Option AuthContext) (collectionPath : String)
    (filter : Option QueryFilter) : Except Status ListenRule :=
  match rules.readRules[collectionPath]? with
  | some source => do
    let condition ← parseStored readRuleReparse source
    match checkQueryCompliance condition filter (withoutClaims identity) with
    | .admitted => .ok ⟨some condition, ∅, false⟩
    | outcome => .error (queryComplianceRejection outcome)
  | none => do
    let route ← resolveAccessRulePattern rules.patterns collectionPath none
    let (condition, bindings) ← patternCondition route
    return ⟨condition, bindings, route.isNone⟩

/-- The condition for an event, as the rules give it. -/
def RuleSet.eventCondition (rules : RuleSet) (rule : ListenRule) (collectionPath documentId : String) :
    Except Status (Option Condition × StrMap String) :=
  if rule.needsRecursiveRecheck then
    resolveAccessRulePattern rules.patterns collectionPath (some documentId) >>= patternCondition
  else .ok (rule.condition, rule.ancestorBindings)

/-- What the check of an event says under these rules. -/
def Subscription.passesUnder (sub : Subscription) (rules : RuleSet) (path : DocumentPath)
    (fields : Fields) : Except Status Bool :=
  if path.collectionPath = sub.collection.collectionPath then do
    let (condition, bindings) ← rules.eventCondition sub.rule sub.collection.collectionPath
      path.documentId
    return condition.all fun condition =>
      evaluate condition (listenContext sub.identity path.documentId fields bindings) = .allow
  else .ok false

/-- An event about these fields of a document is passed on under these rules. -/
def Subscription.LiveAllows (sub : Subscription) (rules : RuleSet) (path : DocumentPath)
    (fields : Fields) : Prop :=
  path.collectionPath = sub.collection.collectionPath ∧
    ∃ condition bindings, rules.eventCondition sub.rule sub.collection.collectionPath
        path.documentId = .ok (condition, bindings) ∧
      ∀ c, condition = some c →
        evaluate c (listenContext sub.identity path.documentId fields bindings) = .allow

theorem Subscription.passesUnder_iff {sub : Subscription} {rules : RuleSet} {path : DocumentPath}
    {fields : Fields} :
    sub.passesUnder rules path fields = .ok true ↔ sub.LiveAllows rules path fields := by
  rw [passesUnder, LiveAllows]
  split_ifs with hcollection
  · simp only [hcollection, true_and]
    rcases rules.eventCondition sub.rule sub.collection.collectionPath path.documentId with
      e | ⟨condition, bindings⟩
    · simp [bind, Except.bind]
    · simp only [bind, Except.bind, pure, Except.pure, Except.ok.injEq, Prod.mk.injEq]
      rcases condition with _ | c <;> simp
  · exact iff_of_false nofun fun h => hcollection h.1

variable {message : ListenMessage}

namespace World

variable {w w' : World} {sub : Subscription}

/-- Two parts that leave the world as it is. -/
theorem run_bind_same {ε R R' : Type} {p : Prog Call.Answer ε R} {f : R → Prog Call.Answer ε R'}
    {x : Except ε R} {g : R → Except ε R'} (hp : w.run p = (x, w))
    (hf : ∀ a, w.run (f a) = (g a, w)) : w.run (p >>= f) = (x >>= g, w) := by
  rcases x with e | a
  · exact run_bind_of_error hp
  · exact (run_bind_of_ok hp).trans (hf a)

theorem run_resolveListenRule (w : World) (identity : Option AuthContext)
    (collection : CollectionPath) (filter : Option QueryFilter) :
    w.run (resolveListenRule identity collection filter) =
      ((w.env.rules collection.projectId).listenRule identity collection.collectionPath filter,
        w) := by
  have hlookup : w.run (getAccessRule collection.projectId collection.collectionPath) =
      (.ok (w.env.rules collection.projectId).readRules[collection.collectionPath]?, w) := rfl
  rw [resolveListenRule, run_bind_of_ok hlookup, RuleSet.listenRule]
  rcases (w.env.rules collection.projectId).readRules[collection.collectionPath]? with _ | source
  · exact run_bind_same (run_routePattern w _ _ _) fun route =>
      run_bind_same (run_ofExcept _) fun _ => rfl
  · refine run_bind_same (run_ofExcept _) fun condition => ?_
    rcases checkQueryCompliance condition filter (withoutClaims identity) with _ | _ | _ <;> rfl

theorem run_eventCondition (w : World) (sub : Subscription) (documentId : String) :
    w.run (sub.eventCondition documentId) =
      ((w.env.rules sub.collection.projectId).eventCondition sub.rule
        sub.collection.collectionPath documentId, w) := by
  rw [eventCondition, RuleSet.eventCondition]
  split_ifs with hrecheck
  · exact run_bind_same (run_routePattern w _ _ _) fun route => run_ofExcept _
  · rfl

theorem run_passes (w : World) (sub : Subscription) (path : DocumentPath) (fields : Fields) :
    w.run (sub.passes path fields) =
      (sub.passesUnder (w.env.rules sub.collection.projectId) path fields, w) := by
  rw [passes, passesUnder]
  split_ifs with hcollection
  · exact run_bind_same (run_eventCondition w sub path.documentId) fun _ => rfl
  · rfl

theorem run_liveMessage (w : World) (sub : Subscription) (event : ListenEvent) :
    w.run (sub.liveMessage event) =
      ((sub.passesUnder (w.env.rules sub.collection.projectId) event.subject.1
        event.subject.2).map fun passes => if passes then some (sub.message event) else none, w) := by
  refine (run_bind_same (run_passes w sub _ _) fun passes => rfl).trans ?_
  rcases sub.passesUnder (w.env.rules sub.collection.projectId) event.subject.1 event.subject.2 with
    _ | _ <;> rfl

/-- Every message of the loop is the message of an event that has passed, or concerns the whole
target. -/
theorem mem_listenLoop {inputs : List ListenInput} {messages : List ListenMessage}
    (h : w.run (sub.listenLoop inputs) = (.ok messages, w')) (hmem : message ∈ messages) :
    (∃ event, .event event ∈ inputs ∧ message = sub.message event ∧
        sub.LiveAllows (w.env.rules sub.collection.projectId) event.subject.1 event.subject.2) ∨
      (∃ token, message = .noChange token) ∨ message = .reset [sub.targetId] := by
  induction inputs generalizing messages w' with
  | nil =>
    cases h
    cases hmem
  | cons input inputs ih =>
    -- a message of the rest of the inputs
    have hlater : ∀ {messages w'}, w.run (sub.listenLoop inputs) = (.ok messages, w') →
        message ∈ messages → (∃ event, .event event ∈ input :: inputs ∧
          message = sub.message event ∧ sub.LiveAllows (w.env.rules sub.collection.projectId)
            event.subject.1 event.subject.2) ∨
          (∃ token, message = .noChange token) ∨ message = .reset [sub.targetId] := by
      intro messages w' hrun hmem
      refine (ih hrun hmem).imp_left ?_
      rintro ⟨event, hevent, hmessage⟩
      exact ⟨event, mem_cons_of_mem _ hevent, hmessage⟩
    cases input with
    | keepalive =>
      obtain ⟨now, w₁, hnow, h⟩ := run_bind_eq_ok h
      cases hnow
      obtain ⟨rest, w₂, hloop, h⟩ := run_bind_eq_ok h
      cases h
      rcases mem_cons.mp hmem with rfl | hmem
      · exact .inr (.inl ⟨_, rfl⟩)
      · exact hlater hloop hmem
    | event event =>
      obtain ⟨sent, w₁, hrun, h⟩ := run_bind_eq_ok h
      obtain ⟨hsent, rfl⟩ := Prod.mk.inj ((run_liveMessage w sub event).symm.trans hrun)
      obtain ⟨rest, w₂, hloop, h⟩ := run_bind_eq_ok h
      cases h
      rcases mem_append.mp hmem with hmem | hmem
      · obtain ⟨passes, hpasses, rfl⟩ := map_eq_ok hsent
        rcases passes with _ | _
        · cases hmem
        · obtain rfl := mem_singleton.mp hmem
          exact .inl ⟨event, mem_cons_self, rfl, passesUnder_iff.mp hpasses⟩
      · exact hlater hloop hmem
    | reset =>
      cases h
      exact .inr (.inr (mem_singleton.mp hmem))

/-- An event that passes is sent. -/
theorem run_listenLoop_event {event : ListenEvent}
    (h : sub.LiveAllows (w.env.rules sub.collection.projectId) event.subject.1 event.subject.2) :
    w.run (sub.listenLoop [.event event]) = (.ok [sub.message event], w) := by
  have hsent := run_liveMessage w sub event
  rw [passesUnder_iff.mpr h] at hsent
  exact run_bind_of_ok hsent

/-! ## Opening a target -/

/-- The documents of a snapshot, or of the changes since a time. -/
def snapshot (w : World) (engine : QueryEngine) (collection : CollectionPath)
    (filter : Option QueryFilter) (since : Option Timestamp) : List FirestoreDocument :=
  engine.arrange ⟨false, filter, [], none, none, none, none, since⟩
    (((documentsWhere (collection.covers engine false) w.rowsSeen).filterMap asDocument).filter
      fun doc => QueryFilter.optionSelects engine.other filter doc.fields)

/-- The messages a target starts with. -/
def opening (w : World) (engine : QueryEngine) (targetId : Int32) (collection : CollectionPath)
    (filter : Option QueryFilter) (resumeTime : Option Timestamp) : List ListenMessage :=
  ((w.snapshot engine collection filter (freshResumeTime w.env.clock resumeTime)).map
      fun doc => .documentChange (documentToProto doc) [targetId]) ++
    [.current [targetId], .noChange (encodeResumeToken w.env.clock.nextSecond)]

theorem run_snapshot (w : World) (engine : QueryEngine) (collection : CollectionPath)
    (filter : Option QueryFilter) (since : Option Timestamp) :
    w.run ((runQuery engine collection ⟨false, filter, [], none, none, none, none, since⟩
      none).mapError fun _ => Status.backend) =
        (.ok (w.snapshot engine collection filter since), w) := by
  have hquery : w.run (runQuery engine collection
      ⟨false, filter, [], none, none, none, none, since⟩ none) =
        (.ok (w.snapshot engine collection filter since), w) :=
    run_bind_of_ok (run_selectDocuments w engine collection _)
  refine (Prog.run_mapError answer _ _ w).trans ?_
  rw [show Prog.run answer _ w = _ from hquery]
  rfl

variable {engine : QueryEngine} {identity : Option AuthContext} {database : String}
  {target : ListenTarget} {resumeTime : Option Timestamp} {collection : CollectionPath}
  {filter : Option QueryFilter}

theorem run_openTarget {targetId : Int32} (htarget : target.resolve = .ok (collection, filter)) :
    w.run (openTarget engine project identity targetId ⟨database, some target, resumeTime⟩) =
      (((w.env.rules collection.projectId).listenRule identity collection.collectionPath
        filter).map fun rule => (⟨targetId, collection, identity, rule⟩,
          w.opening engine targetId collection filter resumeTime), w) := by
  refine (run_bind_of_ok ((run_ofExcept _).trans (congrArg (·, w) htarget))).trans ?_
  have hrule := run_resolveListenRule w identity collection filter
  rcases hresolved : (w.env.rules collection.projectId).listenRule identity
    collection.collectionPath filter with e | rule
  · rw [hresolved] at hrule
    exact run_bind_of_error hrule
  · rw [hresolved] at hrule
    refine (run_bind_of_ok hrule).trans ?_
    have hnow : w.run (utcNow : Handler Timestamp) = (.ok w.env.clock, w) := rfl
    have hregister : w.run (Prog.ask (Call.register project) : Handler Unit) = (.ok (), w) := rfl
    refine (run_bind_of_ok hnow).trans ((run_bind_of_ok hnow).trans ?_)
    refine (run_bind_of_ok hregister).trans ?_
    exact run_bind_of_ok (run_snapshot w engine collection filter _)

/-- The documents of a snapshot's messages. -/
def documents (messages : List ListenMessage) : List DocumentResponse :=
  messages.filterMap fun
    | .documentChange document _ => some document
    | _ => none

theorem run_listenGate (w : World) (identity : Option AuthContext) (collection : CollectionPath)
    (filter : Option QueryFilter) :
    w.run (listenGate identity collection filter) =
      (((w.env.rules collection.projectId).listenRule identity collection.collectionPath
        filter).map fun _ => (), w) := by
  have hlookup : w.run (getAccessRule collection.projectId collection.collectionPath) =
      (.ok (w.env.rules collection.projectId).readRules[collection.collectionPath]?, w) := rfl
  rw [listenGate, run_bind_of_ok hlookup, RuleSet.listenRule]
  rcases (w.env.rules collection.projectId).readRules[collection.collectionPath]? with _ | source
  · have hroute := run_routePattern w collection.projectId collection.collectionPath none
    rcases hresolve : resolveAccessRulePattern (w.env.rules collection.projectId).patterns
      collection.collectionPath none with e | route
    · rw [hresolve] at hroute
      exact run_bind_of_error hroute
    · rw [hresolve] at hroute
      refine (run_bind_of_ok hroute).trans ?_
      rcases route with _ | ⟨row, bindings⟩
      · rfl
      · change _ = (((patternCondition (some (row, bindings))).bind fun x =>
          .ok (⟨x.1, x.2, false⟩ : ListenRule)).map fun _ => (), w)
        rcases hread : row.readCondition with _ | source
        · simp only [patternCondition, hread]
          rfl
        · simp only [patternCondition, hread]
          rcases parseStored readPatternReparse source with e | condition <;> rfl
  · refine (run_ofExcept _).trans (congrArg (·, w) ?_)
    simp only [checkCompliance]
    rcases parseStored readRuleReparse source with e | condition
    · rfl
    · simp only [bind, Except.bind]
      rcases checkQueryCompliance condition filter (withoutClaims identity) with _ | _ | _ <;> rfl

theorem documents_opening (w : World) (engine : QueryEngine) (targetId : Int32)
    (collection : CollectionPath) (filter : Option QueryFilter) (resumeTime : Option Timestamp) :
    documents (w.opening engine targetId collection filter resumeTime) =
      (w.snapshot engine collection filter (freshResumeTime w.env.clock resumeTime)).map
        documentToProto := by
  rw [opening, documents, filterMap_append, filterMap_map]
  simp only [filterMap_cons_none, filterMap_nil, append_nil]
  exact congrFun (filterMap_eq_map (f := documentToProto)) _

/-- The two accounts of `handle_add_target` agree on what the client is sent first. -/
theorem run_handleAddTarget (targetId : Int32)
    (htarget : target.resolve = .ok (collection, filter)) :
    w.run (handleAddTarget engine project identity ⟨database, some target, resumeTime⟩) =
      ((w.run (openTarget engine project identity targetId
        ⟨database, some target, resumeTime⟩)).1.map fun opened => documents opened.2, w) := by
  rw [run_openTarget htarget]
  refine (run_bind_of_ok ((run_ofExcept _).trans (congrArg (·, w) htarget))).trans ?_
  have hgate := run_listenGate w identity collection filter
  rcases hresolved : (w.env.rules collection.projectId).listenRule identity
    collection.collectionPath filter with e | rule
  · rw [hresolved] at hgate
    exact run_bind_of_error hgate
  · rw [hresolved] at hgate
    refine (run_bind_of_ok hgate).trans ?_
    have hnow : w.run (utcNow : Handler Timestamp) = (.ok w.env.clock, w) := rfl
    have hregister : w.run (Prog.ask (Call.register project) : Handler Unit) = (.ok (), w) := rfl
    refine (run_bind_of_ok hnow).trans ((run_bind_of_ok hregister).trans ?_)
    refine (run_bind_of_ok (run_snapshot w engine collection filter _)).trans ?_
    exact congrArg (fun docs => (Except.ok docs, w)) (documents_opening w engine targetId ..).symm

end World

/-! ## Other clients -/

/-- What other clients ask of the database. -/
inductive ClientWrite where
  | create (path : DocumentPath) (fields : Fields)
  | update (path : DocumentPath) (fields : Fields) (precondition : Option WritePrecondition)
  | delete (path : DocumentPath) (precondition : Option WritePrecondition)
  | begin (project : ProjectId)
  | commit (project : ProjectId) (id : TransactionId) (writes : List Write)

/-- The world after a write. -/
def ClientWrite.apply (w : World) : ClientWrite → World
  | create path fields => (w.run (createDocument path fields)).2
  | update path fields precondition => (w.run (updateDocument path fields precondition)).2
  | delete path precondition => (w.run (deleteDocument path precondition)).2
  | begin project => (w.run (beginTransaction project)).2
  | commit project id writes => (w.run (commitTransaction project id writes)).2

namespace World

/-- A client writes, or time passes. -/
inductive Step (w : World) : World → Prop
  | write (write : ClientWrite) : Step w (write.apply w)
  | tick (clock databaseClock : Timestamp) (hclock : w.env.clock.toNanos ≤ clock.toNanos)
      (hdatabase : w.env.databaseClock.toNanos ≤ databaseClock.toNanos) :
      Step w { w with env := { w.env with clock := clock, databaseClock := databaseClock } }

/-- A world that may come after another. -/
abbrev Later : World → World → Prop := Relation.ReflTransGen Step

/-- The worlds differ in their rows and clocks. -/
def SameRules (w w' : World) : Prop :=
  w'.env = { w.env with clock := w'.env.clock, databaseClock := w'.env.databaseClock }

variable {w w' : World}

theorem ClientWrite.apply_env (w : World) (write : ClientWrite) : (write.apply w).env = w.env := by
  cases write <;> exact run_env _ w

theorem Later.sameRules (h : Later w w') : SameRules w w' := by
  induction h with
  | refl => rfl
  | tail _ hstep ih =>
    rw [SameRules] at ih
    cases hstep with
    | write write =>
      rw [SameRules, ClientWrite.apply_env, ← ih]
    | tick clock databaseClock =>
      rw [SameRules, ih]

/-- In a later world the listener has been notified of the payload. -/
def Notifies (w v : World) (project : ProjectId) (payload : String) : Prop :=
  w.Later v ∧ ∃ sent, v.notified = sent ++ w.notified ∧ (project, payload) ∈ sent

end World

/-! ## Sessions -/

/-- What the loop of a session is fed, and where it comes from. -/
inductive Feed where
  | keepalive
  | fetched (world : World) (payload : String)
  | reset

/-- The feed as the loop sees it. -/
def Feed.input (project : ProjectId) : Feed → ListenInput
  | keepalive => .keepalive
  | fetched world payload => .event (world.event project payload)
  | reset => .reset

/-- A target on the stream of a project: it is opened between two requests, and its loop is fed
what the listener fetches for notifications that are sent from then on. -/
structure ListenSession (engine : QueryEngine) (project : ProjectId)
    (identity : Option AuthContext) (target : ListenTarget) where
  targetId : Int32
  database : String
  resumeTime : Option Timestamp
  opened : World
  sub : Subscription
  first : List ListenMessage
  feed : List Feed
  live : List ListenMessage
  idle : opened.txn = none
  opening : opened.run (openTarget engine project identity targetId
    ⟨database, some target, resumeTime⟩) = (.ok (sub, first), opened)
  fetching : ∀ v payload, .fetched v payload ∈ feed → opened.Notifies v project payload
  looping : (opened.run (sub.listenLoop (feed.map (Feed.input project)))).1 = .ok live

namespace ListenSession

variable {engine : QueryEngine} {project : ProjectId} {identity : Option AuthContext}
  {target : ListenTarget} {collection : CollectionPath} {filter : Option QueryFilter}

/-- What a session has been opened with. -/
theorem opening_eq (s : ListenSession engine project identity target)
    (htarget : target.resolve = .ok (collection, filter)) :
    (s.opened.env.rules collection.projectId).listenRule identity collection.collectionPath filter =
        .ok s.sub.rule ∧
      s.sub = ⟨s.targetId, collection, identity, s.sub.rule⟩ ∧
      s.first = s.opened.opening engine s.targetId collection filter s.resumeTime := by
  obtain ⟨hopen, -⟩ := Prod.mk.inj ((World.run_openTarget htarget).symm.trans s.opening)
  obtain ⟨rule, hrule, hopen⟩ := map_eq_ok hopen
  obtain ⟨hsub, hfirst⟩ := Prod.mk.inj hopen
  rw [← hsub]
  exact ⟨hrule, rfl, hfirst.symm⟩

/-- A message about a document is the message of something fetched that has passed. -/
theorem mem_live (s : ListenSession engine project identity target) (hmem : message ∈ s.live) :
    (∃ v payload, .fetched v payload ∈ s.feed ∧ message = s.sub.message (v.event project payload) ∧
        s.sub.LiveAllows (s.opened.env.rules s.sub.collection.projectId)
          (v.event project payload).subject.1 (v.event project payload).subject.2) ∨
      (∃ token, message = .noChange token) ∨ message = .reset [s.sub.targetId] := by
  have hrun : s.opened.run (s.sub.listenLoop (s.feed.map (Feed.input project))) =
      (.ok s.live, (s.opened.run (s.sub.listenLoop (s.feed.map (Feed.input project)))).2) :=
    Prod.ext s.looping rfl
  refine (World.mem_listenLoop hrun hmem).imp_left ?_
  rintro ⟨event, hevent, hmessage, hallows⟩
  obtain ⟨fed, hfed, hinput⟩ := mem_map.mp hevent
  cases fed with
  | keepalive | reset => cases hinput
  | fetched v payload =>
    cases hinput
    exact ⟨v, payload, hfed, hmessage, hallows⟩

end ListenSession

end Embyr
