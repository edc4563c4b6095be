import Embyr.ChangeNotice
import Embyr.ListenFilter

/-!
# The listener of a project and its subscribers

The task of `PostgresNotifyListener::start`, the registry it fans out to
(`realtime/listen_registry.rs`) and the streams that take from it, together with the clients that
write and the connection that may break.

* `ListenSystem`, `ListenSystem.Action` — the state, and what may happen next, in any order.
* `ListenSystem.step` — what each of these does.
* `ListenSystem.Reached` — the states of the runs whose actions all meet a condition.
* `ClientWrite.apply_eq_or` — a write of one document leaves everything, or changes and announces
  its row.

Each write is a moment of its own, and the rows of every moment are kept. They are what a
property of a run speaks of; no action reads them.
-/

namespace Embyr

open Program ReadCommitted

/-! ## States -/

/-- A notification on its way, and the moment of its write. -/
structure Notice where
  payload : String
  sentAt : ℕ

/-- What `fetch_event` has returned, and at which moment. -/
structure Fetched where
  event : ListenEvent
  sentAt : ℕ
  fetchedAt : ℕ

/-- Where the loop of the listener is. -/
inductive ListenerTask where
  | receiving
  | fetching (notice : Notice)
  | fanningOut (fetched : Fetched)

/-- A registered target: its channel, as all that was ever sent into it and how much of that has
been taken out, and its stream. -/
structure Subscriber where
  sub : Subscription
  filter : Option QueryFilter
  sinceUpdateTime : Option Timestamp
  snapshotTs : Timestamp
  registeredAt : ℕ
  offered : List Fetched
  taken : ℕ
  /-- nothing before the snapshot -/
  sent : Option (List ListenMessage)
  /-- `reset_notify` has fired, and the registry has dropped the entry -/
  reset : Bool
  ended : Bool

structure ListenSystem where
  world : World
  now : ℕ
  rowsAt : ℕ → Rows
  connected : Bool
  owed : List Notice
  task : ListenerTask
  subscribers : ℕ → Option Subscriber

/-! ## Subscribers -/

/-- `mpsc::channel(64)`. -/
def channelCapacity : ℕ := 64

namespace Subscriber

/-- The events in the channel. -/
def queue (x : Subscriber) : List Fetched := x.offered.drop x.taken

/-- What `fan_out` does with an entry. -/
def offer (fetched : Fetched) (x : Subscriber) : Subscriber :=
  if x.reset then x
  else if channelCapacity ≤ x.queue.length then { x with reset := true }
  else { x with offered := x.offered ++ [fetched] }

/-- The snapshot query and the messages up to the first token. -/
def opening (engine : QueryEngine) (w : World) (x : Subscriber) : List ListenMessage :=
  ((w.snapshot engine x.sub.collection x.filter x.sinceUpdateTime).map
      fun doc => .documentChange (documentToProto doc) [x.sub.targetId]) ++
    [.current [x.sub.targetId], .noChange (encodeResumeToken x.snapshotTs.nextSecond)]

def takeSnapshot (engine : QueryEngine) (w : World) (x : Subscriber) : Subscriber :=
  match x.sent with
  | none => { x with sent := some (x.opening engine w) }
  | some _ => x

/-- The stream takes an event out of its channel. An error ends it. -/
def deliver (w : World) (x : Subscriber) : Subscriber :=
  match x.ended, x.sent, x.offered[x.taken]? with
  | false, some sent, some fetched =>
    match (w.run (x.sub.liveMessage fetched.event)).1 with
    | .ok message => { x with taken := x.taken + 1, sent := some (sent ++ message.toList) }
    | .error _ => { x with taken := x.taken + 1, ended := true }
  | _, _, _ => x

def keepAlive (w : World) (x : Subscriber) : Subscriber :=
  match x.ended, x.sent with
  | false, some sent =>
    { x with sent := some (sent ++ [.noChange (encodeResumeToken w.env.clock.nextSecond)]) }
  | _, _ => x

/-- The branch of `reset_notify`. -/
def sendReset (x : Subscriber) : Subscriber :=
  match x.ended, x.reset, x.sent with
  | false, true, some sent => { x with sent := some (sent ++ [.reset [x.sub.targetId]]), ended := true }
  | _, _, _ => x

end Subscriber

/-! ## Actions -/

/-- A target as `handle_add_target` has read it. -/
structure TargetRequest where
  targetId : Int32
  collection : CollectionPath
  identity : Option AuthContext
  filter : Option QueryFilter
  resumeTime : Option Timestamp

/-- The rule is resolved and the target registered. -/
def TargetRequest.register (w : World) (now : ℕ) (req : TargetRequest) : Option Subscriber :=
  match (w.env.rules req.collection.projectId).listenRule req.identity
    req.collection.collectionPath req.filter with
  | .ok rule => some ⟨⟨req.targetId, req.collection, req.identity, rule⟩, req.filter,
      freshResumeTime w.env.clock req.resumeTime, w.env.clock, now, [], 0, none, false, false⟩
  | .error _ => none

/-- The event of a payload whose row could not be read. -/
def failedEvent (project : ProjectId) (payload : String) : ListenEvent :=
  match Text.rsplitOnce '/' payload with
  | none => .removed ⟨project, "", payload⟩ ∅
  | some (collectionPath, documentId) => .removed ⟨project, collectionPath, documentId⟩ ∅

variable {project : ProjectId}

/-- It is what `fetch_event` makes of any error of its query. -/
theorem fetchEvent_of_error {ε : Type} {payload collectionPath documentId : String}
    (h : Text.rsplitOnce '/' payload = some (collectionPath, documentId)) :
    ∃ k, (fetchEvent project payload : Prog Call.Answer ε ListenEvent) =
        .call (.sql (.select (.document ⟨project, collectionPath, documentId⟩))) k ∧
      ∀ e, k (.error e) = .ok (failedEvent project payload) := by
  rw [fetchEvent, failedEvent, h]
  exact ⟨_, rfl, fun _ => rfl⟩

/-- The notifications that a world has sent since an earlier one. -/
def World.sentSince (w w' : World) : List (ProjectId × String) :=
  w'.notified.take (w'.notified.length - w.notified.length)

variable {w : World}

namespace ListenSystem

inductive Action where
  /-- a client writes -/
  | write (write : ClientWrite)
  | tick (clock databaseClock : Timestamp)
  /-- the listener receives one of the notifications on their way -/
  | recv (i : ℕ)
  | fetch (fails : Bool)
  | fanOut
  /-- the connection breaks, and what was on its way is lost -/
  | lose
  | reconnect
  | register (id : ℕ) (req : TargetRequest)
  | snapshot (id : ℕ)
  | deliver (id : ℕ)
  | keepAlive (id : ℕ)
  | sendReset (id : ℕ)
  | leave (id : ℕ)

/-- The notifications of a write for the channel of the project. -/
def notices (project : ProjectId) (s : ListenSystem) (write : ClientWrite) : List Notice :=
  ((s.world.sentSince (write.apply s.world)).filter (·.1 = project)).map
    fun sent => ⟨sent.2, s.now + 1⟩

def afterWrite (project : ProjectId) (s : ListenSystem) (write : ClientWrite) : ListenSystem :=
  { s with
    world := write.apply s.world
    now := s.now + 1
    rowsAt := Function.update s.rowsAt (s.now + 1) (write.apply s.world).documentRow
    owed := if s.connected then s.owed ++ s.notices project write else s.owed }

/-- What the query of `fetch_event` gives now. -/
def fetched (project : ProjectId) (s : ListenSystem) (fails : Bool) (notice : Notice) : Fetched where
  event := if fails then failedEvent project notice.payload
    else s.world.event project notice.payload
  sentAt := notice.sentAt
  fetchedAt := s.now

/-- One subscriber goes on by itself. -/
def onSubscriber (s : ListenSystem) (id : ℕ) (f : Subscriber → Subscriber) : ListenSystem :=
  { s with subscribers := Function.update s.subscribers id ((s.subscribers id).map f) }

/-- An action that is not possible changes nothing. -/
def step (engine : QueryEngine) (project : ProjectId) (s : ListenSystem) : Action → ListenSystem
  | .write write => s.afterWrite project write
  | .tick clock databaseClock =>
    { s with world := { s.world with
        env := { s.world.env with clock := clock, databaseClock := databaseClock } } }
  | .recv i =>
    match s.task, s.owed[i]? with
    | .receiving, some notice =>
      { s with owed := s.owed.eraseIdx i, task := .fetching notice }
    | _, _ => s
  | .fetch fails =>
    match s.task with
    | .fetching notice => { s with task := .fanningOut (s.fetched project fails notice) }
    | _ => s
  | .fanOut =>
    match s.task with
    | .fanningOut fetched =>
      { s with task := .receiving, subscribers := fun id => (s.subscribers id).map (·.offer fetched) }
    | _ => s
  | .lose => { s with connected := false, owed := [] }
  | .reconnect =>
    match s.task with
    | .receiving => { s with connected := true }
    | _ => s
  | .register id req =>
    match s.subscribers id with
    | none => { s with subscribers := Function.update s.subscribers id (req.register s.world s.now) }
    | some _ => s
  | .snapshot id => s.onSubscriber id (·.takeSnapshot engine s.world)
  | .deliver id => s.onSubscriber id (·.deliver s.world)
  | .keepAlive id => s.onSubscriber id (·.keepAlive s.world)
  | .sendReset id => s.onSubscriber id (·.sendReset)
  | .leave id => { s with subscribers := Function.update s.subscribers id none }

/-- The listener has just been started. -/
def start (w : World) : ListenSystem :=
  ⟨w, 0, fun _ => w.documentRow, true, [], .receiving, fun _ => none⟩

/-- The states of the runs whose actions all meet the condition. -/
inductive Reached (engine : QueryEngine) (project : ProjectId)
    (guard : ListenSystem → Action → Prop) (w : World) : ListenSystem → Prop
  | start : Reached engine project guard w (start w)
  | step {s : ListenSystem} {a : Action} : Reached engine project guard w s → guard s a →
      Reached engine project guard w (s.step engine project a)

/-- The actions, one after the other, meet the condition. -/
def Meets (engine : QueryEngine) (project : ProjectId) (guard : ListenSystem → Action → Prop)
    (s : ListenSystem) : List Action → Prop
  | [] => True
  | a :: actions => guard s a ∧ Meets engine project guard (s.step engine project a) actions

variable {engine : QueryEngine} {guard : ListenSystem → Action → Prop} {s : ListenSystem}

theorem Reached.foldl (h : Reached engine project guard w s) {actions : List Action}
    (hactions : s.Meets engine project guard actions) :
    Reached engine project guard w (actions.foldl (ListenSystem.step engine project) s) := by
  induction actions generalizing s with
  | nil => exact h
  | cons a actions ih => exact ih (h.step hactions.1) hactions.2

/-- An invariant holds at the start and is kept by every action that meets the condition. -/
theorem Reached.invariant (Inv : ListenSystem → Prop) (hstart : Inv (.start w))
    (hstep : ∀ s a, Inv s → guard s a → Inv (s.step engine project a))
    (h : Reached engine project guard w s) : Inv s := by
  induction h with
  | start => exact hstart
  | step _ hguard ih => exact hstep _ _ ih hguard

/-- The notifications that the listener has still to fetch. -/
def coming (s : ListenSystem) : List Notice :=
  match s.task with
  | .fetching notice => notice :: s.owed
  | _ => s.owed

end ListenSystem

/-! ## Writes of one document -/

/-- The document of a call that writes one. -/
def ClientWrite.document : ClientWrite → Option DocumentPath
  | create path _ | update path _ _ | delete path _ => some path
  | begin _ | commit _ _ _ => none

namespace World

variable {w : World} {path : DocumentPath}

/-- The row has been written and the write announced. -/
def announceRow (w : World) (path : DocumentPath) (row : DocumentRow) : World :=
  { w.put (.document path) row with notified := (path.projectId, readKey path) :: w.notified }

theorem sentSince_self (w : World) : w.sentSince w = [] := by
  rw [sentSince, Nat.sub_self, List.take_zero]

theorem sentSince_announceRow (row : DocumentRow) :
    w.sentSince (w.announceRow path row) = [(path.projectId, readKey path)] := by
  simp [sentSince, announceRow]

theorem documentRow_announceRow (row : DocumentRow) :
    (w.announceRow path row).documentRow = Function.update w.documentRow path (some row) :=
  documentRow_put

theorem txn_announceRow (hidle : w.txn = none) (row : DocumentRow) :
    (w.announceRow path row).txn = none :=
  txn_put_of_idle hidle

theorem apply_conditional {fields : Fields} {p : DocumentRow → Bool}
    {f : Option DocumentRow → Adapter WriteResult}
    (hsome : ∀ row, ∃ x, f (some row) = (sendNotify path >>= fun _ => pure x))
    (hnone : (w.run (f none)).2 = w) :
    (w.run (sql (.update (.document path) p
        (DocumentRow.overwrite fields w.env.databaseClock.stored)) >>= f)).2 = w ∨
      ∃ row, (w.run (sql (.update (.document path) p
        (DocumentRow.overwrite fields w.env.databaseClock.stored)) >>= f)).2 =
          w.announceRow path row := by
  rcases run_conditional w path fields p with ⟨row, -, -, hrun⟩ | ⟨-, hrun⟩
  · obtain ⟨x, hx⟩ := hsome (w.written path fields)
    rw [run_bind_of_ok hrun, hx]
    exact .inr ⟨w.written path fields, rfl⟩
  · rw [run_bind_of_ok hrun]
    exact .inl hnone

theorem apply_insert (hidle : w.txn = none) (fields : Fields) {R : Type}
    {f : DocumentRow → Adapter R}
    (hf : ∀ row, ∃ x, f row = (sendNotify path >>= fun _ => pure x)) :
    (w.run (insertDocument path fields >>= f)).2 = w ∨
      ∃ row, (w.run (insertDocument path fields >>= f)).2 = w.announceRow path row := by
  rcases hrow : w.documentRow path with _ | old
  · obtain ⟨x, hx⟩ := hf (w.written path fields)
    rw [run_bind_of_ok (run_insertDocument_none hrow fields), hx]
    exact .inr ⟨w.written path fields, rfl⟩
  · have hexec : w.execute (.insert (.document path)
        (DocumentRow.fresh fields w.env.databaseClock.stored)) = (.error .uniqueViolation, w) := by
      simp only [execute, exec_insert_some (show (view w.rows w.txn).lookup (.document path) =
        some old from hrow), AList.empty_union]
      rw [← hidle]
    have hrun := run_insertDocument_eq w path fields
    dsimp only at hrun
    rw [hexec] at hrun
    exact .inl (congrArg Prod.snd (run_bind_of_error hrun))

end World

/-- A write of one document either leaves everything as it is, or changes the row and announces
it. -/
theorem ClientWrite.apply_eq_or {path : DocumentPath} (hidle : w.txn = none) {write : ClientWrite}
    (hwrite : write.document = some path) :
    write.apply w = w ∨ ∃ row, write.apply w = w.announceRow path row := by
  cases write with
  | create path' fields =>
    cases hwrite
    exact World.apply_insert hidle fields fun row => ⟨_, rfl⟩
  | update path' fields precondition =>
    obtain rfl := Option.some.inj hwrite
    rw [ClientWrite.apply]
    rcases precondition with _ | _ | _ | t
    · exact .inr ⟨w.written path' fields, rfl⟩
    · exact World.apply_conditional (fun row => ⟨_, rfl⟩) rfl
    · exact World.apply_insert hidle fields fun row => ⟨_, rfl⟩
    · rcases htime : toDatetime t with e | expected
      · rw [updateDocument, htime]
        exact .inl rfl
      · rw [updateDocument, htime]
        refine World.apply_conditional (fun row => ⟨_, rfl⟩) ?_
        -- the second look only chooses the error
        rw [World.run_bind_of_ok World.run_select]
        split <;> rfl
  | delete path' precondition =>
    obtain rfl := Option.some.inj hwrite
    rw [ClientWrite.apply]
    rcases hrow : (w.documentRow path').filter DocumentRow.visible with _ | row
    · exact .inl (congrArg Prod.snd (World.run_bind_of_ok (World.run_update_none hrow)))
    · refine .inr ⟨row.remove w.env.databaseClock.stored, ?_⟩
      exact congrArg Prod.snd (World.run_bind_of_ok (World.run_update_some hrow))
  | begin project => cases hwrite
  | commit project id writes => cases hwrite

end Embyr
