import Embyr.ListenSystem

/-!
# What the failures of a listener hide

The loop of a listener absorbs every error: a row that cannot be read is reported as deleted, and
after a broken connection it listens again without telling its subscribers. A subscriber learns
of a loss only if its own channel is full.

* `ListenSystem.Honest` — every change is offered, on its way or followed by a `RESET`, and every
  deletion that is fanned out has happened.
* `ListenSystem.Harmless` — the actions that hide nothing.
* `failures_seen_iff` — runs are honest as long as their actions are harmless, and no longer.
-/

namespace Embyr

open Program ReadCommitted ListenSystem Function List

/-- The event is about the document, and was fetched after the moment. -/
def Fetched.Serves (fetched : Fetched) (path : DocumentPath) (t : ℕ) : Prop :=
  fetched.event.subject.1 = path ∧ t < fetched.fetchedAt

namespace ListenSystem

/-! ## Honest states -/

section Honest

variable (project : ProjectId) (s : ListenSystem)

/-- The write after the moment has changed the document. -/
def Changes (path : DocumentPath) (t : ℕ) : Prop :=
  path.projectId = project ∧ t < s.now ∧ s.rowsAt (t + 1) path ≠ s.rowsAt t path

/-- The listener has still to fetch the document. -/
def Coming (path : DocumentPath) : Prop := ∃ notice ∈ s.coming, NamesDocument notice.payload path

/-- The listener is about to fan out an event for what the document became after the moment. -/
def Fanning (path : DocumentPath) (t : ℕ) : Prop :=
  ∃ fetched, s.task = .fanningOut fetched ∧ fetched.Serves path t

/-- The subscriber has been offered an event for the change, or a `RESET`, or will be. -/
def Accounted (x : Subscriber) (path : DocumentPath) (t : ℕ) : Prop :=
  x.reset = true ∨ (∃ fetched ∈ x.offered, fetched.Serves path t) ∨ s.Coming path ∨ s.Fanning path t

/-- Readers have missed the document at some moment since. -/
def Gone (path : DocumentPath) (t : ℕ) : Prop :=
  ∃ k, t ≤ k ∧ k ≤ s.now ∧ (s.rowsAt k).visible path = none

/-- No change is hidden from a subscriber that was registered before, and what is fanned out as a
deletion was one. -/
structure Honest : Prop where
  accounted : ∀ id x, s.subscribers id = some x → ∀ path t, x.registeredAt ≤ t →
    s.Changes project path t → s.Accounted x path t
  deletes : ∀ fetched path fields, s.task = .fanningOut fetched →
    fetched.event = .removed path fields → s.Gone path fetched.sentAt

/-- An action that hides nothing: changes are announced over a connection that holds, rows are
read, and the connection breaks only when nobody waits for what is on its way. -/
def Harmless : Action → Prop
  | .write write => ∀ path, path.projectId = project →
      (write.apply s.world).documentRow path ≠ s.world.documentRow path →
        (s.connected = true ∧ ∃ notice ∈ s.notices project write,
            NamesDocument notice.payload path) ∨
          s.Coming path ∨ ∀ id x, s.subscribers id = some x → x.reset = true
  | .fetch fails => ∀ notice, s.task = .fetching notice →
      fails = true ∨ Text.rsplitOnce '/' notice.payload = none →
        s.Gone (failedEvent project notice.payload).subject.1 notice.sentAt
  | .lose => ∀ id x, s.subscribers id = some x → ∀ path t, x.registeredAt ≤ t →
      s.Changes project path t →
        x.reset = true ∨ (∃ fetched ∈ x.offered, fetched.Serves path t) ∨
          (∃ notice, s.task = .fetching notice ∧ NamesDocument notice.payload path) ∨
            s.Fanning path t
  | _ => True

end Honest

/-! ## Moments -/

/-- What has happened, has happened by now. -/
structure Timely (s : ListenSystem) : Prop where
  rows : s.rowsAt s.now = s.world.documentRow
  coming : ∀ notice ∈ s.coming, notice.sentAt ≤ s.now
  fanning : ∀ fetched, s.task = .fanningOut fetched → fetched.fetchedAt ≤ s.now
  registered : ∀ id x, s.subscribers id = some x →
    x.registeredAt ≤ s.now ∧ ∀ fetched ∈ x.offered, fetched.fetchedAt ≤ s.now

variable {engine : QueryEngine} {project : ProjectId} {s s' : ListenSystem} {path : DocumentPath}
  {t : ℕ}

/-- The entry of a subscriber in the registry, apart from how far its stream has got. -/
structure Grows (x x' : Subscriber) : Prop where
  registeredAt : x'.registeredAt = x.registeredAt
  offered : x'.offered = x.offered
  reset : x'.reset = x.reset

theorem Grows.rfl {x : Subscriber} : Grows x x := ⟨Eq.refl _, Eq.refl _, Eq.refl _⟩

theorem grows_takeSnapshot (w : World) (x : Subscriber) : Grows x (x.takeSnapshot engine w) := by
  rw [Subscriber.takeSnapshot]
  split <;> exact ⟨rfl, rfl, rfl⟩

theorem grows_deliver (w : World) (x : Subscriber) : Grows x (x.deliver w) := by
  rw [Subscriber.deliver]
  split
  · split <;> exact ⟨rfl, rfl, rfl⟩
  · exact .rfl

theorem grows_keepAlive (w : World) (x : Subscriber) : Grows x (x.keepAlive w) := by
  rw [Subscriber.keepAlive]
  split <;> exact ⟨rfl, rfl, rfl⟩

theorem grows_sendReset (x : Subscriber) : Grows x x.sendReset := by
  rw [Subscriber.sendReset]
  split <;> exact ⟨rfl, rfl, rfl⟩

/-- What `fan_out` leaves of an entry. -/
theorem offer_cases (fetched : Fetched) (x : Subscriber) :
    (x.offer fetched).registeredAt = x.registeredAt ∧ x.offered ⊆ (x.offer fetched).offered ∧
      (x.reset = true → (x.offer fetched).reset = true) ∧
      ((x.offer fetched).reset = true ∨ fetched ∈ (x.offer fetched).offered) ∧
      ∀ fetched' ∈ (x.offer fetched).offered, fetched' ∈ x.offered ∨ fetched' = fetched := by
  rw [Subscriber.offer]
  split_ifs with hreset hfull
  · exact ⟨rfl, fun _ h => h, fun h => h, .inl hreset, fun _ h => .inl h⟩
  · exact ⟨rfl, fun _ h => h, fun _ => rfl, .inl rfl, fun _ h => .inl h⟩
  · refine ⟨rfl, subset_append_left _ _, fun h => h, .inr ?_, ?_⟩
    · exact mem_append_right _ (mem_singleton.mpr rfl)
    · intro fetched' h
      rcases mem_append.mp h with h | h
      · exact .inl h
      · exact .inr (mem_singleton.mp h)

variable {id : ℕ} {f : Subscriber → Subscriber}

theorem onSubscriber_some {id' : ℕ} {x' : Subscriber}
    (h : (s.onSubscriber id f).subscribers id' = some x') :
    ∃ x, s.subscribers id' = some x ∧ (x' = x ∨ x' = f x) := by
  by_cases hid : id' = id
  · subst hid
    simp only [onSubscriber, update_self] at h
    obtain ⟨x, hx, rfl⟩ := Option.map_eq_some_iff.mp h
    exact ⟨x, hx, .inr rfl⟩
  · simp only [onSubscriber, update_of_ne hid] at h
    exact ⟨x', h, .inl rfl⟩

theorem update_some {id' : ℕ} {x : Option Subscriber} {x' : Subscriber}
    (h : update s.subscribers id x id' = some x') :
    s.subscribers id' = some x' ∨ x = some x' := by
  by_cases hid : id' = id
  · subst hid
    rw [update_self] at h
    exact .inr h
  · rw [update_of_ne hid] at h
    exact .inl h

/-- A subscriber that has just been registered. -/
theorem registeredAt_register {w : World} {now : ℕ} {req : TargetRequest} {x : Subscriber}
    (h : req.register w now = some x) : x.registeredAt = now ∧ x.offered = [] := by
  rw [TargetRequest.register] at h
  split at h
  · cases h
    exact ⟨rfl, rfl⟩
  · cases h

theorem timely_start (w : World) : Timely (.start w) :=
  ⟨rfl, nofun, nofun, nofun⟩

theorem Timely.of_onSubscriber (h : Timely s)
    (hf : ∀ x, Grows x (f x)) : Timely (s.onSubscriber id f) := by
  refine ⟨h.rows, h.coming, h.fanning, fun id' x' hx' => ?_⟩
  obtain ⟨x, hx, rfl | rfl⟩ := onSubscriber_some hx'
  · exact h.registered id' x' hx
  · rw [(hf x).registeredAt, (hf x).offered]
    exact h.registered id' x hx

variable {write : ClientWrite} {notice : Notice}

theorem mem_coming_afterWrite :
    notice ∈ (s.afterWrite project write).coming ↔
      notice ∈ s.coming ∨ (s.connected = true ∧ notice ∈ s.notices project write) := by
  rw [coming, coming, afterWrite]
  by_cases hconnected : s.connected = true <;> rcases s.task with _ | notice' | fetched <;>
    simp [hconnected, or_assoc]

theorem sentAt_of_mem_notices
    (h : notice ∈ s.notices project write) : notice.sentAt = s.now + 1 := by
  obtain ⟨sent, -, rfl⟩ := mem_map.mp h
  rfl

theorem Timely.afterWrite (h : Timely s) (write : ClientWrite) :
    Timely (s.afterWrite project write) := by
  refine ⟨update_self .., fun notice hmem => ?_, fun fetched hfanning => ?_,
    fun id x hx => ?_⟩
  · rcases mem_coming_afterWrite.mp hmem with hmem | ⟨-, hmem⟩
    · exact Nat.le_succ_of_le (h.coming notice hmem)
    · exact (sentAt_of_mem_notices hmem).le
  · exact Nat.le_succ_of_le (h.fanning fetched hfanning)
  · obtain ⟨hregistered, hoffered⟩ := h.registered id x hx
    exact ⟨Nat.le_succ_of_le hregistered,
      fun fetched hmem => Nat.le_succ_of_le (hoffered fetched hmem)⟩

theorem mem_coming_of_mem_owed (h : notice ∈ s.owed) : notice ∈ s.coming := by
  rw [coming]
  split
  · exact mem_cons_of_mem _ h
  · exact h

theorem timely_step (h : Timely s) (a : Action) : Timely (s.step engine project a) := by
  cases a with
  | write write => exact h.afterWrite write
  | tick clock databaseClock => exact ⟨h.rows, h.coming, h.fanning, h.registered⟩
  | recv i =>
    rw [step]
    split
    · rename_i notice htask howed
      refine ⟨h.rows, fun notice' hmem => ?_, nofun, h.registered⟩
      refine h.coming notice' (mem_coming_of_mem_owed ?_)
      rcases mem_cons.mp hmem with rfl | hmem
      · exact mem_of_getElem? howed
      · exact mem_of_mem_eraseIdx hmem
    · exact h
  | fetch fails =>
    rw [step]
    split
    · refine ⟨h.rows, fun notice hmem => h.coming notice (mem_coming_of_mem_owed hmem), ?_,
        h.registered⟩
      rintro fetched ⟨⟩
      exact le_rfl
    · exact h
  | fanOut =>
    rw [step]
    split
    · rename_i fetched htask
      refine ⟨h.rows, fun notice hmem => h.coming notice (mem_coming_of_mem_owed hmem), nofun,
        fun id x' hx' => ?_⟩
      obtain ⟨x, hx, rfl⟩ := Option.map_eq_some_iff.mp hx'
      obtain ⟨hregistered, -, -, -, hoffered⟩ := offer_cases fetched x
      obtain ⟨hregistered', hoffered'⟩ := h.registered id x hx
      refine ⟨hregistered.trans_le hregistered', fun fetched' hmem => ?_⟩
      rcases hoffered fetched' hmem with hmem | rfl
      · exact hoffered' fetched' hmem
      · exact h.fanning fetched' htask
    · exact h
  | lose =>
    refine ⟨h.rows, fun notice hmem => h.coming notice ?_, h.fanning, h.registered⟩
    rw [coming] at hmem ⊢
    simp only [step] at hmem
    split at hmem
    · exact mem_cons.mpr (.inl (mem_singleton.mp hmem))
    · cases hmem
  | reconnect =>
    rw [step]
    split
    · exact ⟨h.rows, h.coming, h.fanning, h.registered⟩
    · exact h
  | register id req =>
    rw [step]
    split
    · refine ⟨h.rows, h.coming, h.fanning, fun id' x' hx' => ?_⟩
      rcases update_some hx' with hx' | hnew
      · exact h.registered id' x' hx'
      · obtain ⟨hregistered, hoffered⟩ := registeredAt_register hnew
        rw [hoffered]
        exact ⟨hregistered.le, nofun⟩
    · exact h
  | snapshot id => exact h.of_onSubscriber (grows_takeSnapshot s.world)
  | deliver id => exact h.of_onSubscriber (grows_deliver s.world)
  | keepAlive id => exact h.of_onSubscriber (grows_keepAlive s.world)
  | sendReset id => exact h.of_onSubscriber grows_sendReset
  | leave id =>
    refine ⟨h.rows, h.coming, h.fanning, fun id' x' hx' => ?_⟩
    rcases update_some hx' with hx' | hnew
    · exact h.registered id' x' hx'
    · cases hnew

/-! ## Steps -/

/-- Between two writes the moments stay the same, so each subscriber is looked at by itself. -/
theorem Honest.of_subscribers (h : Honest project s) (hnow : s'.now = s.now)
    (hrows : s'.rowsAt = s.rowsAt)
    (hsubscribers : ∀ id x', s'.subscribers id = some x' → x'.registeredAt = s.now ∨
      ∃ x, s.subscribers id = some x ∧ x'.registeredAt = x.registeredAt ∧
        ∀ path t, path.projectId = project → t < s.now → s.Accounted x path t →
          s'.Accounted x' path t)
    (hdeletes : ∀ fetched path fields, s'.task = .fanningOut fetched →
      fetched.event = .removed path fields → s'.Gone path fetched.sentAt) : Honest project s' := by
  refine ⟨fun id x' hx' path t hregistered hchanges => ?_, hdeletes⟩
  obtain ⟨hproject, hlt, hchanged⟩ := hchanges
  rw [hnow] at hlt
  rw [hrows] at hchanged
  rcases hsubscribers id x' hx' with hfresh | ⟨x, hx, heq, haccounted⟩
  · omega
  · rw [heq] at hregistered
    exact haccounted path t hproject hlt (h.accounted id x hx path t hregistered ⟨hproject, hlt, hchanged⟩)

/-- The same subscribers, and nothing taken off the way. -/
theorem Honest.of_same (h : Honest project s) (hnow : s'.now = s.now)
    (hrows : s'.rowsAt = s.rowsAt) (hsubscribers : s'.subscribers = s.subscribers)
    (hway : ∀ path t, path.projectId = project → t < s.now → s.Coming path ∨ s.Fanning path t →
      s'.Coming path ∨ s'.Fanning path t)
    (hdeletes : ∀ fetched path fields, s'.task = .fanningOut fetched →
      fetched.event = .removed path fields → s'.Gone path fetched.sentAt) : Honest project s' := by
  refine h.of_subscribers hnow hrows (fun id x hx => ?_) hdeletes
  rw [hsubscribers] at hx
  refine .inr ⟨x, hx, rfl, fun path t hproject hlt haccounted => ?_⟩
  exact haccounted.imp_right (Or.imp_right (hway path t hproject hlt))

theorem Honest.of_onSubscriber (h : Honest project s)
    (hf : ∀ x, Grows x (f x)) : Honest project (s.onSubscriber id f) := by
  refine h.of_subscribers rfl rfl (fun id' x' hx' => ?_) h.deletes
  obtain ⟨x, hx, rfl | rfl⟩ := onSubscriber_some hx'
  · exact .inr ⟨x', hx, rfl, fun _ _ _ _ haccounted => haccounted⟩
  · refine .inr ⟨x, hx, (hf x).registeredAt, fun path t _ _ haccounted => ?_⟩
    rw [Accounted, (hf x).reset, (hf x).offered]
    exact haccounted

/-- The subject of an event is the document its payload names. -/
theorem subject_fetched (hnames : NamesDocument notice.payload path)
    (hproject : path.projectId = project) (fails : Bool) :
    (s.fetched project fails notice).event.subject.1 = path := by
  obtain ⟨project', collectionPath, documentId⟩ := path
  obtain rfl : project' = project := hproject
  rcases fails with _ | _
  · refine (congrArg (fun event => ListenEvent.subject event |>.1)
      (World.event_of_split hnames)).trans ?_
    rcases s.world.documentRow ⟨project', collectionPath, documentId⟩ with _ | row
    · rfl
    · rw [rowEvent]
      split_ifs <;> rfl
  · simp only [fetched, failedEvent, if_true]
    rw [hnames]
    rfl

/-- A row that has been read and is reported as deleted is not visible. -/
theorem visible_of_event_removed {w : World} {payload : String} {fields : Fields}
    (hsplit : Text.rsplitOnce '/' payload ≠ none)
    (h : w.event project payload = .removed path fields) : Rows.visible w.documentRow path = none := by
  obtain ⟨⟨collectionPath, documentId⟩, hsome⟩ := Option.ne_none_iff_exists'.mp hsplit
  rw [World.event_of_split hsome] at h
  rcases hrow : w.documentRow ⟨project, collectionPath, documentId⟩ with _ | row
  · rw [hrow] at h
    cases h
    rw [Rows.visible, hrow]
    rfl
  · rw [hrow, rowEvent] at h
    split_ifs at h with hdeleted
    cases h
    rw [Rows.visible, hrow, Option.filter_some, if_neg]
    simp [DocumentRow.visible, hdeleted]

theorem rowsAt_afterWrite {k : ℕ} (hk : k ≤ s.now) :
    (s.afterWrite project write).rowsAt k = s.rowsAt k :=
  update_of_ne (by omega) ..

theorem rowsAt_afterWrite_now :
    (s.afterWrite project write).rowsAt (s.now + 1) = (write.apply s.world).documentRow :=
  update_self ..

theorem Coming.afterWrite (h : s.Coming path) :
    (s.afterWrite project write).Coming path := by
  obtain ⟨notice, hmem, hnames⟩ := h
  exact ⟨notice, mem_coming_afterWrite.mpr (.inl hmem), hnames⟩

/-- The last change of a write is the one it makes itself. -/
theorem changes_afterWrite_now (ht : Timely s) :
    (s.afterWrite project write).Changes project path s.now ↔ path.projectId = project ∧
      (write.apply s.world).documentRow path ≠ s.world.documentRow path := by
  rw [Changes, rowsAt_afterWrite_now, rowsAt_afterWrite le_rfl, ht.rows]
  exact ⟨fun h => ⟨h.1, h.2.2⟩, fun h => ⟨h.1, Nat.lt_succ_self _, h.2⟩⟩

theorem Honest.afterWrite (ht : Timely s) (h : Honest project s)
    (hwrite : Harmless project s (.write write)) : Honest project (s.afterWrite project write) := by
  refine ⟨fun id x hx path t hregistered hchanges => ?_, fun fetched path fields htask hevent => ?_⟩
  · obtain ⟨hproject, hlt, hchanged⟩ := hchanges
    rcases Nat.lt_succ_iff_lt_or_eq.mp hlt with hlt | rfl
    · rw [rowsAt_afterWrite hlt, rowsAt_afterWrite hlt.le] at hchanged
      rcases h.accounted id x hx path t hregistered ⟨hproject, hlt, hchanged⟩ with
        hreset | hserved | hcoming | hfanning
      · exact .inl hreset
      · exact .inr (.inl hserved)
      · exact .inr (.inr (.inl hcoming.afterWrite))
      · exact .inr (.inr (.inr hfanning))
    · obtain ⟨-, hchanged⟩ := (changes_afterWrite_now ht).mp ⟨hproject, hlt, hchanged⟩
      rcases hwrite path hproject hchanged with ⟨hconnected, notice, hmem, hnames⟩ | hcoming | hreset
      · refine .inr (.inr (.inl ⟨notice, ?_, hnames⟩))
        exact mem_coming_afterWrite.mpr (.inr ⟨hconnected, hmem⟩)
      · exact .inr (.inr (.inl hcoming.afterWrite))
      · exact .inl (hreset id x hx)
  · obtain ⟨k, hle, hnow, hvisible⟩ := h.deletes fetched path fields htask hevent
    refine ⟨k, hle, Nat.le_succ_of_le hnow, ?_⟩
    rw [rowsAt_afterWrite hnow]
    exact hvisible

/-- A change of an honest write is announced, unless nobody listens. -/
theorem Harmless.of_afterWrite (ht : Timely s)
    (h : Honest project (s.afterWrite project write)) : Harmless project s (.write write) := by
  intro path hproject hchanged
  by_cases hreset : ∀ id x, s.subscribers id = some x → x.reset = true
  · exact .inr (.inr hreset)
  · push Not at hreset
    obtain ⟨id, x, hx, hreset⟩ := hreset
    obtain ⟨hregistered, hoffered⟩ := ht.registered id x hx
    rcases h.accounted id x hx path s.now hregistered
      ((changes_afterWrite_now ht).mpr ⟨hproject, hchanged⟩) with
      hreset' | ⟨fetched, hmem, -, hlt⟩ | ⟨notice, hmem, hnames⟩ | ⟨fetched, htask, -, hlt⟩
    · exact absurd hreset' hreset
    · exact absurd (hoffered fetched hmem) (by omega)
    · rcases mem_coming_afterWrite.mp hmem with hmem | ⟨hconnected, hmem⟩
      · exact .inr (.inl ⟨notice, hmem, hnames⟩)
      · exact .inl ⟨hconnected, notice, hmem, hnames⟩
    · exact absurd (ht.fanning fetched htask) (by omega)

/-- What is left on the way when the connection breaks. -/
theorem coming_lose_iff : (s.step engine project .lose).Coming path ↔
    ∃ notice, s.task = .fetching notice ∧ NamesDocument notice.payload path := by
  simp only [Coming, coming, step]
  rcases s.task with _ | notice | fetched <;> simp

theorem honest_lose_iff (h : Honest project s) :
    Honest project (s.step engine project .lose) ↔ Harmless project s .lose := by
  have hcoming : ∀ {path}, (s.step engine project .lose).Coming path ↔ _ := coming_lose_iff
  constructor
  · intro hlose id x hx path t hregistered hchanges
    have haccounted := hlose.accounted id x hx path t hregistered hchanges
    rw [Accounted, hcoming] at haccounted
    exact haccounted
  · intro hlose
    refine ⟨fun id x hx path t hregistered hchanges => ?_, h.deletes⟩
    rw [Accounted, hcoming]
    exact hlose id x hx path t hregistered hchanges

/-- A row that cannot be read, and a payload that names no row, give the same event. -/
theorem event_fetched_of_fails {fails : Bool}
    (h : fails = true ∨ Text.rsplitOnce '/' notice.payload = none) :
    (s.fetched project fails notice).event = failedEvent project notice.payload := by
  rcases h with rfl | hsplit
  · rfl
  · simp only [fetched, failedEvent, World.event, hsplit, ite_self]

theorem honest_fetch_iff (ht : Timely s) (h : Honest project s) (fails : Bool) :
    Honest project (s.step engine project (.fetch fails)) ↔
      Harmless project s (.fetch fails) := by
  rcases htask : s.task with _ | notice | fetched
  · simp only [step, Harmless, htask, reduceCtorEq, false_implies, implies_true, iff_true]
    exact h
  · -- the event of the notification, and whether it reports a deletion
    have hstep : s.step engine project (.fetch fails) =
        { s with task := .fanningOut (s.fetched project fails notice) } := by
      simp only [step, htask]
    rw [hstep]
    constructor
    · rintro hfetch notice' hnotice hfails
      obtain rfl := ListenerTask.fetching.inj (htask.symm.trans hnotice)
      have hremoved : failedEvent project notice.payload =
          .removed (failedEvent project notice.payload).subject.1 ∅ := by
        rw [failedEvent]
        split <;> rfl
      exact hfetch.deletes _ _ _ rfl ((event_fetched_of_fails hfails).trans hremoved)
    · intro hfetch
      refine h.of_same rfl rfl rfl (fun path t hproject hlt hway => ?_) ?_
      · rcases hway with ⟨notice', hmem, hnames⟩ | ⟨fetched, hfanning, -⟩
        · rw [coming, htask] at hmem
          rcases mem_cons.mp hmem with rfl | hmem
          · exact .inr ⟨_, rfl, subject_fetched hnames hproject fails, hlt⟩
          · exact .inl ⟨notice', hmem, hnames⟩
        · cases htask.symm.trans hfanning
      · rintro _ path fields ⟨⟩ hevent
        by_cases hfails : fails = true ∨ Text.rsplitOnce '/' notice.payload = none
        · have hgone := hfetch notice htask hfails
          rw [event_fetched_of_fails hfails] at hevent
          rw [hevent] at hgone
          exact hgone
        · push Not at hfails
          obtain ⟨hread, hsplit⟩ := hfails
          obtain rfl := Bool.eq_false_of_not_eq_true hread
          refine ⟨s.now, ht.coming notice ?_, le_rfl, ?_⟩
          · rw [coming, htask]
            exact mem_cons_self
          · exact ht.rows ▸ visible_of_event_removed hsplit hevent
  · simp only [step, Harmless, htask, reduceCtorEq, false_implies, implies_true, iff_true]
    exact h

theorem Coming.recv {i : ℕ} (htask : s.task = .receiving) (howed : s.owed[i]? = some notice)
    (h : s.Coming path) :
    ({ s with owed := s.owed.eraseIdx i, task := .fetching notice } : ListenSystem).Coming path := by
  obtain ⟨notice', hmem, hnames⟩ := h
  refine ⟨notice', ?_, hnames⟩
  rw [coming, htask] at hmem
  -- it is the one received, or one of the others
  obtain ⟨j, hj⟩ := mem_iff_getElem?.mp hmem
  by_cases hij : j = i
  · obtain rfl := Option.some.inj ((hij ▸ hj).symm.trans howed)
    exact mem_cons_self
  · exact mem_cons_of_mem _ (mem_eraseIdx_iff_getElem?.mpr ⟨j, hij, hj⟩)

theorem Honest.recv (h : Honest project s) (i : ℕ) :
    Honest project (s.step engine project (.recv i)) := by
  rw [step]
  split
  · rename_i notice htask howed
    refine h.of_same rfl rfl rfl (fun path t _ _ hway => ?_) nofun
    rcases hway with hcoming | ⟨fetched, hfanning, -⟩
    · exact .inl (hcoming.recv htask howed)
    · exact nomatch htask.symm.trans hfanning
  · exact h

theorem Honest.fanOut (h : Honest project s) : Honest project (s.step engine project .fanOut) := by
  rw [step]
  split
  · rename_i fetched htask
    refine h.of_subscribers rfl rfl (fun id x' hx' => ?_) nofun
    obtain ⟨x, hx, rfl⟩ := Option.map_eq_some_iff.mp hx'
    obtain ⟨hregistered, hsubset, hreset, hoffered, -⟩ := offer_cases fetched x
    refine .inr ⟨x, hx, hregistered, fun path t _ _ haccounted => ?_⟩
    rcases haccounted with hcut | ⟨fetched', hmem, hserves⟩ | ⟨notice, hmem, hnames⟩ |
      ⟨fetched', hfanning, hserves⟩
    · exact .inl (hreset hcut)
    · exact .inr (.inl ⟨fetched', hsubset hmem, hserves⟩)
    · rw [coming, htask] at hmem
      exact .inr (.inr (.inl ⟨notice, hmem, hnames⟩))
    · obtain rfl := ListenerTask.fanningOut.inj (htask.symm.trans hfanning)
      exact hoffered.imp_right fun hmem => .inl ⟨fetched, hmem, hserves⟩
  · exact h

/-- From an honest state, an action leads to an honest state exactly if it is harmless. -/
theorem honest_step_iff (ht : Timely s) (h : Honest project s) (a : Action) :
    Honest project (s.step engine project a) ↔ Harmless project s a := by
  cases a with
  | write write => exact ⟨Harmless.of_afterWrite ht, h.afterWrite ht⟩
  | fetch fails => exact honest_fetch_iff ht h fails
  | lose => exact honest_lose_iff h
  | tick clock databaseClock => exact iff_of_true ⟨h.accounted, h.deletes⟩ trivial
  | recv i => exact iff_of_true (h.recv i) trivial
  | fanOut => exact iff_of_true h.fanOut trivial
  | reconnect =>
    refine iff_of_true ?_ trivial
    rw [step]
    split
    · exact ⟨h.accounted, h.deletes⟩
    · exact h
  | register id req =>
    refine iff_of_true ?_ trivial
    rw [step]
    split
    · refine h.of_subscribers rfl rfl (fun id' x' hx' => ?_) h.deletes
      rcases update_some hx' with hx' | hnew
      · exact .inr ⟨x', hx', rfl, fun _ _ _ _ haccounted => haccounted⟩
      · exact .inl (registeredAt_register hnew).1
    · exact h
  | snapshot id => exact iff_of_true (h.of_onSubscriber (grows_takeSnapshot s.world)) trivial
  | deliver id => exact iff_of_true (h.of_onSubscriber (grows_deliver s.world)) trivial
  | keepAlive id => exact iff_of_true (h.of_onSubscriber (grows_keepAlive s.world)) trivial
  | sendReset id => exact iff_of_true (h.of_onSubscriber grows_sendReset) trivial
  | leave id =>
    refine iff_of_true (h.of_subscribers rfl rfl (fun id' x' hx' => ?_) h.deletes) trivial
    rcases update_some hx' with hx' | hnew
    · exact .inr ⟨x', hx', rfl, fun _ _ _ _ haccounted => haccounted⟩
    · cases hnew

theorem honest_start (project : ProjectId) (w : World) : Honest project (.start w) :=
  ⟨nofun, nofun⟩

end ListenSystem

/-- A run of harmless actions hides nothing from its subscribers, and the first action that is not
harmless does. -/
theorem failures_seen_iff (engine : QueryEngine) (project : ProjectId) (w : World)
    {s : ListenSystem} (h : ListenSystem.Reached engine project (ListenSystem.Harmless project) w s) :
    s.Honest project ∧
      ∀ a, (s.step engine project a).Honest project ↔ ListenSystem.Harmless project s a := by
  obtain ⟨ht, hs⟩ : s.Timely ∧ s.Honest project := by
    refine h.invariant (fun s => s.Timely ∧ s.Honest project) ?_ fun s a hs ha => ?_
    · exact ⟨timely_start w, honest_start project w⟩
    · exact ⟨timely_step hs.1 a, (honest_step_iff hs.1 hs.2 a).mpr ha⟩
  exact ⟨hs, honest_step_iff ht hs⟩

/-! ## One subscriber -/

/-- A target on the notes of a project. -/
def allNotes : TargetRequest := ⟨1, ⟨demo, "notes"⟩, none, none, none⟩

def agenda : DocumentPath := ⟨demo, "notes", "agenda"⟩

/-- Somebody listens, and there are no notes yet. -/
def listening : ListenSystem :=
  (ListenSystem.start (.holding .still ∅)).step plainEngine demo (.register 0 allNotes)

theorem listening_reached : ListenSystem.Reached plainEngine demo (ListenSystem.Harmless demo)
    (.holding .still ∅) listening :=
  .step .start trivial

theorem listening_create_harmless :
    ListenSystem.Harmless demo listening (.write (.create agenda ∅)) := by
  intro path _ hchanged
  have hworld : listening.world = .holding .still ∅ := rfl
  have happly : ClientWrite.apply listening.world (.create agenda ∅) =
      listening.world.announced agenda ∅ := World.apply_create rfl ∅
  by_cases hpath : path = agenda
  · subst hpath
    refine .inl ⟨rfl, ⟨readKey agenda, 1⟩, mem_singleton.mpr rfl, ?_⟩
    exact (namesDocument_readKey_iff agenda).mpr (by decide)
  · refine absurd ?_ hchanged
    rw [happly]
    exact World.lookup_rowsSeen_put_ne (by simpa using hpath)

/-- A new note is on its way to its subscriber. -/
theorem failures_seen_agenda :
    listening.Honest demo ∧
      (listening.step plainEngine demo (.write (.create agenda ∅))).Honest demo :=
  ⟨(failures_seen_iff plainEngine demo _ listening_reached).1,
    ((failures_seen_iff plainEngine demo _ listening_reached).2 _).mpr listening_create_harmless⟩

/-- The note was created while the connection was broken. -/
def reconnected : ListenSystem :=
  [.lose, .write (.create agenda ∅), .reconnect].foldl (ListenSystem.step plainEngine demo) listening

/-- The row of the new note could not be read. -/
def misread : ListenSystem :=
  [.write (.create agenda ∅), .recv 0, .fetch true].foldl (ListenSystem.step plainEngine demo)
    listening

theorem reconnected_changes : reconnected.Changes demo agenda 0 := by
  refine ⟨rfl, Nat.one_pos, fun h => ?_⟩
  have hsome : (reconnected.rowsAt 1 agenda).isSome = (reconnected.rowsAt 0 agenda).isSome :=
    congrArg Option.isSome h
  exact absurd hsome (by decide)

theorem misread_not_gone : ¬ misread.Gone agenda 1 := by
  rintro ⟨k, hle, hnow, hvisible⟩
  obtain rfl : k = 1 := le_antisymm hnow hle
  have hsome : ((misread.rowsAt 1).visible agenda).isNone = true := by
    rw [hvisible]
    rfl
  exact absurd hsome (by decide)

/-- A note is created while the connection is broken: once it is back nothing is on its way, and
the subscriber has neither an event nor a `RESET`. And where the row of a new note cannot be read,
a deletion is fanned out, although the note was there at every moment since. -/
theorem lost_and_misreported :
    (((reconnected.subscribers 0).map fun x => (x.registeredAt, x.reset, x.ended, x.offered)) =
          some (0, false, false, []) ∧
        reconnected.coming = [] ∧ reconnected.task = .receiving ∧ reconnected.connected = true ∧
        reconnected.Changes demo agenda 0 ∧ ¬ reconnected.Honest demo) ∧
      misread.task = .fanningOut ⟨.removed agenda ∅, 1, 1⟩ ∧ ¬ misread.Gone agenda 1 ∧
        ¬ misread.Honest demo := by
  refine ⟨⟨rfl, rfl, rfl, rfl, reconnected_changes, fun h => ?_⟩, rfl, misread_not_gone, fun h => ?_⟩
  · rcases h.accounted 0 _ rfl agenda 0 le_rfl reconnected_changes with
      hreset | ⟨fetched, hmem, -⟩ | ⟨notice, hmem, -⟩ | ⟨fetched, htask, -⟩
    · cases hreset
    · cases hmem
    · cases hmem
    · cases htask
  · exact misread_not_gone (h.deletes _ agenda ∅ rfl rfl)

end Embyr
