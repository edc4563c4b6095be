import Embyr.CommitProtocol

/-!
# A transaction takes effect at most once

Any number of `commit_transaction` and `rollback_transaction` calls with one transaction
id, their statements interleaved on one database.

`commit_transaction` reads the status first and writes it last, and the last statement
does not look at it again. The run theorem is therefore about the runs in which the row
is still active whenever a commit marks it (`MarksActive`): in those at most one batch of
writes reaches the store, and none once a rollback has succeeded.
`two_commits_take_effect` is a run outside.
-/

namespace Embyr

open Program ReadCommitted TransactionStatus Db

/-! ## The contenders -/

/-- A call about the transaction. -/
inductive Contender where
  | commit (project : ProjectId) (writes : List Write)
  | rollback (project : ProjectId)

namespace Contender

/-- What the call returns. -/
abbrev Result : Contender → Type
  | .commit _ _ => List WriteResult
  | .rollback _ => Unit

/-- The program of the call. -/
def program (id : TransactionId) : (c : Contender) → Adapter c.Result
  | .commit project writes => commitTransaction project id writes
  | .rollback project => rollbackTransaction project id

end Contender

/-- Sessions that each serve one contender. -/
abbrev Race (contenders : ℕ → Contender) : Type :=
  Config Call.Answer (Db Key.Row) (fun _ => CoreError) fun i => (contenders i).Result

/-- Nobody has asked anything yet. -/
def Race.start (contenders : ℕ → Contender) (id : TransactionId) (db : Db Key.Row) :
    Race contenders :=
  ⟨db, fun i => (contenders i).program id⟩

/-- The batch changes a document or ends a transaction in a commit. -/
def takesEffect (batch : AList Key.Row) : Bool :=
  batch.entries.any fun
    | ⟨.document _, _⟩ => true
    | ⟨.transaction _, row⟩ => decide (TransactionRow.status row = .committed)

/-- The batches of writes that reached the store, with their sessions. -/
def effects (db : Db Key.Row) : List (ℕ × AList Key.Row) :=
  db.log.filter fun entry => takesEffect entry.2

/-- Whenever a commit marks its transaction, the committed row is still active. -/
def MarksActive {contenders : ℕ → Contender} (c : Race contenders) (i : ℕ) : Prop :=
  ∀ uuid k, c.progs i = .call (.sql (markCommitted uuid)) k →
    ∃ row, c.state.rows.lookup (.transaction uuid) = some row ∧
      TransactionRow.status row = .active

/-- Session `i` has returned without an error. -/
def Race.Succeeded {contenders : ℕ → Contender} (c : Race contenders) (i : ℕ) : Prop :=
  ∃ r, c.progs i = .ok r

/-! ## The transaction row -/

variable {c : Contender}

section Row

variable {uuid : Uuid} {db db' : Db Key.Row} {i j : ℕ} {q : Stmt Key.Row} {a : q.Answer}

/-- The committed row is active. -/
def Live (uuid : Uuid) (db : Db Key.Row) : Prop :=
  ∃ row, db.rows.lookup (.transaction uuid) = some row ∧ TransactionRow.status row = .active

/-- The committed row is there and no longer active. -/
def Spent (uuid : Uuid) (db : Db Key.Row) : Prop :=
  ∃ row, db.rows.lookup (.transaction uuid) = some row ∧ TransactionRow.status row ≠ .active

theorem Live.not_spent (h : Live uuid db) : ¬ Spent uuid db := by
  rintro ⟨row, hrow, hspent⟩
  obtain ⟨row', hrow', hlive⟩ := h
  rw [hrow] at hrow'
  cases hrow'
  exact hspent hlive

/-- A transaction that has ended never becomes active again. -/
def StaysEnded : (k : Key) → Option k.Row → k.Row → Prop
  | .document _, _, _ => True
  | .transaction _, old, new =>
    ∀ row, old = some row → TransactionRow.status row ≠ .active →
      TransactionRow.status new ≠ .active

theorem StaysEnded.trans {k : Key} {old : Option k.Row} {mid new : k.Row}
    (h : StaysEnded k old mid) (h' : StaysEnded k (some mid) new) : StaysEnded k old new := by
  cases k with
  | document path => trivial
  | transaction id => exact fun row hrow hended => h' mid rfl (h row hrow hended)

theorem Spent.step (h : Spent uuid db) (hc : db.Consistent StaysEnded)
    (hq : q.Respects StaysEnded) (hstep : db.Step i q a db') : Spent uuid db' := by
  obtain ⟨row, hrow, hended⟩ := h
  rcases hc.lookup_step StaysEnded.trans hq hstep (.transaction uuid) with hsame | ⟨new, hnew, hrel⟩
  · exact ⟨row, hsame.trans hrow, hended⟩
  · exact ⟨new, hnew, hrel row hrow hended⟩

variable {row : TransactionRow}

theorem takesEffect_of_lookup {batch : AList Key.Row}
    (h : batch.lookup (.transaction uuid) = some row) (hrow : row.status = .committed) :
    takesEffect batch = true := by
  refine List.any_eq_true.mpr ⟨⟨.transaction uuid, row⟩, AList.mem_lookup_iff.mp h, ?_⟩
  exact decide_eq_true hrow

theorem takesEffect_singleton (h : row.status ≠ .committed) :
    takesEffect (AList.singleton (.transaction uuid) row) = false := by
  simp [takesEffect, AList.singleton, h]

theorem effects_apply (db : Db Key.Row) (i : ℕ) (txn : Option (Txn Key.Row))
    (batch : AList Key.Row) :
    effects (db.apply i txn batch) =
      if takesEffect batch then (i, batch) :: effects db else effects db := by
  unfold effects apply
  by_cases hempty : batch.entries = []
  · simp [takesEffect, hempty]
  · have hne : batch.entries.isEmpty = false := by simpa using hempty
    simp only [hne, List.filter_cons, Bool.false_eq_true, if_false]

/-! ## What holds of a session -/

/-- What holds while a commit is in state `s`. -/
def CommitHolds (uuid : Uuid) (db : Db Key.Row) (i : ℕ) : CommitState → Prop
  | .looking | .found _ | .dropped => db.txns i = none
  | .inside _ _ _ => ∃ t, db.txns i = some t ∧ .transaction uuid ∉ t.pending
  | .marked _ _ =>
    ∃ t row, db.txns i = some t ∧ t.pending.lookup (.transaction uuid) = some row ∧
      TransactionRow.status row = .committed ∧ Live uuid db
  | .done _ _ => db.txns i = none ∧ ∃ batch, (i, batch) ∈ effects db

/-- The statement of `rollback_transaction`. -/
def markRolledBack (project : ProjectId) (uuid : Uuid) : Stmt Key.Row :=
  .update (.transaction uuid)
    (fun row => TransactionRow.projectId row = project && TransactionRow.status row = .active)
    (fun row => { row with status := TransactionStatus.rolledBack })

/-- A rollback sends one statement; the state says whether it found an active row. -/
def rollbackMonitor (project : ProjectId) (uuid : Uuid) : Monitor Call.Answer Bool where
  allows _ q := q = .sql (markRolledBack project uuid)
  next
    | _, .sql (.update (.transaction _) _ _), .ok (some _) => true
    | _, _, _ => false

theorem rollbackTransaction_obeys {project : ProjectId} {id : TransactionId}
    (hid : ∀ u, uuidFromBytes id = .ok u → u = uuid) :
    (rollbackTransaction project id).Obeys (rollbackMonitor project uuid)
      (fun s r => ∀ x, r = .ok x → s = true) false := by
  rw [rollbackTransaction]
  rcases hparse : uuidFromBytes id with e | u
  · exact nofun
  obtain rfl := hid u hparse
  refine ⟨rfl, fun answer => ?_⟩
  rcases answer with e | _ | row
  · exact nofun
  · exact nofun
  · exact fun x _ => rfl

namespace Contender

/-- How far a call has come. -/
abbrev State : Contender → Type
  | .commit _ _ => CommitState
  | .rollback _ => Bool

/-- The protocol of a call. -/
def monitor (uuid : Uuid) : (c : Contender) → Monitor Call.Answer c.State
  | .commit project writes => commitMonitor project uuid writes
  | .rollback project => rollbackMonitor project uuid

/-- Where a call starts. -/
def initial : (c : Contender) → c.State
  | .commit _ _ => CommitState.looking
  | .rollback _ => false

/-- Where a call ends. -/
def Ends : (c : Contender) → c.State → Except CoreError c.Result → Prop
  | .commit _ _, s, r => Committed s r
  | .rollback _, s, r => ∀ x, r = .ok x → s = true

/-- What holds while a call is in a state. -/
def Holds (uuid : Uuid) (db : Db Key.Row) (i : ℕ) : (c : Contender) → c.State → Prop
  | .commit _ _, s => CommitHolds uuid db i s
  | .rollback _, s => db.txns i = none ∧ (s = true → Spent uuid db ∧ effects db = [])

theorem holds_initial (h : db.txns i = none) : c.Holds uuid db i c.initial := by
  cases c with
  | commit project writes => exact h
  | rollback project => exact ⟨h, nofun⟩

theorem obeys {id : TransactionId} (hid : ∀ u, uuidFromBytes id = .ok u → u = uuid)
    (c : Contender) : (c.program id).Obeys (c.monitor uuid) c.Ends c.initial := by
  cases c with
  | commit project writes => exact commitTransaction_obeys hid
  | rollback project => exact rollbackTransaction_obeys hid

end Contender

/-- What holds of the database whoever moves. -/
structure OneEffect (uuid : Uuid) (db : Db Key.Row) : Prop where
  consistent : db.Consistent StaysEnded
  spent : effects db ≠ [] → Spent uuid db
  once : (effects db).length ≤ 1

/-- A statement without effect on the writes leaves the rest as it is. -/
theorem OneEffect.quiet (hone : OneEffect uuid db) (hq : q.Respects StaysEnded)
    (hstep : db.Step i q a db') (heffects : effects db' = effects db) : OneEffect uuid db' where
  consistent := hone.consistent.step StaysEnded.trans hq hstep
  spent h := (hone.spent (heffects ▸ h)).step hone.consistent hq hstep
  once := heffects ▸ hone.once

/-- … and so do the other sessions stay where they are. -/
theorem Contender.Holds.quiet {s : c.State} (hone : OneEffect uuid db) (hq : q.Respects StaysEnded)
    (hstep : db.Step i q a db') (heffects : effects db' = effects db) (hne : j ≠ i)
    (h : c.Holds uuid db j s) :
    c.Holds uuid db' j s := by
  have htxns := hstep.txns_ne hne
  cases c with
  | rollback project =>
    refine ⟨htxns.trans h.1, fun hs => ?_⟩
    obtain ⟨hspent, hnone⟩ := h.2 hs
    exact ⟨hspent.step hone.consistent hq hstep, heffects.trans hnone⟩
  | commit project writes =>
    cases s with
    | looking | found | dropped => exact htxns.trans h
    | inside row seen n =>
      obtain ⟨t, ht, hpending⟩ := h
      exact ⟨t, htxns.trans ht, hpending⟩
    | marked row seen =>
      obtain ⟨t, mark, ht, hmark, hstatus, live, hlive, hactive⟩ := h
      have hlocked := hone.consistent.covered ht (mem_of_lookup hmark)
      obtain ⟨ht', hlookup⟩ := hone.consistent.lookup_of_locked hstep hne ht hlocked
      exact ⟨t, mark, ht', hmark, hstatus, live, hlookup.trans hlive, hactive⟩
    | done row seen =>
      obtain ⟨hidle, batch, hbatch⟩ := h
      exact ⟨htxns.trans hidle, batch, heffects ▸ hbatch⟩

/-! ## What a step of a commit does -/

variable {project : ProjectId} {writes : List Write} {s s' : CommitState}
  {txn : Option (Txn Key.Row)} {batch : AList Key.Row}

theorem CommitHolds.aligned (h : CommitHolds uuid db i s) : s.Aligned db i := by
  cases s with
  | inside row seen n => exact h.imp fun t ht => ht.1
  | marked row seen => exact h.imp fun t ht => ht.elim fun _ ht => ht.1
  | done row seen => exact h.1
  | looking | found | dropped => exact h

theorem CommitAllows.respects (h : CommitAllows project uuid writes s (.sql q)) :
    q.Respects StaysEnded := by
  cases h with
  | look => trivial
  | expire row => exact fun v _ row _ _ => noConfusion
  | begin | lock => trivial
  | @store _ _ _ write final hverified hwrite hfinal now =>
    cases final with
    | none => exact fun v _ => trivial
    | some fields => exact ⟨trivial, fun old => trivial⟩
  | mark hverified => exact fun v _ row _ _ => noConfusion
  | commit => trivial
  | drop h => trivial

variable {t : Txn Key.Row}

/-- The transaction's row is not among the rows of a transaction that wrote a document. -/
theorem notMem_write_document (h : .transaction uuid ∉ t.pending) (path : DocumentPath)
    (v : DocumentRow) :
    .transaction uuid ∉ (t.write (.document path) v).pending := by
  intro hmem
  rcases (AList.mem_insert _).mp hmem with hkey | hmem
  · cases hkey
  · exact h hmem

theorem effects_quiet (h : takesEffect batch = false) :
    effects (db.apply i txn batch) = effects db := by
  rw [effects_apply, h]
  rfl

/-- Where a transaction has not written its own row, it sees the committed one. -/
theorem lookup_view_of_notMem (h : .transaction uuid ∉ t.pending) :
    (view db.rows (some t)).lookup (.transaction uuid) = db.rows.lookup (.transaction uuid) := by
  rw [lookup_view, show (pendingRows (some t)).lookup (.transaction uuid) = none from
    AList.lookup_eq_none.mpr h, Option.none_or]

/-- Once the transaction is marked, nothing has taken effect yet. -/
theorem OneEffect.effects_nil (hone : OneEffect uuid db) (hlive : Live uuid db) :
    effects db = [] := by
  by_contra hne
  exact hlive.not_spent (hone.spent hne)

/-- The commit of a marked transaction that reaches the store. -/
theorem OneEffect.commit (hone : OneEffect uuid db) (hlive : Live uuid db)
    (hrow : t.pending.lookup (.transaction uuid) = some row) (hstatus : row.status = .committed)
    (hq : q.Respects StaysEnded) (hstep : db.Step i q a (db.apply i none t.pending)) :
    OneEffect uuid (db.apply i none t.pending) ∧
      effects (db.apply i none t.pending) = [(i, t.pending)] := by
  have heffects : effects (db.apply i none t.pending) = [(i, t.pending)] := by
    rw [effects_apply, takesEffect_of_lookup hrow hstatus, hone.effects_nil hlive]
    rfl
  refine ⟨⟨hone.consistent.step StaysEnded.trans hq hstep, fun _ => ?_, ?_⟩, heffects⟩
  · refine ⟨row, ?_, by rw [hstatus]; exact noConfusion⟩
    rw [lookup_apply, hrow]
    rfl
  · rw [heffects]
    exact Nat.le_refl 1

/-- … finds every other session in a state that it does not disturb. -/
theorem Contender.Holds.commit {s : c.State} {batch : AList Key.Row} (hone : OneEffect uuid db)
    (hlive : Live uuid db) (ht : db.txns i = some t) (hlocked : .transaction uuid ∈ t.locked)
    (hne : j ≠ i)
    (h : c.Holds uuid db j s) : c.Holds uuid (db.apply i none batch) j s := by
  have htxns : (db.apply i none batch).txns j = db.txns j := txns_apply_ne db none batch hne
  cases c with
  | rollback project =>
    refine ⟨htxns.trans h.1, fun hs => ?_⟩
    exact absurd (h.2 hs).1 hlive.not_spent
  | commit project writes =>
    cases s with
    | looking | found | dropped => exact htxns.trans h
    | inside row seen n =>
      obtain ⟨u, hu, hpending⟩ := h
      exact ⟨u, htxns.trans hu, hpending⟩
    | marked row seen =>
      -- both would hold the lock on the transaction row
      obtain ⟨u, mark, hu, hmark, -⟩ := h
      have hlocked' := hone.consistent.covered hu (mem_of_lookup hmark)
      exact absurd (hone.consistent.exclusive hu ht hlocked' hlocked) hne
    | done row seen =>
      obtain ⟨-, batch', hbatch⟩ := h
      rw [hone.effects_nil hlive] at hbatch
      cases hbatch

/-- The statement of a rollback. -/
theorem Contender.Holds.rollback {s : Bool} (hone : OneEffect uuid db)
    (h : (Contender.rollback project).Holds uuid db i s) (hq : q = markRolledBack project uuid)
    (hstep : db.Step i q a db') :
    effects db' = effects db ∧
      (Contender.rollback project).Holds uuid db' i
        ((rollbackMonitor project uuid).next s (.sql q) a) := by
  obtain rfl : q = .update (.transaction uuid) _ _ := hq
  have hidle : db.txns i = none := h.1
  have hquiet : takesEffect (exec db.rows (db.txns i) (markRolledBack project uuid)).2.2 = false := by
    rw [hidle, markRolledBack]
    rcases hv : ((view db.rows none).lookup (.transaction uuid)).filter _ with _ | v
    · rw [exec_update_none hv]
      rfl
    · rw [exec_update_some hv]
      exact takesEffect_singleton noConfusion
  have heffects : ∀ txn,
      effects (db.apply i txn (exec db.rows (db.txns i) (markRolledBack project uuid)).2.2) =
        effects db := by
    intro txn
    rw [effects_apply, hquiet]
    rfl
  cases hstep with
  | failed detail =>
    refine ⟨by rw [effects_apply]; rfl, txns_apply_self .., fun hs => ?_⟩
    cases hs
  | lost hfree detail =>
    refine ⟨heffects none, txns_apply_self .., fun hs => ?_⟩
    cases hs
  | done hfree =>
    refine ⟨heffects _, ?_⟩
    rw [hidle]
    rcases hv : ((view db.rows none).lookup (.transaction uuid)).filter
      (fun row => TransactionRow.projectId row = project && TransactionRow.status row = .active)
      with _ | v
    · rw [exec_update_none hv]
      refine ⟨txns_apply_self .., fun hs => ?_⟩
      cases hs
    · obtain ⟨hrow, hactive⟩ := Option.filter_eq_some_iff.mp hv
      rw [lookup_view_none] at hrow
      have hlive : Live uuid db :=
        ⟨v, hrow, of_decide_eq_true (Bool.and_eq_true_iff.mp hactive).2⟩
      have hnone := (heffects none).trans (hone.effects_nil hlive)
      rw [hidle, markRolledBack, exec_update_some hv] at hnone
      rw [exec_update_some hv]
      refine ⟨txns_apply_self .., fun _ => ⟨⟨TransactionRow.mk v.projectId .rolledBack
        v.startedAt v.reads, ?_, noConfusion⟩, hnone⟩⟩
      rw [lookup_apply]
      exact congrArg (Option.or · _) (lookup_singleton_self ..)

end Row

/-! ## Runs -/

variable {i : ℕ}

section Runs

variable {contenders : ℕ → Contender} {id : TransactionId} {uuid : Uuid}

/-- What holds of a race whose sessions are in the states `g`. -/
def Race.Inv (uuid : Uuid) (c : Race contenders) (g : (i : ℕ) → (contenders i).State) : Prop :=
  OneEffect uuid c.state ∧ ∀ i, (contenders i).Holds uuid c.state i (g i)

variable {db db' : Db Key.Row}

/-- One statement of a commit keeps what holds. -/
theorem commit_keeps {q : Stmt Key.Row} {a : q.Answer} {project : ProjectId} {writes : List Write}
    {s : CommitState} (hallows : CommitAllows project uuid writes s (.sql q))
    (hone : OneEffect uuid db) (hs : CommitHolds uuid db i s)
    (hmark : q = markCommitted uuid → Live uuid db) (hstep : db.Step i q a db') :
    OneEffect uuid db' ∧ CommitHolds uuid db' i (s.next (.sql q) a) ∧
      ∀ j, j ≠ i → ∀ (c : Contender) s, c.Holds uuid db j s → c.Holds uuid db' j s := by
  obtain ⟨txn, batch, rfl, hmove⟩ := hallows.moves hs.aligned hstep
  generalize s.next (.sql q) a = s' at hmove ⊢
  -- most moves bring none of the writes to the store
  have hquiet : takesEffect batch = false → CommitHolds uuid (db.apply i txn batch) i s' →
      OneEffect uuid (db.apply i txn batch) ∧ CommitHolds uuid (db.apply i txn batch) i s' ∧
        ∀ j, j ≠ i → ∀ (c : Contender) s, c.Holds uuid db j s →
          c.Holds uuid (db.apply i txn batch) j s := fun hbatch hown =>
    ⟨hone.quiet hallows.respects hstep (effects_quiet hbatch), hown, fun j hne c s h =>
      h.quiet hone hallows.respects hstep (effects_quiet hbatch) hne⟩
  cases hmove with
  | look hrow => exact hquiet rfl (txns_apply_self ..)
  | expire hr =>
    exact hquiet (takesEffect_singleton noConfusion) (txns_apply_self ..)
  | begin hproject hactive =>
    exact hquiet rfl ⟨.empty, txns_apply_self .., AList.notMem_empty _⟩
  | lock ht hr =>
    have hpending := of_txns hs ht
    exact hquiet rfl ⟨_, txns_apply_self .., hpending⟩
  | miss ht hq hr =>
    exact hquiet rfl ⟨_, txns_apply_self .., of_txns hs ht⟩
  | store ht hwrite hfinal hq hv =>
    exact hquiet rfl ⟨_, txns_apply_self .., notMem_write_document (of_txns hs ht) _ _⟩
  | skip ht hwrite hdeletes =>
    exact hquiet rfl ⟨_, txns_apply_self .., of_txns hs ht⟩
  | mark ht hverified hq hr =>
    obtain ⟨live, hlive, hactive⟩ := hmark hq
    refine hquiet rfl ⟨_, _, txns_apply_self .., AList.lookup_insert _, rfl, live, ?_, hactive⟩
    exact (lookup_apply_of_notMem (AList.notMem_empty _)).trans hlive
  | markMissing ht hverified hq hr =>
    -- an active row is not missing
    obtain ⟨live, hlive, -⟩ := hmark hq
    rw [lookup_view_of_notMem (of_txns hs ht), hlive] at hr
    cases hr
  | commit ht hq =>
    obtain ⟨t, mark, ht', hrow, hstatus, hlive⟩ := hs
    obtain rfl := Option.some.inj (ht'.symm.trans ht)
    have hlocked := hone.consistent.covered ht (mem_of_lookup hrow)
    obtain ⟨hone', heffects⟩ := hone.commit hlive hrow hstatus hallows.respects hstep
    refine ⟨hone', ⟨txns_apply_self .., t.pending, ?_⟩, fun j hne c s h =>
      h.commit hone hlive ht hlocked hne⟩
    rw [heffects]
    exact List.mem_singleton_self _
  | lose ht hq =>
    obtain ⟨t, mark, ht', hrow, hstatus, hlive⟩ := hs
    obtain rfl := Option.some.inj (ht'.symm.trans ht)
    have hlocked := hone.consistent.covered ht (mem_of_lookup hrow)
    obtain ⟨hone', heffects⟩ := hone.commit hlive hrow hstatus hallows.respects hstep
    exact ⟨hone', txns_apply_self .., fun j hne c s h => h.commit hone hlive ht hlocked hne⟩
  | drop => exact hquiet rfl (txns_apply_self ..)

/-- One call of a contender keeps what holds. -/
theorem Contender.keeps {q : Call} {a : q.Answer} {contender : Contender} {s : contender.State}
    (hallows : (contender.monitor uuid).allows s q) (hone : OneEffect uuid db)
    (hs : contender.Holds uuid db i s) (hmark : q = .sql (markCommitted uuid) → Live uuid db)
    (hstep : server.step i q db a db') :
    OneEffect uuid db' ∧ contender.Holds uuid db' i ((contender.monitor uuid).next s q a) ∧
      ∀ j, j ≠ i → ∀ (c : Contender) s, c.Holds uuid db j s → c.Holds uuid db' j s := by
  cases hstep with
  | @statement q a db db' hstep =>
    cases contender with
    | commit project writes =>
      refine commit_keeps hallows hone hs (fun hq => hmark ?_) hstep
      rw [hq]
    | rollback project =>
      have hq : q = markRolledBack project uuid := Call.sql.inj hallows
      have hrespects : q.Respects StaysEnded := by
        rw [hq]
        exact fun v _ row _ _ => noConfusion
      obtain ⟨heffects, hown⟩ := Contender.Holds.rollback hone hs hq hstep
      exact ⟨hone.quiet hrespects hstep heffects, hown, fun j hne c s h =>
        h.quiet hone hrespects hstep heffects hne⟩
  | @other q a db hother =>
    cases contender with
    | rollback project => exact absurd hallows (hother _)
    | commit project writes =>
      refine ⟨hone, ?_, fun j _ c s h => h⟩
      change CommitHolds uuid db i (CommitState.next s q a)
      rw [CommitAllows.next_other hallows hother]
      exact hs

/-- One step of a race keeps what holds. -/
theorem Race.Inv.step {c : Race contenders} {g : (i : ℕ) → (contenders i).State} {q : Call}
    {k : q.Answer → Adapter (contenders i).Result} {a : q.Answer} (hguard : MarksActive c i)
    (hprog : c.progs i = .call q k) (hallows : ((contenders i).monitor uuid).allows (g i) q)
    (hinv : Race.Inv uuid c g) (hstep : server.step i q c.state a db') :
    Race.Inv uuid (⟨db', Function.update c.progs i (k a)⟩ : Race contenders)
      (Function.update g i (((contenders i).monitor uuid).next (g i) q a)) := by
  obtain ⟨hone, hholds⟩ := hinv
  have hmark : q = .sql (markCommitted uuid) → Live uuid c.state := by
    rintro rfl
    exact hguard uuid k hprog
  obtain ⟨hone', hown, hothers⟩ := Contender.keeps hallows hone (hholds i) hmark hstep
  refine ⟨hone', fun j => ?_⟩
  by_cases hj : j = i
  · subst hj
    rw [Function.update_self]
    exact hown
  · rw [Function.update_of_ne hj]
    exact hothers j hj _ _ (hholds j)

/-- What a successful call has done to the store. -/
def Contender.Outcome (db : Db Key.Row) (i : ℕ) : Contender → Prop
  | .commit _ _ => ∃ batch, effects db = [(i, batch)]
  | .rollback _ => effects db = []

theorem Contender.outcome {s : c.State} {r : c.Result} (hone : OneEffect uuid db)
    (hholds : c.Holds uuid db i s)
    (hends : c.Ends s (.ok r)) : c.Outcome db i := by
  cases c with
  | rollback project => exact (hholds.2 (hends r rfl)).2
  | commit project writes =>
    obtain ⟨row, seen, rfl⟩ := hends
    obtain ⟨-, batch, hmem⟩ := hholds
    obtain ⟨entry, hentry⟩ := List.length_eq_one_iff.mp
      (le_antisymm hone.once (List.length_pos_of_mem hmem))
    rw [hentry, List.mem_singleton] at hmem
    exact ⟨batch, hmem ▸ hentry⟩

/-- What holds along every guarded run. -/
theorem Race.invariant (hid : ∀ u, uuidFromBytes id = .ok u → u = uuid)
    (hidle : ∀ i, db.txns i = none) (hlog : db.log = []) {c : Race contenders}
    (hreach : Reach server MarksActive (Race.start contenders id db) c) :
    ∃ g, Race.Inv uuid c g ∧
      ∀ i, (c.progs i).Obeys ((contenders i).monitor uuid) (contenders i).Ends (g i) := by
  have heffects : effects db = [] := by rw [effects, hlog]; rfl
  refine Reach.invariant (fun i => (contenders i).monitor uuid) (fun i => (contenders i).Ends)
    (Race.Inv uuid) (fun i => (contenders i).obeys hid) ⟨⟨.of_idle hidle, ?_, ?_⟩, fun i => ?_⟩
    (fun c g i q k a db' _ hguard hprog hallows hinv hstep =>
      hinv.step hguard hprog hallows hstep) hreach
  · exact fun h => absurd heffects h
  · exact Nat.le_of_eq (congrArg List.length heffects) |>.trans (Nat.zero_le 1)
  · exact Contender.holds_initial (hidle i)

/-- **A transaction takes effect at most once**, and not at all once it has been rolled
back, in every run in which commits mark only active transactions. -/
theorem takes_effect_once {db : Db Key.Row} (hidle : ∀ i, db.txns i = none)
    (hlog : db.log = []) {c : Race contenders}
    (hreach : Reach server MarksActive (Race.start contenders id db) c) :
    (effects c.state).length ≤ 1 ∧
      (∀ i project writes, contenders i = .commit project writes → c.Succeeded i →
        ∃ batch, effects c.state = [(i, batch)]) ∧
      ∀ j project, contenders j = .rollback project → c.Succeeded j → effects c.state = [] := by
  obtain ⟨uuid, hid⟩ := exists_uuid id
  obtain ⟨g, ⟨hone, hholds⟩, hobeys⟩ := Race.invariant hid hidle hlog hreach
  have houtcome : ∀ i, c.Succeeded i → (contenders i).Outcome c.state i := by
    rintro i ⟨r, hr⟩
    have hends := hobeys i
    rw [hr] at hends
    exact Contender.outcome hone (hholds i) hends
  refine ⟨hone.once, fun i project writes hi hsucceeded => ?_, fun j project hj hsucceeded => ?_⟩
  · have h := houtcome i hsucceeded
    rwa [hi] at h
  · have h := houtcome j hsucceeded
    rwa [hj] at h

end Runs

/-! ## Runs written out -/

/-- A rollback and two commits of the first transaction. -/
def rivals : ℕ → Contender
  | 0 => .rollback demo
  | n => .commit demo [.update ⟨demo, "notes", toString n⟩ ∅ none none []]

/-- One active transaction, no documents. -/
def oneTransaction : Db Key.Row where
  rows := AList.singleton (.transaction (uuidOf 1))
    (⟨demo, .active, ⟨0, 0⟩, ∅⟩ : TransactionRow)
  txns _ := none
  log := []

/-- `MarksActive`, as a check: a statement that would leave the row committed finds it
active. -/
def admitsMark {contenders : ℕ → Contender} (c : Race contenders) (i : ℕ) : Bool :=
  match c.progs i with
  | .call (.sql (.update (.transaction uuid) _ f)) _ =>
    (c.state.rows.lookup (.transaction uuid)).any fun row =>
      decide (TransactionRow.status (f row) = .committed → TransactionRow.status row = .active)
  | _ => true

theorem marksActive_of_admitsMark {contenders : ℕ → Contender} {c : Race contenders}
    (h : admitsMark c i = true) : MarksActive c i := by
  intro uuid k hprog
  rw [admitsMark, hprog] at h
  obtain ⟨row, hrow, hactive⟩ := (Option.any_eq_true ..).mp h
  exact ⟨row, hrow, of_decide_eq_true hactive rfl⟩

/-- A commit that finishes before the others start. -/
theorem takes_effect_once_alone :
    ∃ c : Race rivals, Reach server MarksActive
      (Race.start rivals (uuidOf 1).bytes oneTransaction) c ∧ c.Succeeded 1 ∧
        ∃ batch, effects c.state = [(1, batch)] := by
  have hrun : ((Race.start rivals (uuidOf 1).bytes oneTransaction).follow admitsMark
      (serve .still 3) (List.replicate 7 1 ++ [0, 2])).any (fun c => (c.progs 1).isOk) = true := by
    decide
  obtain ⟨c, hreach, hok⟩ := reach_of_schedule marksActive_of_admitsMark (fun _ _ => rfl) hrun
  have hsucceeded : Race.Succeeded c 1 := Prog.isOk_iff.mp hok
  exact ⟨c, hreach, hsucceeded, (takes_effect_once (fun _ => rfl) rfl hreach).2.1 1 _ _ rfl
    hsucceeded⟩

/-- Both commits look the transaction up before it is rolled back, and then take effect. -/
theorem two_commits_take_effect :
    ∃ c : Race rivals, Reach server (fun _ _ => True)
      (Race.start rivals (uuidOf 1).bytes oneTransaction) c ∧
        c.Succeeded 0 ∧ c.Succeeded 1 ∧ c.Succeeded 2 ∧ (effects c.state).length = 2 := by
  have hrun : ((Race.start rivals (uuidOf 1).bytes oneTransaction).follow (fun _ _ => true)
      (serve .still 3) ([1, 1, 2, 2, 0] ++ List.replicate 5 1 ++ List.replicate 5 2)).any
        (fun c => (c.progs 0).isOk && (c.progs 1).isOk && (c.progs 2).isOk &&
          (effects c.state).length == 2) = true := by
    decide
  obtain ⟨c, hreach, hcheck⟩ := reach_of_schedule (fun _ => trivial) (fun _ _ => rfl) hrun
  simp only [Bool.and_eq_true, beq_iff_eq] at hcheck
  obtain ⟨⟨⟨h0, h1⟩, h2⟩, hlength⟩ := hcheck
  exact ⟨c, hreach, Prog.isOk_iff.mp h0, Prog.isOk_iff.mp h1, Prog.isOk_iff.mp h2, hlength⟩

end Embyr
