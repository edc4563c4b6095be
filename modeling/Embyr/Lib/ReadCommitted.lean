import Mathlib.Data.List.AList
import Embyr.Lib.Program

/-!
# A database at isolation level READ COMMITTED

Rows under keys, shared by sessions that send one statement at a time.

* `Stmt` — the statements; `exec` — what one statement does for a session: its answer,
  the session's transaction after it, and the batch of rows it makes visible to all.
* `demand` — the row a statement has to lock. A `FOR UPDATE` or an `UPDATE` whose
  condition fails on the latest row locks nothing, and a row that is not there cannot be
  locked by reading it.
* `Db.Step` — one statement of one session among many: it sees what was committed before
  it, waits for the lock it demands, and may fail at any point, also after its effect has
  reached the store.
* `Db.Consistent` — locks are exclusive, uncommitted rows are locked, and rows change
  only as a given relation allows; `Consistent.step` keeps it.
-/

namespace ReadCommitted

open Program AList

/-! ## Statements -/

/-- Why a statement failed. -/
inductive Failure where
  | uniqueViolation
  | backend (detail : String)
  deriving DecidableEq

/-- The text a client of the database sees. -/
def Failure.text : Failure → String
  | .uniqueViolation => "duplicate key value violates unique constraint"
  | .backend detail => detail

/-- The statements of a session over rows `V k` under keys `k`. -/
inductive Stmt {K : Type} (V : K → Type) where
  | select (k : K)
  /-- a query over all rows -/
  | scan (pick : AList V → List (Sigma V))
  /-- `SELECT … WHERE p FOR UPDATE` -/
  | selectForUpdate (k : K) (p : V k → Bool)
  /-- `UPDATE … WHERE p`, which gives back the new row -/
  | update (k : K) (p : V k → Bool) (f : V k → V k)
  | insert (k : K) (v : V k)
  /-- `INSERT … ON CONFLICT DO UPDATE`, which gives back the new row -/
  | upsert (k : K) (v : V k) (f : V k → V k)
  | begin
  | commit
  | rollback

variable {K : Type} {V : K → Type}

/-- What a statement that succeeds gives back. -/
abbrev Stmt.Result : Stmt V → Type
  | .select k | .selectForUpdate k _ | .update k _ _ => Option (V k)
  | .scan _ => List (Sigma V)
  | .upsert k _ _ => V k
  | .insert _ _ | .begin | .commit | .rollback => Unit

/-- What a statement answers. -/
abbrev Stmt.Answer (q : Stmt V) : Type := Except Failure q.Result

/-- An open transaction: its uncommitted rows and its locks. -/
structure Txn {K : Type} (V : K → Type) where
  pending : AList V
  locked : List K

/-- A transaction that has done nothing. -/
def Txn.empty : Txn V := ⟨∅, []⟩

variable [DecidableEq K]

/-- Take a lock. -/
def Txn.lock (t : Txn V) (k : K) : Txn V := ⟨t.pending, k :: t.locked⟩

/-- Write a row, which locks it. -/
def Txn.write (t : Txn V) (k : K) (v : V k) : Txn V := ⟨t.pending.insert k v, k :: t.locked⟩

/-- The uncommitted rows of a session. -/
def pendingRows (txn : Option (Txn V)) : AList V := txn.elim ∅ Txn.pending

/-- What a session sees: its own rows over the committed ones. -/
def view (rows : AList V) (txn : Option (Txn V)) : AList V := pendingRows txn ∪ rows

/-- Outside a transaction a written row is visible to all at once. -/
def writeRow (txn : Option (Txn V)) (k : K) (v : V k) : Option (Txn V) × AList V :=
  match txn with
  | none => (none, AList.singleton k v)
  | some t => (some (t.write k v), ∅)

/-- A statement's answer, the transaction after it, and the batch it commits. -/
def exec (rows : AList V) (txn : Option (Txn V)) :
    (q : Stmt V) → q.Answer × Option (Txn V) × AList V
  | .select k => (.ok ((view rows txn).lookup k), txn, ∅)
  | .scan pick => (.ok (pick (view rows txn)), txn, ∅)
  | .selectForUpdate k p =>
    match ((view rows txn).lookup k).filter p with
    | some v => (.ok (some v), txn.map (·.lock k), ∅)
    | none => (.ok none, txn, ∅)
  | .update k p f =>
    match ((view rows txn).lookup k).filter p with
    | some v => (.ok (some (f v)), writeRow txn k (f v))
    | none => (.ok none, txn, ∅)
  | .insert k v =>
    match (view rows txn).lookup k with
    -- a failed statement aborts the transaction it is in
    | some _ => (.error .uniqueViolation, none, ∅)
    | none => (.ok (), writeRow txn k v)
  | .upsert k v f =>
    let new := ((view rows txn).lookup k).elim v f
    (.ok new, writeRow txn k new)
  | .begin => (.ok (), some .empty, ∅)
  | .commit => (.ok (), none, pendingRows txn)
  | .rollback => (.ok (), none, ∅)

/-- The row a statement has to lock. -/
def demand (rows : AList V) (txn : Option (Txn V)) : Stmt V → Option K
  | .selectForUpdate k p | .update k p _ =>
    if (((view rows txn).lookup k).filter p).isSome then some k else none
  | .insert k _ => if ((view rows txn).lookup k).isNone then some k else none
  | .upsert k _ _ => some k
  | .select _ | .scan _ | .begin | .commit | .rollback => none

/-! ## Rows and views -/

theorem lookup_union (a b : AList V) (k : K) :
    (a ∪ b).lookup k = (a.lookup k).or (b.lookup k) := by
  by_cases hk : k ∈ a
  · obtain ⟨v, hv⟩ := Option.isSome_iff_exists.mp (lookup_isSome.mpr hk)
    rw [lookup_union_left hk, hv]
    rfl
  · rw [lookup_union_right hk, lookup_eq_none.mpr hk]
    rfl

theorem lookup_singleton_self (k : K) (v : V k) : (singleton k v).lookup k = some v :=
  lookup_insert ∅

variable {k : K}

theorem lookup_singleton_ne {k' : K} (v : V k) (h : k' ≠ k) :
    (singleton k v).lookup k' = none := by
  have hlookup : (insert k v ∅).lookup k' = none := by
    rw [lookup_insert_ne h, lookup_empty]
  exact hlookup

theorem lookup_view (rows : AList V) (txn : Option (Txn V)) (k : K) :
    (view rows txn).lookup k = ((pendingRows txn).lookup k).or (rows.lookup k) :=
  lookup_union ..

@[simp] theorem lookup_view_none (rows : AList V) (k : K) :
    (view rows none).lookup k = rows.lookup k := by
  rw [lookup_view]
  simp [pendingRows]

theorem lookup_view_writeRow_self (rows : AList V) (txn : Option (Txn V)) (k : K) (v : V k) :
    (view ((writeRow txn k v).2 ∪ rows) (writeRow txn k v).1).lookup k = some v := by
  rw [lookup_view]
  cases txn with
  | none =>
    rw [lookup_union, show (writeRow none k v).2 = singleton k v from rfl,
      lookup_singleton_self]
    rfl
  | some t =>
    rw [show pendingRows (writeRow (some t) k v).1 = t.pending.insert k v from rfl,
      lookup_insert]
    rfl

theorem lookup_view_writeRow_ne (rows : AList V) (txn : Option (Txn V)) {k' : K} (v : V k)
    (h : k' ≠ k) :
    (view ((writeRow txn k v).2 ∪ rows) (writeRow txn k v).1).lookup k' =
      (view rows txn).lookup k' := by
  rw [lookup_view, lookup_view]
  cases txn with
  | none =>
    rw [lookup_union, show (writeRow none k v).2 = singleton k v from rfl,
      lookup_singleton_ne v h]
    rfl
  | some t =>
    rw [show pendingRows (writeRow (some t) k v).1 = t.pending.insert k v from rfl,
      lookup_insert_ne h, lookup_union,
      show (writeRow (some t) k v).2.lookup k' = none from rfl]
    rfl

theorem mem_of_lookup {a : AList V} {v : V k} (h : a.lookup k = some v) : k ∈ a :=
  lookup_isSome.mp (by rw [h]; rfl)

/-! ## What a statement does, case by case -/

variable {q : Stmt V}

section Exec

variable {rows : AList V} {txn : Option (Txn V)} {k : K} {p : V k → Bool} {f : V k → V k} {v : V k}

theorem exec_selectForUpdate_some (h : ((view rows txn).lookup k).filter p = some v) :
    exec rows txn (.selectForUpdate k p) = (.ok (some v), txn.map (·.lock k), ∅) := by
  simp only [exec, h]

theorem exec_selectForUpdate_none (h : ((view rows txn).lookup k).filter p = none) :
    exec rows txn (.selectForUpdate k p) = (.ok none, txn, ∅) := by
  simp only [exec, h]

theorem exec_update_some (h : ((view rows txn).lookup k).filter p = some v) :
    exec rows txn (.update k p f) = (.ok (some (f v)), writeRow txn k (f v)) := by
  simp only [exec, h]

theorem exec_update_none (h : ((view rows txn).lookup k).filter p = none) :
    exec rows txn (.update k p f) = (.ok none, txn, ∅) := by
  simp only [exec, h]

theorem exec_insert_some {old : V k} (h : (view rows txn).lookup k = some old) :
    exec rows txn (.insert k v) = (.error .uniqueViolation, none, ∅) := by
  simp only [exec, h]

theorem exec_insert_none (h : (view rows txn).lookup k = none) :
    exec rows txn (.insert k v) = (.ok (), writeRow txn k v) := by
  simp only [exec, h]

/-- Only `begin` opens a transaction. -/
theorem exec_none_txn (h : q ≠ .begin) : (exec rows none q).2.1 = none := by
  cases q with
  | begin => exact absurd rfl h
  | selectForUpdate k p =>
    rcases hv : ((view rows none).lookup k).filter p with _ | v
    · rw [exec_selectForUpdate_none hv]
    · rw [exec_selectForUpdate_some hv]
      rfl
  | update k p f =>
    rcases hv : ((view rows none).lookup k).filter p with _ | v
    · rw [exec_update_none hv]
    · rw [exec_update_some hv]
      rfl
  | insert k v =>
    rcases hv : (view rows none).lookup k with _ | old
    · rw [exec_insert_none hv]
      rfl
    · rw [exec_insert_some hv]
  | _ => rfl

end Exec

/-- The statement writes rows only as `Rel` allows. -/
def Stmt.Respects (Rel : (k : K) → Option (V k) → V k → Prop) : Stmt V → Prop
  | .update k p f => ∀ v, p v = true → Rel k (some v) (f v)
  | .insert k v => Rel k none v
  | .upsert k v f => Rel k none v ∧ ∀ old, Rel k (some old) (f old)
  | .select _ | .scan _ | .selectForUpdate _ _ | .begin | .commit | .rollback => True

/-- The statement never writes the row. -/
def Stmt.Spares (k : K) : Stmt V → Prop
  | .update k' _ _ | .insert k' _ | .upsert k' _ _ => k' ≠ k
  | .select _ | .scan _ | .selectForUpdate _ _ | .begin | .commit | .rollback => True

omit [DecidableEq K] in
theorem Stmt.Spares.respects (h : q.Spares k) :
    q.Respects fun k' _ _ => k' ≠ k := by
  cases q with
  | update k' p f => exact fun _ _ => h
  | insert k' v => exact h
  | upsert k' v f => exact ⟨h, fun _ => h⟩
  | _ => trivial

/-! ## Many sessions -/

/-- The committed rows, the open transactions, and the batches that reached the store
with their sessions, newest first. -/
structure Db {K : Type} (V : K → Type) where
  rows : AList V
  txns : ℕ → Option (Txn V)
  log : List (ℕ × AList V)

namespace Db

/-- No other session holds the lock on `k`. -/
def Free (db : Db V) (i : ℕ) (k : K) : Prop :=
  ∀ j t, j ≠ i → db.txns j = some t → k ∉ t.locked

/-- Session `i` goes on with `txn` and `batch` reaches the store. -/
def apply (db : Db V) (i : ℕ) (txn : Option (Txn V)) (batch : AList V) : Db V where
  rows := batch ∪ db.rows
  txns := Function.update db.txns i txn
  log := if batch.entries.isEmpty then db.log else (i, batch) :: db.log

/-- One statement of session `i`. -/
inductive Step (db : Db V) (i : ℕ) (q : Stmt V) : q.Answer → Db V → Prop
  | done (hfree : ∀ k, demand db.rows (db.txns i) q = some k → db.Free i k) :
      Step db i q (exec db.rows (db.txns i) q).1
        (db.apply i (exec db.rows (db.txns i) q).2.1 (exec db.rows (db.txns i) q).2.2)
  | failed (detail : String) : Step db i q (.error (.backend detail)) (db.apply i none ∅)
  /-- the statement took effect, its answer got lost -/
  | lost (hfree : ∀ k, demand db.rows (db.txns i) q = some k → db.Free i k) (detail : String) :
      Step db i q (.error (.backend detail))
        (db.apply i none (exec db.rows (db.txns i) q).2.2)

variable {db : Db V} {i : ℕ}

theorem Step.of_ok {db' : Db V} {r : q.Result} (h : db.Step i q (.ok r) db') :
    (∀ k, demand db.rows (db.txns i) q = some k → db.Free i k) ∧
      (exec db.rows (db.txns i) q).1 = .ok r ∧
      db' = db.apply i (exec db.rows (db.txns i) q).2.1 (exec db.rows (db.txns i) q).2.2 := by
  generalize ha : (Except.ok r : q.Answer) = a at h
  cases h with
  | done hfree => exact ⟨hfree, rfl, rfl⟩
  | failed | lost => cases ha

@[simp] theorem lookup_apply (db : Db V) (i : ℕ) (txn : Option (Txn V)) (batch : AList V)
    (k : K) :
    (db.apply i txn batch).rows.lookup k = (batch.lookup k).or (db.rows.lookup k) :=
  lookup_union ..

variable {txn : Option (Txn V)}

theorem lookup_apply_of_notMem {batch : AList V} (h : k ∉ batch) :
    (db.apply i txn batch).rows.lookup k = db.rows.lookup k := by
  rw [lookup_apply, lookup_eq_none.mpr h]
  rfl

@[simp] theorem txns_apply_self (db : Db V) (i : ℕ) (txn : Option (Txn V)) (batch : AList V) :
    (db.apply i txn batch).txns i = txn :=
  Function.update_self ..

theorem txns_apply_ne (db : Db V) {j : ℕ} (txn : Option (Txn V)) (batch : AList V)
    (h : j ≠ i) : (db.apply i txn batch).txns j = db.txns j :=
  Function.update_of_ne h ..

/-- All a statement can do to its session's transaction and to the store. -/
inductive Moves (db : Db V) (i : ℕ) (q : Stmt V) : Option (Txn V) → AList V → Prop
  | unchanged : Moves db i q (db.txns i) ∅
  | locked (k : K) (hfree : db.Free i k) : Moves db i q ((db.txns i).map (·.lock k)) ∅
  | written (k : K) (v : V k) (hfree : db.Free i k)
      (hrel : ∀ Rel, q.Respects Rel → Rel k ((view db.rows (db.txns i)).lookup k) v) :
      Moves db i q (writeRow (db.txns i) k v).1 (writeRow (db.txns i) k v).2
  | opened : Moves db i q (some .empty) ∅
  | committed (hq : q = .commit) : Moves db i q none (pendingRows (db.txns i))
  | aborted : Moves db i q none ∅

/-- A statement that holds the lock it demands makes one of these moves. -/
theorem exec_moves (hfree : ∀ k, demand db.rows (db.txns i) q = some k → db.Free i k) :
    db.Moves i q (exec db.rows (db.txns i) q).2.1 (exec db.rows (db.txns i) q).2.2 := by
  cases q with
  | select | scan => exact .unchanged
  | selectForUpdate k p =>
    rcases hv : ((view db.rows (db.txns i)).lookup k).filter p with _ | v
    · rw [exec_selectForUpdate_none hv]
      exact .unchanged
    · rw [exec_selectForUpdate_some hv]
      exact .locked k (hfree k (by simp [demand, hv]))
  | update k p f =>
    rcases hv : ((view db.rows (db.txns i)).lookup k).filter p with _ | v
    · rw [exec_update_none hv]
      exact .unchanged
    · rw [exec_update_some hv]
      refine .written k (f v) (hfree k (by simp [demand, hv])) fun Rel hrel => ?_
      obtain ⟨hlookup, hp⟩ := Option.filter_eq_some_iff.mp hv
      rw [hlookup]
      exact hrel v hp
  | insert k v =>
    rcases hv : (view db.rows (db.txns i)).lookup k with _ | old
    · rw [exec_insert_none hv]
      exact .written k v (hfree k (by simp [demand, hv])) fun Rel hrel => hv ▸ hrel
    · rw [exec_insert_some hv]
      exact .aborted
  | upsert k v f =>
    refine .written k _ (hfree k rfl) fun Rel hrel => ?_
    cases (view db.rows (db.txns i)).lookup k with
    | none => exact hrel.1
    | some old => exact hrel.2 old
  | begin => exact .opened
  | commit => exact .committed rfl
  | rollback => exact .aborted

/-- A statement whose answer got lost makes one of these moves too. -/
theorem Moves.lost {batch : AList V}
    (h : db.Moves i q txn batch) : db.Moves i q none batch := by
  cases h with
  | unchanged | locked => exact .aborted
  | written k v hfree hrel =>
    rcases htxn : db.txns i with _ | t
    · have hmoves := Moves.written k v hfree hrel
      rwa [htxn] at hmoves
    · exact .aborted
  | opened => exact .aborted
  | committed hq => exact .committed hq
  | aborted => exact .aborted

theorem Step.moves {db' : Db V} {a : q.Answer} (h : db.Step i q a db') :
    ∃ txn batch, db' = db.apply i txn batch ∧ db.Moves i q txn batch := by
  cases h with
  | done hfree => exact ⟨_, _, rfl, exec_moves hfree⟩
  | failed detail => exact ⟨_, _, rfl, .aborted⟩
  | lost hfree detail => exact ⟨_, _, rfl, (exec_moves hfree).lost⟩

/-- The transactions of other sessions stay as they are. -/
theorem Step.txns_ne {db' : Db V} {a : q.Answer} {j : ℕ} (h : db.Step i q a db') (hne : j ≠ i) :
    db'.txns j = db.txns j := by
  obtain ⟨txn, batch, rfl, -⟩ := h.moves
  exact txns_apply_ne db txn batch hne

omit [DecidableEq K] in
/-- What holds of a session's transaction. -/
theorem of_txns {P : Txn V → Prop} {t : Txn V} (h : ∃ t, db.txns i = some t ∧ P t)
    (ht : db.txns i = some t) : P t := by
  obtain ⟨t', ht', hP⟩ := h
  obtain rfl := Option.some.inj (ht'.symm.trans ht)
  exact hP

/-! ## Locks and evolution -/

/-- Locks are exclusive, uncommitted rows are locked, and they come from the committed
ones by `Rel`. -/
structure Consistent (Rel : (k : K) → Option (V k) → V k → Prop) (db : Db V) : Prop where
  exclusive : ∀ {i j : ℕ} {t u : Txn V} {k : K}, db.txns i = some t → db.txns j = some u →
    k ∈ t.locked → k ∈ u.locked → i = j
  covered : ∀ {i : ℕ} {t : Txn V} {k : K}, db.txns i = some t → k ∈ t.pending → k ∈ t.locked
  related : ∀ {i : ℕ} {t : Txn V} {k : K} {v : V k}, db.txns i = some t →
    t.pending.lookup k = some v → Rel k (db.rows.lookup k) v

/-- With no transaction open there is nothing to keep. -/
theorem Consistent.of_idle {Rel : (k : K) → Option (V k) → V k → Prop}
    (h : ∀ i, db.txns i = none) : db.Consistent Rel where
  exclusive ht := by rw [h] at ht; cases ht
  covered ht := by rw [h] at ht; cases ht
  related ht := by rw [h] at ht; cases ht

variable {Rel : (k : K) → Option (V k) → V k → Prop} {db db' : Db V} {i j : ℕ} {q : Stmt V}
  {txn : Option (Txn V)} {batch : AList V} {t : Txn V} {k : K}

omit [DecidableEq K] in
theorem mem_pendingRows (h : k ∈ pendingRows txn) :
    ∃ t, txn = some t ∧ k ∈ t.pending := by
  cases txn with
  | none => exact absurd h (notMem_empty k)
  | some t => exact ⟨t, rfl, h⟩

theorem mem_writeRow {k' : K} {v : V k'} (h : k ∈ (writeRow txn k' v).2) :
    txn = none ∧ k = k' := by
  cases txn with
  | some t => exact absurd h (notMem_empty k)
  | none =>
    refine ⟨rfl, ?_⟩
    by_contra hne
    exact lookup_eq_none.mp (lookup_singleton_ne v hne) h

/-- What another session has locked does not change. -/
theorem Moves.notMem_batch (hc : db.Consistent Rel) (hmoves : db.Moves i q txn batch)
    (hne : j ≠ i) (ht : db.txns j = some t) (hk : k ∈ t.locked) : k ∉ batch := by
  intro hmem
  cases hmoves with
  | unchanged | locked => exact notMem_empty k hmem
  | written k' v hfree hrel =>
    obtain ⟨-, rfl⟩ := mem_writeRow hmem
    exact hfree j t hne ht hk
  | opened => exact notMem_empty k hmem
  | committed hq =>
    obtain ⟨u, hu, hpending⟩ := mem_pendingRows hmem
    exact hne (hc.exclusive ht hu hk (hc.covered hu hpending))
  | aborted => exact notMem_empty k hmem

/-- What a move can do to a transaction that stays open, or has just been opened. -/
theorem Moves.open_cases (hmoves : db.Moves i q (some t) batch) :
    batch = ∅ ∧ (t = .empty ∨ ∃ u, db.txns i = some u ∧
      (t = u ∨ (∃ k, db.Free i k ∧ t = u.lock k) ∨
        ∃ k v, db.Free i k ∧ t = u.write k v ∧
          ∀ Rel, q.Respects Rel → Rel k ((view db.rows (db.txns i)).lookup k) v)) := by
  generalize htxn : some t = txn at hmoves
  cases hmoves with
  | unchanged => exact ⟨rfl, .inr ⟨t, htxn.symm, .inl rfl⟩⟩
  | locked k hfree =>
    obtain ⟨u, hu, rfl⟩ := Option.map_eq_some_iff.mp htxn.symm
    exact ⟨rfl, .inr ⟨u, hu, .inr (.inl ⟨k, hfree, rfl⟩)⟩⟩
  | written k v hfree hrel =>
    rcases hu : db.txns i with _ | u
    · rw [hu] at htxn
      cases htxn
    · rw [hu] at htxn hrel
      cases htxn
      exact ⟨rfl, .inr ⟨u, rfl, .inr (.inr ⟨k, v, hfree, rfl, hrel⟩)⟩⟩
  | opened =>
    cases htxn
    exact ⟨rfl, .inl rfl⟩
  | committed | aborted => cases htxn

/-- The locks a session has after a move are its old ones and free ones. -/
theorem Moves.locked_cases (hmoves : db.Moves i q (some t) batch) (hk : k ∈ t.locked) :
    (∃ u, db.txns i = some u ∧ k ∈ u.locked) ∨ db.Free i k := by
  obtain ⟨-, rfl | ⟨u, hu, rfl | ⟨k', hfree, rfl⟩ | ⟨k', v, hfree, rfl, -⟩⟩⟩ := hmoves.open_cases
  · cases hk
  · exact .inl ⟨t, hu, hk⟩
  · rcases List.mem_cons.mp hk with rfl | hk
    · exact .inr hfree
    · exact .inl ⟨u, hu, hk⟩
  · rcases List.mem_cons.mp hk with rfl | hk
    · exact .inr hfree
    · exact .inl ⟨u, hu, hk⟩

/-- The uncommitted rows a session has after a move are its old ones and the written one,
which `Rel` allows over what the session saw. -/
theorem Moves.pending_cases (hmoves : db.Moves i q (some t) batch) (hq : q.Respects Rel)
    {v : V k} (hv : t.pending.lookup k = some v) :
    (∃ u, db.txns i = some u ∧ u.pending.lookup k = some v) ∨
      Rel k ((view db.rows (db.txns i)).lookup k) v := by
  obtain ⟨-, rfl | ⟨u, hu, rfl | ⟨k', -, rfl⟩ | ⟨k', w, -, rfl, hrel⟩⟩⟩ := hmoves.open_cases
  · cases hv
  · exact .inl ⟨t, hu, hv⟩
  · exact .inl ⟨u, hu, hv⟩
  · by_cases hk : k = k'
    · subst hk
      rw [show (u.write k w).pending.lookup k = some w from lookup_insert _] at hv
      cases hv
      exact .inr (hrel Rel hq)
    · rw [show (u.write k' w).pending.lookup k = u.pending.lookup k from
        lookup_insert_ne hk] at hv
      exact .inl ⟨u, hu, hv⟩

/-- A session that spares a row neither holds an uncommitted version of it nor commits
one. -/
theorem Moves.spares (hmoves : db.Moves i q txn batch) (hq : q.Spares k)
    (hk : k ∉ pendingRows (db.txns i)) : k ∉ pendingRows txn ∧ k ∉ batch := by
  cases hmoves with
  | unchanged => exact ⟨hk, notMem_empty k⟩
  | locked k' hfree =>
    refine ⟨fun hmem => hk ?_, notMem_empty k⟩
    rcases htxn : db.txns i with _ | t
    · rw [htxn] at hmem
      exact hmem
    · rw [htxn] at hmem
      exact hmem
  | written k' v hfree hrel =>
    have hne : k' ≠ k := hrel _ hq.respects
    rcases htxn : db.txns i with _ | t
    · refine ⟨notMem_empty k, fun hmem => hne ?_⟩
      exact (mem_writeRow hmem).2.symm
    · refine ⟨fun hmem => ?_, notMem_empty k⟩
      rw [htxn] at hk
      rcases (mem_insert _).mp hmem with rfl | hmem
      · exact hne rfl
      · exact hk hmem
  | opened => exact ⟨notMem_empty k, notMem_empty k⟩
  | committed hq => exact ⟨notMem_empty k, hk⟩
  | aborted => exact ⟨notMem_empty k, notMem_empty k⟩

/-- `Rel` may be taken over what a session saw or over what is committed. -/
theorem Consistent.rel_of_view (hc : db.Consistent Rel)
    (htrans : ∀ {k o v w}, Rel k o v → Rel k (some v) w → Rel k o w) {v : V k}
    (h : Rel k ((view db.rows (db.txns i)).lookup k) v) : Rel k (db.rows.lookup k) v := by
  rw [lookup_view] at h
  rcases ht : db.txns i with _ | t
  · rw [ht] at h
    simpa [pendingRows] using h
  · rw [ht] at h
    rcases hpending : t.pending.lookup k with _ | w
    · simpa [pendingRows, hpending] using h
    · exact htrans (hc.related ht hpending) (by simpa [pendingRows, hpending] using h)

theorem Moves.covered (hc : db.Consistent Rel) (hmoves : db.Moves i q (some t) batch)
    (hk : k ∈ t.pending) : k ∈ t.locked := by
  obtain ⟨-, rfl | ⟨u, hu, rfl | ⟨k', -, rfl⟩ | ⟨k', v, -, rfl, -⟩⟩⟩ := hmoves.open_cases
  · exact absurd hk (notMem_empty k)
  · exact hc.covered hu hk
  · exact List.mem_cons_of_mem _ (hc.covered hu hk)
  · rcases (mem_insert _).mp hk with rfl | hk
    · exact List.mem_cons_self ..
    · exact List.mem_cons_of_mem _ (hc.covered hu hk)

/-- While a transaction stays open nothing is committed. -/
theorem Moves.open_batch (hmoves : db.Moves i q (some t) batch) : k ∉ batch := by
  rw [hmoves.open_cases.1]
  exact notMem_empty k

/-- A row a statement commits is allowed by `Rel` over the committed one. -/
theorem Moves.rel_batch (hc : db.Consistent Rel)
    (htrans : ∀ {k o v w}, Rel k o v → Rel k (some v) w → Rel k o w)
    (hq : q.Respects Rel) (hmoves : db.Moves i q txn batch) {v : V k}
    (hv : batch.lookup k = some v) : Rel k (db.rows.lookup k) v := by
  cases hmoves with
  | unchanged | locked => cases hv
  | written k' w hfree hrel =>
    obtain ⟨htxn, rfl⟩ := mem_writeRow (mem_of_lookup hv)
    rw [htxn, show (writeRow none k w).2 = singleton k w from rfl,
      lookup_singleton_self] at hv
    cases hv
    exact hc.rel_of_view htrans (hrel Rel hq)
  | opened => cases hv
  | committed hq =>
    obtain ⟨t, ht, -⟩ := mem_pendingRows (mem_of_lookup hv)
    exact hc.related ht (by simpa [pendingRows, ht] using hv)
  | aborted => cases hv

/-- A committed row changes only as `Rel` allows. -/
theorem Consistent.lookup_step (hc : db.Consistent Rel)
    (htrans : ∀ {k o v w}, Rel k o v → Rel k (some v) w → Rel k o w)
    (hq : q.Respects Rel) {a : q.Answer} (h : db.Step i q a db') (k : K) :
    db'.rows.lookup k = db.rows.lookup k ∨
      ∃ v, db'.rows.lookup k = some v ∧ Rel k (db.rows.lookup k) v := by
  obtain ⟨txn, batch, rfl, hmoves⟩ := h.moves
  rw [lookup_apply]
  rcases hv : batch.lookup k with _ | v
  · exact .inl rfl
  · exact .inr ⟨v, rfl, hmoves.rel_batch hc htrans hq hv⟩

/-- A row that another session has locked does not change. -/
theorem Consistent.lookup_of_locked (hc : db.Consistent Rel) {a : q.Answer}
    (h : db.Step i q a db') (hne : j ≠ i) (ht : db.txns j = some t) (hk : k ∈ t.locked) :
    db'.txns j = some t ∧ db'.rows.lookup k = db.rows.lookup k := by
  obtain ⟨txn, batch, rfl, hmoves⟩ := h.moves
  exact ⟨(txns_apply_ne db txn batch hne).trans ht,
    lookup_apply_of_notMem (hmoves.notMem_batch hc hne ht hk)⟩

/-- Every statement that respects `Rel` keeps the database consistent. -/
theorem Consistent.step (hc : db.Consistent Rel)
    (htrans : ∀ {k o v w}, Rel k o v → Rel k (some v) w → Rel k o w)
    (hq : q.Respects Rel) {a : q.Answer} (h : db.Step i q a db') : db'.Consistent Rel := by
  obtain ⟨txn, batch, rfl, hmoves⟩ := h.moves
  -- a lock of session `i` after the move meets no lock of another session
  have hexcl : ∀ {j t u k}, j ≠ i → txn = some t → db.txns j = some u → k ∈ t.locked →
      k ∉ u.locked := by
    intro j t u k hne ht hu hk hk'
    subst ht
    rcases hmoves.locked_cases hk with ⟨w, hw, hwk⟩ | hfree
    · exact hne (hc.exclusive hu hw hk' hwk)
    · exact hfree j u hne hu hk'
  constructor
  · intro i' j' t u k ht hu hkt hku
    by_cases hi : i' = i
    · by_cases hj : j' = i
      · exact hi.trans hj.symm
      · subst hi
        rw [txns_apply_self] at ht
        rw [txns_apply_ne db txn batch hj] at hu
        exact absurd hku (hexcl hj ht hu hkt)
    · rw [txns_apply_ne db txn batch hi] at ht
      by_cases hj : j' = i
      · subst hj
        rw [txns_apply_self] at hu
        exact absurd hkt (hexcl hi hu ht hku)
      · rw [txns_apply_ne db txn batch hj] at hu
        exact hc.exclusive ht hu hkt hku
  · intro j t k ht hk
    by_cases hj : j = i
    · subst hj
      rw [txns_apply_self] at ht
      subst ht
      exact hmoves.covered hc hk
    · rw [txns_apply_ne db txn batch hj] at ht
      exact hc.covered ht hk
  · intro j t k v ht hv
    by_cases hj : j = i
    · subst hj
      rw [txns_apply_self] at ht
      subst ht
      -- a session that still has a transaction has committed nothing
      have hbatch : k ∉ batch := fun hk => hmoves.open_batch hk
      rw [lookup_apply_of_notMem hbatch]
      rcases hmoves.pending_cases hq hv with ⟨u, hu, huv⟩ | hrel
      · exact hc.related hu huv
      · exact hc.rel_of_view htrans hrel
    · rw [txns_apply_ne db txn batch hj] at ht
      rw [lookup_apply_of_notMem
        (hmoves.notMem_batch hc hj ht (hc.covered ht (mem_of_lookup hv)))]
      exact hc.related ht hv

end Db

end ReadCommitted
