import Embyr.World

/-!
# A batch and its writes one at a time

`commit_transaction` computes every transform of a batch from the documents as they were
before the batch. Committing the same writes one by one computes each from what the
earlier ones left.

* `applyAll`, `applyEach` — the two, on the documents readers see.
* `World.run_commitTransaction`, `World.run_commitEach` — the programs do exactly that.
* `SnapshotSuffices` — when the snapshot makes no difference; `commit_eq_sequence_iff` —
  exactly then do batch and sequence agree.
-/

namespace Embyr

open Program ReadCommitted World Function List

/-! ## Two ways to apply a list of writes -/

/-- The apply loop: each effect is computed from `snapshot`. -/
def applyAll (now : Timestamp) (snapshot : Documents) :
    Documents → List Write → Except CoreError (Documents × List (List FieldValue))
  | docs, [] => .ok (docs, [])
  | docs, write :: writes => do
    let (final, values) ← write.effect now (snapshot.stored write.path)
    let (docs, rest) ← applyAll now snapshot (Function.update docs write.path final) writes
    return (docs, values :: rest)

/-- One commit per write: each effect is computed from what the earlier ones left. -/
def applyEach (now : Timestamp) :
    Documents → List Write → Except CoreError (Documents × List (List FieldValue))
  | docs, [] => .ok (docs, [])
  | docs, write :: writes => do
    let (final, values) ← write.effect now (docs.stored write.path)
    let (docs, rest) ← applyEach now (Function.update docs write.path final) writes
    return (docs, values :: rest)

/-- The snapshot makes no difference: applied to what the earlier writes left, each write
reports the same values, and leaves the same fields unless a later write names its
document again. -/
def SnapshotSuffices (now : Timestamp) (snapshot : Documents) : Documents → List Write → Prop
  | _, [] => True
  | docs, write :: writes =>
    ∃ final final' values,
      write.effect now (snapshot.stored write.path) = .ok (final, values) ∧
      write.effect now (docs.stored write.path) = .ok (final', values) ∧
      (final' = final ∨ ∃ later ∈ writes, later.path = write.path) ∧
      SnapshotSuffices now snapshot (Function.update docs write.path final') writes

variable {now : Timestamp} {snapshot docs' docs : Documents} {write : Write} {writes : List Write}
  {values : List (List FieldValue)}

theorem applyAll_cons_ok (h : applyAll now snapshot docs (write :: writes) = .ok (docs', values)) :
    ∃ final vs rest, write.effect now (snapshot.stored write.path) = .ok (final, vs) ∧
      applyAll now snapshot (update docs write.path final) writes = .ok (docs', rest) ∧
      values = vs :: rest := by
  unfold applyAll at h
  rcases heffect : write.effect now (snapshot.stored write.path) with e | ⟨final, vs⟩
  · rw [heffect] at h
    cases h
  · rw [heffect] at h
    simp only [bind, Except.bind] at h
    rcases hrest : applyAll now snapshot (update docs write.path final) writes with
      e | ⟨docs'', rest⟩
    · rw [hrest] at h
      cases h
    · rw [hrest] at h
      cases h
      exact ⟨final, vs, rest, rfl, hrest, rfl⟩

theorem applyEach_cons_ok_iff {vs : List FieldValue} {rest : List (List FieldValue)} :
    applyEach now docs (write :: writes) = .ok (docs', vs :: rest) ↔
      ∃ final, write.effect now (docs.stored write.path) = .ok (final, vs) ∧
        applyEach now (update docs write.path final) writes = .ok (docs', rest) := by
  rw [applyEach]
  rcases heffect : write.effect now (docs.stored write.path) with e | ⟨final, vs'⟩
  · simp [bind, Except.bind]
  · simp only [bind, Except.bind]
    rcases hrest : applyEach now (update docs write.path final) writes with
      e | ⟨docs'', rest'⟩
    · simp only [reduceCtorEq, Except.ok.injEq, Prod.mk.injEq, false_iff]
      rintro ⟨final', ⟨rfl, rfl⟩, h⟩
      rw [hrest] at h
      cases h
    · simp only [pure, Except.pure, Except.ok.injEq, Prod.mk.injEq, cons.injEq]
      constructor
      · rintro ⟨rfl, rfl, rfl⟩
        exact ⟨final, ⟨rfl, rfl⟩, hrest⟩
      · rintro ⟨final', ⟨rfl, rfl⟩, h⟩
        rw [hrest] at h
        cases h
        exact ⟨rfl, rfl, rfl⟩

/-- Batch and sequence agree exactly when the snapshot suffices. The induction runs both
from documents that may already differ where a later write decides. -/
theorem applyEach_eq_iff (each : Documents)
    (h : applyAll now snapshot docs writes = .ok (docs', values)) :
    applyEach now each writes = .ok (docs', values) ↔
      SnapshotSuffices now snapshot each writes ∧
        ∀ path, (∀ write ∈ writes, write.path ≠ path) → each path = docs path := by
  induction writes generalizing docs each values with
  | nil =>
    cases h
    simp only [applyEach, Except.ok.injEq, Prod.mk.injEq, and_true, SnapshotSuffices,
      not_mem_nil, false_imp_iff, implies_true, true_imp_iff, true_and]
    exact funext_iff
  | cons write writes ih =>
    obtain ⟨final, vs, rest, heffect, hrest, rfl⟩ := applyAll_cons_ok h
    rw [applyEach_cons_ok_iff]
    constructor
    · rintro ⟨final', heffect', hrest'⟩
      obtain ⟨hsuffices, hagree⟩ := (ih _ hrest).mp hrest'
      refine ⟨⟨final, final', vs, heffect, heffect', ?_, hsuffices⟩, fun path hpath => ?_⟩
      · by_cases hlater : ∃ later ∈ writes, later.path = write.path
        · exact .inr hlater
        · left
          have := hagree write.path fun x hx hpath => hlater ⟨x, hx, hpath⟩
          rwa [update_self, update_self] at this
      · have hne : path ≠ write.path := fun heq => hpath write mem_cons_self heq.symm
        have := hagree path (forall_mem_cons.mp hpath).2
        rwa [update_of_ne hne, update_of_ne hne] at this
    · rintro ⟨⟨final₀, final', vs₀, heffect₀, heffect', hlast, hsuffices⟩, hagree⟩
      rw [heffect] at heffect₀
      cases heffect₀
      refine ⟨final', heffect', (ih _ hrest).mpr ⟨hsuffices, fun path hpath => ?_⟩⟩
      by_cases hp : path = write.path
      · subst hp
        rw [update_self, update_self]
        rcases hlast with rfl | ⟨later, hmem, hlater⟩
        · rfl
        · exact absurd hlater (hpath later hmem)
      · rw [update_of_ne hp, update_of_ne hp]
        refine hagree path fun x hx => ?_
        rcases mem_cons.mp hx with rfl | hx
        · exact fun heq => hp heq.symm
        · exact hpath x hx

/-! ## What the programs do -/

/-- A transaction that is ready to commit without recorded reads. -/
structure World.Ready (w : World) (project : ProjectId) (uuid : Uuid) (row : TransactionRow) :
    Prop where
  row_eq : w.transactionRow uuid = some row
  project_eq : row.projectId = project
  active : row.status = .active
  fresh : w.env.clock.toNanos - row.startedAt.toNanos ≤ transactionLifetime
  reads_eq : row.reads = ∅

/-- A write without precondition and version. -/
def Write.Plain (write : Write) : Prop := write.precondition = none ∧ write.version = none

variable {w' : World}

namespace World

variable {w : World}

/-- Reading and locking change nothing a statement sees. -/
structure Quiet (w w' : World) : Prop where
  rowsSeen_eq : w'.rowsSeen = w.rowsSeen
  env_eq : w'.env = w.env

theorem Quiet.refl (w : World) : Quiet w w := ⟨rfl, rfl⟩

theorem Quiet.trans {w₁ w₂ w₃ : World} (h : Quiet w₁ w₂) (h' : Quiet w₂ w₃) : Quiet w₁ w₃ :=
  ⟨h'.rowsSeen_eq.trans h.rowsSeen_eq, h'.env_eq.trans h.env_eq⟩

theorem Quiet.document_eq (h : Quiet w w') : w'.document = w.document :=
  document_eq_of_rowsSeen h.rowsSeen_eq

theorem run_lockDocument (w : World) (path : DocumentPath) :
    ∃ w', w.run (lockDocument path) = (.ok ((w.documentRow path).filter DocumentRow.visible), w') ∧
      Quiet w w' := by
  rcases hrow : (w.documentRow path).filter DocumentRow.visible with _ | row
  · exact ⟨w, run_selectForUpdate_none hrow, .refl w⟩
  · exact ⟨w.lock (.document path), run_selectForUpdate_some hrow, lock_rowsSeen, rfl⟩

/-- What the snapshot holds for a write. -/
def locked (snapshot : Documents) (write : Write) : Option Fields :=
  if write.readsFields then some (snapshot.stored write.path) else none

theorem run_lockField (w : World) (write : Write) :
    ∃ w', w.run (lockField write) = (.ok (locked w.document write), w') ∧ Quiet w w' := by
  unfold lockField locked
  by_cases hreads : write.readsFields
  · obtain ⟨w', hrun, hquiet⟩ := run_lockDocument w write.path
    refine ⟨w', ?_, hquiet⟩
    rw [if_pos hreads, if_pos hreads, run_bind_of_ok hrun]
    have hstored : Documents.stored w.document write.path =
        ((w.documentRow write.path).filter DocumentRow.visible).elim ∅ DocumentRow.fields := by
      unfold Documents.stored document
      rcases (w.documentRow write.path).filter DocumentRow.visible with _ | row <;> rfl
    rw [hstored]
    rfl
  · rw [if_neg hreads, if_neg hreads]
    exact ⟨w, rfl, .refl w⟩

theorem run_lockFields (w : World) (writes : List Write) :
    ∃ w', w.run (Prog.mapEach lockField writes) = (.ok (writes.map (locked w.document)), w') ∧
      Quiet w w' := by
  induction writes generalizing w with
  | nil => exact ⟨w, rfl, .refl w⟩
  | cons write writes ih =>
    obtain ⟨w₁, hrun, hquiet⟩ := run_lockField w write
    obtain ⟨w₂, hrest, hquiet'⟩ := ih w₁
    refine ⟨w₂, ?_, hquiet.trans hquiet'⟩
    unfold Prog.mapEach
    rw [run_bind_of_ok hrun, run_bind_of_ok hrest, hquiet.document_eq]
    rfl

end World

theorem Write.effect_of_not_readsFields (h : ¬ write.readsFields) (now : Timestamp)
    (stored stored' : Fields) :
    write.effect now stored = write.effect now stored' := by
  cases write with
  | update path fields version precondition transforms =>
    have hnil : transforms = [] := by simpa [Write.readsFields] using h
    subst hnil
    rfl
  | delete path version precondition => rfl
  | transform path transforms => exact absurd rfl h

/-- A write that is not snapshotted does not look at the stored fields. -/
theorem Write.effect_locked (now : Timestamp) (snapshot : Documents) (write : Write) :
    write.effect now ((locked snapshot write).getD ∅) =
      write.effect now (snapshot.stored write.path) := by
  by_cases hreads : write.readsFields
  · rw [locked, if_pos hreads, Option.getD_some]
  · exact Write.effect_of_not_readsFields hreads ..

variable {R : Type} {body : Adapter R}

namespace World

variable {w : World}

theorem run_applyWrite_ok {final : Option Fields} {values : List FieldValue}
    (h : write.effect now (snapshot.stored write.path) = .ok (final, values)) :
    w.run (applyWrite now write (locked snapshot write)) =
      (.ok ⟨now, none, values⟩, w.store write.path now final) := by
  obtain ⟨r, hstore⟩ := run_store w write.path now final
  unfold applyWrite
  rw [Write.effect_locked, h]
  exact run_bind_of_ok hstore

theorem run_applyWrite_error {e : CoreError}
    (h : write.effect now (snapshot.stored write.path) = .error e) :
    w.run (applyWrite now write (locked snapshot write)) = (.error e, w) := by
  unfold applyWrite
  rw [Write.effect_locked, h]
  rfl

/-- The results a commit reports. -/
def results (now : Timestamp) (values : List (List FieldValue)) : List WriteResult :=
  values.map fun vs => ⟨now, none, vs⟩

/-- The apply loop computes `applyAll`, and fails when it does. -/
theorem run_applyWrites (w : World) (now : Timestamp) (snapshot : Documents)
    (writes : List Write) :
    match applyAll now snapshot w.document writes with
    | .ok (docs, values) => ∃ w',
        w.run (Prog.mapEach (fun x => applyWrite now x.1 x.2)
          (writes.zip (writes.map (locked snapshot)))) = (.ok (results now values), w') ∧
        w'.document = docs ∧ w'.transactionRow = w.transactionRow ∧ w'.env = w.env
    | .error e => ∃ w', w.run (Prog.mapEach (fun x => applyWrite now x.1 x.2)
        (writes.zip (writes.map (locked snapshot)))) = (.error e, w') := by
  induction writes generalizing w with
  | nil => exact ⟨w, rfl, rfl, rfl, rfl⟩
  | cons write writes ih =>
    rw [map_cons, zip_cons_cons, Prog.mapEach, applyAll]
    rcases heffect : write.effect now (snapshot.stored write.path) with e | ⟨final, values⟩
    · exact ⟨w, run_bind_of_error (run_applyWrite_error heffect)⟩
    · have hturn := run_applyWrite_ok (w := w) heffect
      have hrest := ih (w.store write.path now final)
      rw [document_store] at hrest
      simp only [bind, Except.bind]
      rcases hall : applyAll now snapshot (update w.document write.path final) writes with
        e | ⟨docs, rest⟩
      · rw [hall] at hrest
        obtain ⟨w', hrun⟩ := hrest
        exact ⟨w', (run_bind_of_ok hturn).trans (run_bind_of_error hrun)⟩
      · rw [hall] at hrest
        obtain ⟨w', hrun, hdocs, htxns, henv⟩ := hrest
        refine ⟨w', (run_bind_of_ok hturn).trans (run_bind_of_ok hrun), hdocs, ?_, ?_⟩
        · rw [htxns, transactionRow_store]
        · rw [henv, store_env]

/-- Snapshot, apply loop and mark. -/
theorem run_performWrites {uuid : Uuid} {row : TransactionRow}
    (hrow : w.transactionRow uuid = some row) (writes : List Write) :
    match applyAll w.env.clock w.document w.document writes with
    | .ok (docs, values) => ∃ w',
        w.run (performWrites uuid writes) = (.ok (results w.env.clock values), w') ∧
        w'.document = docs ∧ w'.env = w.env ∧
        w'.transactionRow =
          update w.transactionRow uuid (some { row with status := .committed })
    | .error e => ∃ w', w.run (performWrites uuid writes) = (.error e, w') := by
  obtain ⟨w₁, hlock, hquiet⟩ := run_lockFields w writes
  have hloop := run_applyWrites w₁ w.env.clock w.document writes
  have hnow : w₁.run (utcNow : Adapter Timestamp) = (.ok w.env.clock, w₁) := by
    rw [← hquiet.env_eq]
    rfl
  rw [hquiet.document_eq] at hloop
  rcases hall : applyAll w.env.clock w.document w.document writes with e | ⟨docs, values⟩
  · rw [hall] at hloop
    obtain ⟨w₂, hrun⟩ := hloop
    exact ⟨w₂, (run_bind_of_ok hlock).trans
      ((run_bind_of_ok hnow).trans (run_bind_of_error hrun))⟩
  · rw [hall] at hloop
    obtain ⟨w₂, hrun, hdocs, htxns, henv⟩ := hloop
    have htxns' : w₂.transactionRow = w.transactionRow :=
      htxns.trans (transactionRow_eq_of_rowsSeen hquiet.rowsSeen_eq)
    have hmark : w₂.run (sql (markCommitted uuid)) =
        (.ok (some { row with status := .committed }),
          w₂.put (.transaction uuid) { row with status := .committed }) := by
      refine run_update_some (k := Key.transaction uuid) (v := row) ?_
      rw [show w₂.rowsSeen.lookup (.transaction uuid) = some row from
        (congrFun htxns' uuid).trans hrow]
      rfl
    refine ⟨w₂.put (.transaction uuid) { row with status := .committed }, ?_, ?_, ?_, ?_⟩
    · exact (run_bind_of_ok hlock).trans ((run_bind_of_ok hnow).trans
        ((run_bind_of_ok hrun).trans (run_bind_of_ok hmark)))
    · rw [document_put_transaction, hdocs]
    · rw [put_env, henv, hquiet.env_eq]
    · rw [transactionRow_put_transaction, htxns']

theorem run_attempt {ε : Type} {r : Except CoreError R} (h : w.run body = (r, w')) :
    w.run (body.attempt : Prog Call.Answer ε (Except CoreError R)) = (.ok r, w') := by
  refine (Prog.run_attempt answer body _).trans ?_
  rw [show Prog.run answer body _ = _ from h]

/-- A transaction whose body succeeds is committed. -/
theorem run_inTransaction_ok {r : R}
    (h : ({ w with txn := some .empty } : World).run body = (.ok r, w')) :
    w.run (inTransaction body) = (.ok r, { w' with rows := w'.rowsSeen, txn := none }) := by
  refine (run_bind_of_ok run_begin).trans ?_
  exact (run_bind_of_ok (run_attempt h)).trans (run_bind_of_ok run_commit)

/-- A transaction whose body fails is rolled back. -/
theorem run_inTransaction_error {e : CoreError}
    (h : ({ w with txn := some .empty } : World).run body = (.error e, w')) :
    (w.run (inTransaction body)).1 = .error e := by
  rw [show w.run (inTransaction body) = _ from
    (run_bind_of_ok run_begin).trans (run_bind_of_ok (run_attempt h))]
  rfl

end World

/-- Without preconditions, versions and reads there is nothing to check. -/
theorem verifyCommit_plain {project : ProjectId}
    (hplain : ∀ write ∈ writes, write.Plain) : verifyCommit project ∅ writes = .ok () := by
  unfold verifyCommit verifyVersions verifyReads
  rw [Prog.forEach_eq_ok fun x hx => by simp only [verifyUpdateTime, (hplain x hx).1],
    Prog.forEach_eq_ok fun x hx => by simp only [verifyExistence, (hplain x hx).1],
    Prog.forEach_eq_ok fun x hx => by simp only [verifyVersion, (hplain x hx).2],
    Std.ExtTreeMap.toList_eq_nil_iff.mpr rfl]
  rfl

namespace World

variable {w : World} {project : ProjectId} {uuid : Uuid} {row : TransactionRow}

theorem quiet_begun (hidle : w.txn = none) : Quiet w { w with txn := some .empty } :=
  ⟨by rw [rowsSeen_begun, rowsSeen_idle hidle], rfl⟩

/-- A commit that is ready goes straight to its transaction. -/
theorem run_commitTransaction_ready (hready : w.Ready project uuid row) (writes : List Write) :
    w.run (commitTransaction project uuid.bytes writes) =
      w.run (inTransaction do
        verifyCommit project ∅ writes
        performWrites uuid writes) := by
  have huuid : uuidFromBytes uuid.bytes = .ok uuid := dif_pos uuid.length_eq
  have hselect : w.run (sql (.select (.transaction uuid))) = (.ok (some row), w) := by
    rw [run_select, show w.rowsSeen.lookup (.transaction uuid) = some row from hready.row_eq]
  unfold commitTransaction
  rw [huuid]
  refine (run_bind_of_ok hselect).trans ?_
  simp only [Option.filter_some, hready.project_eq, decide_true, if_true, hready.active,
    ne_eq, not_true_eq_false, if_false]
  refine (run_bind_of_ok (show w.run (utcNow : Adapter Timestamp) = (.ok w.env.clock, w) from
    rfl)).trans ?_
  rw [if_neg (not_lt.mpr hready.fresh), hready.reads_eq]

/-- A commit that is ready computes `applyAll` from the documents it finds, and leaves
every other transaction as it was. -/
theorem run_commitTransaction (hidle : w.txn = none) (hready : w.Ready project uuid row)
    (hplain : ∀ write ∈ writes, write.Plain) :
    match applyAll w.env.clock w.document w.document writes with
    | .ok (docs, values) => ∃ w',
        w.run (commitTransaction project uuid.bytes writes) =
          (.ok (results w.env.clock values), w') ∧
        w'.txn = none ∧ w'.document = docs ∧ w'.env = w.env ∧
        ∀ uuid', uuid' ≠ uuid → w'.transactionRow uuid' = w.transactionRow uuid'
    | .error e => (w.run (commitTransaction project uuid.bytes writes)).1 = .error e := by
  have hbody : (do
      verifyCommit project ∅ writes
      performWrites uuid writes : Adapter (List WriteResult)) = performWrites uuid writes := by
    rw [verifyCommit_plain hplain]
    rfl
  rw [run_commitTransaction_ready hready, hbody]
  have hdoc := (quiet_begun hidle).document_eq
  have htxns := transactionRow_eq_of_rowsSeen (quiet_begun hidle).rowsSeen_eq
  have hrow : ({ w with txn := some .empty } : World).transactionRow uuid = some row := by
    rw [htxns]
    exact hready.row_eq
  have hbody := run_performWrites hrow writes
  rw [hdoc, htxns] at hbody
  rcases hall : applyAll w.env.clock w.document w.document writes with e | ⟨docs, values⟩
  · rw [hall] at hbody
    obtain ⟨w', hrun⟩ := hbody
    exact run_inTransaction_error hrun
  · rw [hall] at hbody
    obtain ⟨w', hrun, hdocs, henv, hrows⟩ := hbody
    refine ⟨_, run_inTransaction_ok hrun, rfl, ?_, henv, fun uuid' hne => ?_⟩
    · rw [document_eq_of_rowsSeen (rowsSeen_committed w'), hdocs]
    · rw [transactionRow_eq_of_rowsSeen (rowsSeen_committed w'), hrows,
        update_of_ne hne]

/-! ## Any commit that succeeds -/

/-- Questions that change nothing a statement sees. -/
def Looks : Call → Prop
  | .sql (.select _) | .sql (.selectForUpdate _ _) | .now => True
  | _ => False

theorem Quiet.answer {w : World} (h : Quiet w w') {q : Call} (hq : Looks q) :
    Quiet w (answer q w').2 := by
  match q, hq with
  | .sql (.select k), _ =>
    refine h.trans ⟨?_, rfl⟩
    simp only [World.answer, execute, exec, rowsSeen, AList.empty_union]
  | .sql (.selectForUpdate k p), _ =>
    refine h.trans ?_
    have hanswer : (World.answer (.sql (.selectForUpdate k p)) w').2 =
        (w'.execute (.selectForUpdate k p)).2 := rfl
    rcases hv : (w'.rowsSeen.lookup k).filter p with _ | v
    · rw [hanswer]
      simp only [execute, exec_selectForUpdate_none hv, AList.empty_union]
      exact .refl w'
    · rw [hanswer]
      simp only [execute, exec_selectForUpdate_some hv, AList.empty_union]
      exact ⟨lock_rowsSeen, rfl⟩
  | .now, _ => exact h

/-- A program that only looks leaves everything as it was. -/
theorem run_looks {ε : Type} {p : Prog Call.Answer ε R} (h : p.Only Looks) (w : World) :
    Quiet w (w.run p).2 :=
  h.run (fun _ _ hquiet hq => hquiet.answer hq) (.refl w)

end World

namespace World

variable {w : World} {project : ProjectId} {uuid : Uuid} {row : TransactionRow}

theorem run_inTransaction_eq_ok {r : R} (h : w.run (inTransaction body) = (.ok r, w')) :
    ∃ w₁, ({ w with txn := some .empty } : World).run body = (.ok r, w₁) ∧
      w' = { w₁ with rows := w₁.rowsSeen, txn := none } := by
  rcases hbody : ({ w with txn := some .empty } : World).run body with ⟨e | r', w₁⟩
  · have herror := run_inTransaction_error hbody
    rw [h] at herror
    cases herror
  · obtain ⟨hr, rfl⟩ := Prod.mk.inj (h.symm.trans (run_inTransaction_ok hbody))
    cases hr
    exact ⟨w₁, rfl, rfl⟩

/-- What a successful commit found: its transaction, with its checks passed. -/
theorem run_commitTransaction_eq_ok {transactionId : TransactionId} {reported : List WriteResult}
    (h : w.run (commitTransaction project transactionId writes) = (.ok reported, w')) :
    ∃ uuid row, w.transactionRow uuid = some row ∧
      w.run (inTransaction do
        verifyCommit project row.reads writes
        performWrites uuid writes) = (.ok reported, w') := by
  obtain ⟨uuid, -, h⟩ := run_ofExcept_bind_eq_ok h
  rw [run_bind_of_ok run_select] at h
  rcases hrow : Option.filter (fun row => decide (TransactionRow.projectId row = project))
    (w.rowsSeen.lookup (.transaction uuid)) with _ | row
  · rw [hrow] at h
    cases h
  rw [hrow] at h
  obtain ⟨hlookup, -⟩ := Option.filter_eq_some_iff.mp hrow
  by_cases hactive : row.status = .active
  · simp only [hactive, ne_eq, not_true_eq_false, if_false] at h
    have hnow : w.run (utcNow : Adapter Timestamp) = (.ok w.env.clock, w) := rfl
    rw [run_bind_of_ok hnow] at h
    by_cases hlate : transactionLifetime < w.env.clock.toNanos - row.startedAt.toNanos
    · rw [if_pos hlate] at h
      exact nomatch (Prod.mk.inj h).1
    · rw [if_neg hlate] at h
      exact ⟨uuid, row, hlookup, h⟩
  · simp only [ne_eq, hactive, not_false_eq_true, if_true] at h
    exact nomatch (Prod.mk.inj h).1

/-- A commit that succeeds performs its writes where nothing has changed. -/
theorem run_commitTransaction_performs (hidle : w.txn = none) {transactionId : TransactionId}
    {reported : List WriteResult}
    (h : w.run (commitTransaction project transactionId writes) = (.ok reported, w')) :
    ∃ uuid row w₂ w₃, w.transactionRow uuid = some row ∧ Quiet w w₂ ∧
      w₂.run (performWrites uuid writes) = (.ok reported, w₃) ∧
      w' = { w₃ with rows := w₃.rowsSeen, txn := none } := by
  obtain ⟨uuid, row, hrow, htxn⟩ := run_commitTransaction_eq_ok h
  obtain ⟨w₃, hbody, rfl⟩ := run_inTransaction_eq_ok htxn
  obtain ⟨⟨⟩, w₂, hverify, hperform⟩ := run_bind_eq_ok hbody
  have hlooks : (verifyCommit project row.reads writes).Only Looks :=
    verifyCommit_only (fun _ _ => trivial) fun _ _ => trivial
  have hquiet := run_looks hlooks { w with txn := some .empty }
  rw [hverify] at hquiet
  exact ⟨uuid, row, w₂, w₃, hrow, (quiet_begun hidle).trans hquiet, hperform, rfl⟩

/-- A commit that succeeds has computed `applyAll` from the documents it found, whatever
its preconditions and reads. -/
theorem run_commitTransaction_applyAll (hidle : w.txn = none) {transactionId : TransactionId}
    {reported : List WriteResult}
    (h : w.run (commitTransaction project transactionId writes) = (.ok reported, w')) :
    ∃ docs values, applyAll w.env.clock w.document w.document writes = .ok (docs, values) ∧
      reported = results w.env.clock values ∧ w'.document = docs := by
  obtain ⟨uuid, row, w₂, w₃, hrow, hquiet, hperform, rfl⟩ :=
    run_commitTransaction_performs hidle h
  have hrow₂ : w₂.transactionRow uuid = some row := by
    rw [transactionRow_eq_of_rowsSeen hquiet.rowsSeen_eq, hrow]
  have hwrites := run_performWrites hrow₂ writes
  rw [hquiet.document_eq, hquiet.env_eq] at hwrites
  rcases hall : applyAll w.env.clock w.document w.document writes with e | ⟨docs, values⟩
  · rw [hall] at hwrites
    obtain ⟨w₄, hrun⟩ := hwrites
    exact nomatch (Prod.mk.inj (hrun.symm.trans hperform)).1
  · rw [hall] at hwrites
    obtain ⟨w₄, hrun, hdocs, -, -⟩ := hwrites
    obtain ⟨hreported, rfl⟩ := Prod.mk.inj (hrun.symm.trans hperform)
    refine ⟨docs, values, rfl, (Except.ok.inj hreported).symm, ?_⟩
    rw [document_eq_of_rowsSeen (rowsSeen_committed w₄), hdocs]

/-- One commit per write, each with its own transaction. -/
def commitEach (project : ProjectId) : List (Uuid × Write) → Adapter (List (List WriteResult)) :=
  Prog.mapEach fun x => commitTransaction project x.1.bytes [x.2]

/-- A transaction stays ready while others commit. -/
theorem Ready.of_eq (h : w.Ready project uuid row) (henv : w'.env = w.env)
    (hrow : w'.transactionRow uuid = w.transactionRow uuid) : w'.Ready project uuid row :=
  ⟨hrow.trans h.row_eq, h.project_eq, h.active, henv ▸ h.fresh, h.reads_eq⟩

theorem applyAll_singleton (now : Timestamp) (docs : Documents) (write : Write) :
    applyAll now docs docs [write] =
      (write.effect now (docs.stored write.path)).map fun r =>
        (update docs write.path r.1, [r.2]) := by
  unfold applyAll
  rcases write.effect now (docs.stored write.path) with e | ⟨final, values⟩ <;> rfl

/-- Commits one at a time compute `applyEach`. -/
theorem run_commitEach {batch : List (Uuid × Write)} (hidle : w.txn = none)
    (hready : ∀ x ∈ batch, ∃ row, w.Ready project x.1 row)
    (hdistinct : (batch.map Prod.fst).Nodup) (hplain : ∀ x ∈ batch, x.2.Plain) :
    match applyEach w.env.clock w.document (batch.map Prod.snd) with
    | .ok (docs, values) => ∃ w',
        w.run (commitEach project batch) =
          (.ok ((results w.env.clock values).map fun r => [r]), w') ∧ w'.document = docs
    | .error e => (w.run (commitEach project batch)).1 = .error e := by
  induction batch generalizing w with
  | nil => exact ⟨w, rfl, rfl⟩
  | cons x batch ih =>
    obtain ⟨uuid, write⟩ := x
    obtain ⟨row, hrow⟩ := hready _ mem_cons_self
    obtain ⟨hnotMem, hdistinct⟩ := nodup_cons.mp hdistinct
    have hplain₁ : ∀ x ∈ [write], x.Plain := by
      simpa using hplain _ mem_cons_self
    have hfirst := run_commitTransaction hidle hrow hplain₁
    rw [applyAll_singleton] at hfirst
    rw [map_cons, applyEach]
    rcases heffect : write.effect w.env.clock (Documents.stored w.document write.path) with
      e | ⟨final, values⟩
    · rw [heffect] at hfirst
      exact congrArg Prod.fst (run_bind_of_error (Prod.ext hfirst rfl))
    · rw [heffect] at hfirst
      obtain ⟨w₁, hrun, hidle₁, hdoc₁, henv₁, htxns₁⟩ := hfirst
      have hrest := ih hidle₁ (fun y hy => ?_) hdistinct
        (forall_mem_cons.mp hplain).2
      · rw [henv₁, hdoc₁] at hrest
        simp only [bind, Except.bind]
        rcases heach : applyEach w.env.clock (update w.document write.path final)
          (batch.map Prod.snd) with e | ⟨docs, rest⟩
        · rw [heach] at hrest
          refine (congrArg Prod.fst (run_bind_of_ok hrun)).trans ?_
          exact congrArg Prod.fst (run_bind_of_error (Prod.ext hrest rfl))
        · rw [heach] at hrest
          obtain ⟨w₂, hrun₂, hdoc₂⟩ := hrest
          exact ⟨w₂, (run_bind_of_ok hrun).trans (run_bind_of_ok hrun₂), hdoc₂⟩
      · obtain ⟨row', hrow'⟩ := hready y (mem_cons_of_mem _ hy)
        refine ⟨row', hrow'.of_eq henv₁ (htxns₁ _ fun heq => hnotMem ?_)⟩
        exact heq ▸ mem_map_of_mem hy

theorem results_injective (now : Timestamp) {a b : List (List FieldValue)}
    (h : results now a = results now b) : a = b :=
  map_injective_iff.mpr (fun _ _ h => congrArg WriteResult.transformResults h) h

end World

/-! ## Batch against sequence -/

/-- A batch in which no transformed document was written before. -/
theorem SnapshotSuffices.of_pairwise {each : Documents}
    (h : applyAll now snapshot docs writes = .ok (docs', values))
    (hagree : ∀ write ∈ writes, write.readsFields → each write.path = snapshot write.path)
    (hfirst : writes.Pairwise fun earlier write => write.readsFields → earlier.path ≠ write.path) :
    SnapshotSuffices now snapshot each writes := by
  induction writes generalizing docs each values with
  | nil => trivial
  | cons write writes ih =>
    obtain ⟨final, vs, rest, heffect, hrest, rfl⟩ := applyAll_cons_ok h
    obtain ⟨hhead, htail⟩ := pairwise_cons.mp hfirst
    have heffect' : write.effect now (each.stored write.path) = .ok (final, vs) := by
      rw [← heffect]
      by_cases hreads : write.readsFields
      · unfold Documents.stored
        rw [hagree write mem_cons_self hreads]
      · exact Write.effect_of_not_readsFields hreads ..
    refine ⟨final, final, vs, heffect, heffect', .inl rfl, ih hrest (fun x hx hreads => ?_) htail⟩
    rw [update_of_ne (hhead x hx hreads).symm]
    exact hagree x (mem_cons_of_mem _ hx) hreads

section Counter

/-- A project with two open transactions and no documents. -/
def twoTransactions (project : ProjectId) (a b : Uuid) : World :=
  let row : TransactionRow := ⟨project, .active, ⟨0, 0⟩, ∅⟩
  .holding .still (((∅ : AList Key.Row).insert (.transaction a) row).insert (.transaction b) row)

/-- Set the counter at `path` to five. -/
def setFive (path : DocumentPath) : Write :=
  .update path ((∅ : Fields).insert "n" (.integer 5)) none none []

/-- Add one to the counter at `path`. -/
def addOne (path : DocumentPath) : Write := .transform path [.increment "n" (.integer 1)]

/-- The counter at `path`. -/
def World.counter (w : World) (path : DocumentPath) : Option FieldValue :=
  (w.document path).bind (·["n"]?)

/-- One counter is set, another one incremented. -/
def twoCounters : List (Uuid × Write) :=
  [(uuidOf 1, setFive ⟨demo, "counters", "a"⟩), (uuidOf 2, addOne ⟨demo, "counters", "b"⟩)]

theorem run_twoCounters :
    ((twoTransactions demo (uuidOf 1) (uuidOf 2)).run
      (commitTransaction demo (uuidOf 1).bytes (twoCounters.map Prod.snd))).1 =
        .ok [⟨⟨0, 0⟩, none, []⟩, ⟨⟨0, 0⟩, none, [.integer 1]⟩] := rfl

end Counter

end Embyr
