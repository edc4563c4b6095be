import Embyr.CommitAtomic
import Embyr.SoftDelete
import Embyr.WriteHandlers

/-!
# Preconditions

A write may ask that its document exists, that it does not, or that it was updated at a
given time. `update_document` puts this into its statement, `delete_document` ignores it, and
`commit_transaction` checks it for all its writes before it applies the first; the
translation of a transform drops it.

* `WritePrecondition.Holds` — what a precondition asks of the document readers see.
* `applyRows` — the apply loop, row by row; what each write of a commit finds.
* `GuardedCall.Honoured` — a call changes a document only if its precondition holds
  immediately before, and the single-document call agrees with the commit of one write.
* `preconditions_honoured_iff` — exactly when this is so.
-/

namespace Embyr

open Program ReadCommitted Function

/-! ## Preconditions and rows -/

/-- The rows of the documents. -/
abbrev Rows : Type := DocumentPath → Option DocumentRow

/-- The row readers see. -/
def Rows.visible (rows : Rows) (path : DocumentPath) : Option DocumentRow :=
  (rows path).filter DocumentRow.visible

/-- What a precondition asks of the row readers see. -/
def WritePrecondition.Holds (row : Option DocumentRow) : WritePrecondition → Prop
  | .mustExist => row ≠ none
  | .mustNotExist => row = none
  | .updateTime t => ∃ r, row = some r ∧ toDatetime t = .ok r.updateTime

/-- The row after a write over an old one, `none` for a delete. -/
def storeOver (now : Timestamp) (final : Option Fields) (old : Option DocumentRow) :
    Option DocumentRow :=
  match final with
  | some fields =>
    some (old.elim (DocumentRow.fresh fields now.stored) (DocumentRow.overwrite fields now.stored))
  | none => old.map (DocumentRow.remove now.stored)

/-- The apply loop on the rows; each effect is computed from `snapshot`. -/
def applyRows (now : Timestamp) (snapshot : Documents) : Rows → List Write → Except CoreError Rows
  | rows, [] => .ok rows
  | rows, write :: writes => do
    let (final, _) ← write.effect now (snapshot.stored write.path)
    applyRows now snapshot
      (Function.update rows write.path (storeOver now final (rows write.path))) writes

section Rows

variable {now : Timestamp} {snapshot : Documents} {rows rows' : Rows} {write : Write}
  {writes : List Write} {path : DocumentPath}

theorem applyRows_cons_ok (h : applyRows now snapshot rows (write :: writes) = .ok rows') :
    ∃ final values, write.effect now (snapshot.stored write.path) = .ok (final, values) ∧
      applyRows now snapshot
        (update rows write.path (storeOver now final (rows write.path))) writes =
          .ok rows' := by
  rw [applyRows] at h
  rcases heffect : write.effect now (snapshot.stored write.path) with e | ⟨final, values⟩
  · rw [heffect] at h
    cases h
  · rw [heffect] at h
    exact ⟨final, values, rfl, h⟩

/-- The part of a loop that succeeds succeeds. -/
theorem applyRows_take (h : applyRows now snapshot rows writes = .ok rows') (n : ℕ) :
    ∃ before, applyRows now snapshot rows (writes.take n) = .ok before := by
  induction writes generalizing rows n with
  | nil => exact ⟨rows, by rw [List.take_nil]; rfl⟩
  | cons write writes ih =>
    obtain ⟨final, values, heffect, hrest⟩ := applyRows_cons_ok h
    cases n with
    | zero => exact ⟨rows, rfl⟩
    | succ n =>
      obtain ⟨before, hbefore⟩ := ih hrest n
      refine ⟨before, ?_⟩
      rw [List.take_succ_cons, applyRows, heffect]
      exact hbefore

/-- A write that stores fields changes what readers see: the version goes up. -/
theorem visible_storeOver_some (now : Timestamp) (fields : Fields) (old : Option DocumentRow) :
    (storeOver now (some fields) old).filter DocumentRow.visible ≠
      old.filter DocumentRow.visible := by
  rcases old with _ | row
  · exact nofun
  · intro heq
    have hrow : some (row.overwrite fields now.stored) = (some row).filter DocumentRow.visible :=
      heq
    obtain ⟨hsame, -⟩ := Option.filter_eq_some_iff.mp hrow.symm
    have hversion : row.version + 1 = row.version :=
      (congrArg DocumentRow.version (Option.some.inj hsame)).symm
    exact one_ne_zero (add_eq_left.mp hversion)

/-- After a delete readers see nothing. -/
theorem visible_storeOver_none (now : Timestamp) (old : Option DocumentRow) :
    (storeOver now none old).filter DocumentRow.visible = none := by
  rcases old with _ | row <;> rfl

/-- The last write to a document. -/
def lastWrite (path : DocumentPath) : List Write → Option Write
  | [] => none
  | write :: writes => (lastWrite path writes).or (if write.path = path then some write else none)

/-- What readers see after the last write to a document. -/
def SeenAfter (now : Timestamp) (last : Write) (row : Option DocumentRow) : Prop :=
  if last.deletes then row = none else ∃ r, row = some r ∧ r.updateTime = now.stored

/-- The loop changes a document by its last write to it, if there is one. -/
theorem applyRows_visible (path : DocumentPath)
    (h : applyRows now snapshot rows writes = .ok rows') :
    match lastWrite path writes with
    | none => rows' path = rows path
    | some last => SeenAfter now last (rows'.visible path) := by
  induction writes generalizing rows with
  | nil =>
    cases h
    rfl
  | cons write writes ih =>
    obtain ⟨final, values, heffect, hrest⟩ := applyRows_cons_ok h
    have hfinal := effect_isNone heffect
    have hih := ih hrest
    rw [lastWrite]
    rcases hlast : lastWrite path writes with _ | last
    · rw [hlast] at hih
      dsimp only at hih
      by_cases hpath : write.path = path
      · subst hpath
        rw [if_pos rfl]
        change SeenAfter now write (rows'.visible write.path)
        rw [update_self] at hih
        unfold SeenAfter Rows.visible
        rw [hih, ← hfinal]
        rcases final with _ | fields
        · exact visible_storeOver_none now _
        · rcases rows write.path with _ | row <;> exact ⟨_, rfl, rfl⟩
      · rw [if_neg hpath]
        exact hih.trans (update_of_ne (Ne.symm hpath) ..)
    · rw [hlast] at hih
      exact hih

end Rows

/-! ## The checks of a commit -/

namespace World

variable {w : World}

/-- The preconditions of the writes hold of the documents as they are. -/
def Permits (w : World) (writes : List Write) : Prop :=
  ∀ write ∈ writes, ∀ precondition, write.precondition = some precondition →
    precondition.Holds (Rows.visible w.documentRow write.path)

variable {w' : World}

theorem Quiet.documentRow_eq (h : Quiet w w') : w'.documentRow = w.documentRow := by
  funext path
  exact congrArg (AList.lookup (Key.document path)) h.rowsSeen_eq

/-- Two checks, the second after the first. -/
theorem run_then_ok_iff {p q : Adapter Unit} {P Q : Prop} (hlooks : p.Only Looks)
    (hp : (w.run p).1 = .ok () ↔ P)
    (hq : ∀ w', Quiet w w' → ((w'.run q).1 = .ok () ↔ Q)) :
    (w.run (p >>= fun _ => q)).1 = .ok () ↔ P ∧ Q := by
  have hquiet := run_looks hlooks w
  rcases hrun : w.run p with ⟨e | ⟨⟩, w'⟩
  · rw [run_bind_of_error hrun]
    refine ⟨nofun, fun h => ?_⟩
    rw [hrun] at hp
    exact nomatch hp.mpr h.1
  · rw [run_bind_of_ok hrun, hq w' (by rwa [hrun] at hquiet)]
    rw [hrun] at hp
    exact (and_iff_right (hp.mp rfl)).symm

/-- A loop of checks. -/
theorem run_forEach_ok_iff {α : Type} {f : α → Adapter Unit} {P : α → Prop} {xs : List α}
    (hlooks : ∀ x, (f x).Only Looks)
    (hcheck : ∀ x w', Quiet w w' → ((w'.run (f x)).1 = .ok () ↔ P x)) :
    (w.run (Prog.forEach f xs)).1 = .ok () ↔ ∀ x ∈ xs, P x := by
  induction xs generalizing w with
  | nil => exact ⟨nofun, fun _ => rfl⟩
  | cons x xs ih =>
    rw [List.forall_mem_cons]
    exact run_then_ok_iff (hlooks x) (hcheck x w (.refl w)) fun w' hquiet =>
      ih fun y w'' hquiet' => hcheck y w'' (hquiet.trans hquiet')

/-- A locking read and what is checked about it. -/
theorem run_lockCheck (hquiet : Quiet w w') (path : DocumentPath)
    (check : Option DocumentRow → Bool) :
    (w'.run (lockDocument path >>= fun row => abortUnless (check row))).1 = .ok () ↔
      check (Rows.visible w.documentRow path) = true := by
  obtain ⟨w'', hrun, -⟩ := run_lockDocument w' path
  rw [run_bind_of_ok hrun, hquiet.documentRow_eq]
  change (w''.run (abortUnless (check (Rows.visible w.documentRow path)))).1 = _ ↔ _
  rcases check (Rows.visible w.documentRow path) with _ | _
  · exact ⟨nofun, nofun⟩
  · exact ⟨fun _ => rfl, fun _ => rfl⟩

theorem verifyUpdateTime_looks (write : Write) : (verifyUpdateTime write).Only Looks := by
  rcases h : write.precondition with _ | _ | _ | t <;> simp only [verifyUpdateTime, h]
  · trivial
  · trivial
  · trivial
  · exact (Prog.Only.ofExcept _).bind fun _ =>
      (lockDocument_only trivial).bind fun _ => abortUnless_only _

theorem verifyExistence_looks (write : Write) : (verifyExistence write).Only Looks := by
  rcases h : write.precondition with _ | _ | _ | t <;> simp only [verifyExistence, h]
  · trivial
  · exact (lockDocument_only trivial).bind fun _ => abortUnless_only _
  · exact (lockDocument_only trivial).bind fun _ => abortUnless_only _
  · trivial

theorem run_verifyUpdateTime (hquiet : Quiet w w') (write : Write) :
    (w'.run (verifyUpdateTime write)).1 = .ok () ↔
      ∀ t, write.precondition = some (.updateTime t) →
        (WritePrecondition.updateTime t).Holds (Rows.visible w.documentRow write.path) := by
  rcases h : write.precondition with _ | _ | _ | t <;> simp only [verifyUpdateTime, h]
  · exact ⟨by simp, fun _ => rfl⟩
  · exact ⟨by simp, fun _ => rfl⟩
  · exact ⟨by simp, fun _ => rfl⟩
  rcases htime : toDatetime t with e | expected
  · refine ⟨by rintro ⟨⟩, fun hholds => ?_⟩
    obtain ⟨r, -, hr⟩ := hholds t rfl
    cases htime.symm.trans hr
  · refine (run_lockCheck hquiet write.path fun row =>
      row.any fun row => decide (row.updateTime = expected)).trans ?_
    rw [Option.any_eq_true]
    constructor
    · rintro ⟨r, hr, hequal⟩ t' ht
      obtain rfl := WritePrecondition.updateTime.inj (Option.some.inj ht)
      exact ⟨r, hr, htime.trans (congrArg Except.ok (of_decide_eq_true hequal).symm)⟩
    · intro hholds
      obtain ⟨r, hr, hequal⟩ := hholds t rfl
      exact ⟨r, hr, decide_eq_true (Except.ok.inj (htime.symm.trans hequal)).symm⟩

theorem run_verifyExistence (hquiet : Quiet w w') (write : Write) :
    (w'.run (verifyExistence write)).1 = .ok () ↔
      ∀ precondition, write.precondition = some precondition →
        (∀ t, precondition ≠ .updateTime t) →
          precondition.Holds (Rows.visible w.documentRow write.path) := by
  rcases h : write.precondition with _ | _ | _ | t <;> simp only [verifyExistence, h]
  · exact ⟨by simp, fun _ => rfl⟩
  · refine (run_lockCheck hquiet write.path Option.isSome).trans ?_
    rw [Option.isSome_iff_ne_none]
    refine ⟨fun hsome precondition hp _ => ?_, fun hholds => hholds .mustExist rfl (by simp)⟩
    cases hp
    exact hsome
  · refine (run_lockCheck hquiet write.path Option.isNone).trans ?_
    rw [Option.isNone_iff_eq_none]
    refine ⟨fun hnone precondition hp _ => ?_, fun hholds => hholds .mustNotExist rfl (by simp)⟩
    cases hp
    exact hnone
  · refine ⟨fun _ precondition hp hne => ?_, fun _ => rfl⟩
    exact absurd (Option.some.inj hp).symm (hne t)

variable {writes : List Write}

/-- The checks of a commit without expected versions and recorded reads. -/
theorem run_verifyCommit_iff (project : ProjectId)
    (hversion : ∀ write ∈ writes, write.version = none) :
    (w.run (verifyCommit project ∅ writes)).1 = .ok () ↔ w.Permits writes := by
  have hrest : (verifyVersions project writes >>= fun _ => verifyReads project ∅) =
      (.ok () : Adapter Unit) := by
    unfold verifyVersions verifyReads
    rw [Prog.forEach_eq_ok fun x hx => by simp only [verifyVersion, hversion x hx],
      Std.ExtTreeMap.toList_eq_nil_iff.mpr rfl]
    rfl
  rw [verifyCommit, hrest]
  have hexistence : ∀ w', Quiet w w' →
      ((w'.run (Prog.forEach verifyExistence writes >>= fun _ => .ok ())).1 = .ok () ↔
        ∀ write ∈ writes, ∀ precondition, write.precondition = some precondition →
          (∀ t, precondition ≠ .updateTime t) →
            precondition.Holds (Rows.visible w.documentRow write.path)) := by
    intro w' hquiet
    have hlooks : (Prog.forEach verifyExistence writes).Only Looks :=
      .forEach fun write _ => verifyExistence_looks write
    refine (run_then_ok_iff (Q := True) hlooks (run_forEach_ok_iff verifyExistence_looks
      fun write w'' hquiet' => run_verifyExistence (hquiet.trans hquiet') write)
      fun _ _ => ⟨fun _ => trivial, fun _ => rfl⟩).trans (and_iff_left trivial)
  refine (run_then_ok_iff (.forEach fun write _ => verifyUpdateTime_looks write)
    (run_forEach_ok_iff verifyUpdateTime_looks fun write w' hquiet =>
      run_verifyUpdateTime hquiet write) hexistence).trans ?_
  constructor
  · rintro ⟨htime, hexists⟩ write hmem precondition hp
    by_cases ht : ∃ t, precondition = .updateTime t
    · obtain ⟨t, rfl⟩ := ht
      exact htime write hmem t hp
    · exact hexists write hmem precondition hp fun t heq => ht ⟨t, heq⟩
  · intro hpermits
    exact ⟨fun write hmem t ht => hpermits write hmem _ ht,
      fun write hmem precondition hp _ => hpermits write hmem precondition hp⟩

/-! ## The rows a commit leaves -/

theorem documentRow_store (w : World) (path : DocumentPath) (now : Timestamp)
    (final : Option Fields) :
    (w.store path now final).documentRow =
      update w.documentRow path (storeOver now final (w.documentRow path)) := by
  cases final with
  | some fields => exact documentRow_put
  | none =>
    unfold store
    rcases hrow : w.documentRow path with _ | row
    · exact (update_eq_self_iff.mpr hrow.symm).symm
    · exact documentRow_put

variable {results : List WriteResult}

/-- The apply loop computes `applyRows`. -/
theorem run_applyWrites_rows {now : Timestamp} {snapshot : Documents}
    (h : w.run (Prog.mapEach (fun x => applyWrite now x.1 x.2)
      (writes.zip (writes.map (locked snapshot)))) = (.ok results, w')) :
    applyRows now snapshot w.documentRow writes = .ok w'.documentRow := by
  induction writes generalizing w results with
  | nil =>
    cases h
    rfl
  | cons write writes ih =>
    obtain ⟨result, w₁, hturn, hrest⟩ := run_bind_eq_ok h
    obtain ⟨rest, w₂, hloop, hend⟩ := run_bind_eq_ok hrest
    cases hend
    rw [applyRows]
    rcases heffect : write.effect now (snapshot.stored write.path) with e | ⟨final, values⟩
    · exact nomatch (run_applyWrite_error heffect).symm.trans hturn
    · obtain ⟨-, rfl⟩ := Prod.mk.inj ((run_applyWrite_ok heffect).symm.trans hturn)
      rw [← ih hloop, documentRow_store]
      rfl

/-- So does everything from the snapshot to the mark. -/
theorem run_performWrites_rows {uuid : Uuid}
    (h : w.run (performWrites uuid writes) = (.ok results, w')) :
    applyRows w.env.clock w.document w.documentRow writes = .ok w'.documentRow := by
  obtain ⟨w₂, hlock, hquiet⟩ := run_lockFields w writes
  have hnow : w₂.run (utcNow : Adapter Timestamp) = (.ok w₂.env.clock, w₂) := rfl
  rw [performWrites, run_bind_of_ok hlock, run_bind_of_ok hnow] at h
  obtain ⟨reported, w₄, hloop, hrest⟩ := run_bind_eq_ok h
  obtain ⟨marked, w₅, hmark, hend⟩ := run_bind_eq_ok hrest
  cases hend
  rw [documentRow_markCommitted hmark, ← run_applyWrites_rows hloop, hquiet.documentRow_eq,
    hquiet.env_eq]

/-- A commit that succeeds has computed `applyRows` from the rows it found. -/
theorem run_commitTransaction_applyRows {project : ProjectId} {id : TransactionId}
    (hidle : w.txn = none) (h : w.run (commitTransaction project id writes) = (.ok results, w')) :
    applyRows w.env.clock w.document w.documentRow writes = .ok w'.documentRow := by
  obtain ⟨uuid, row, w₂, w₃, -, hquiet, hperform, rfl⟩ := run_commitTransaction_performs hidle h
  have hrows := run_performWrites_rows hperform
  rw [hquiet.documentRow_eq, hquiet.document_eq, hquiet.env_eq] at hrows
  refine hrows.trans (congrArg Except.ok ?_)
  funext path
  exact (congrArg (AList.lookup (Key.document path)) (rowsSeen_committed w₃)).symm

/-- A commit that fails leaves the rows as they were. -/
theorem documentRow_of_error {project : ProjectId} {id : TransactionId} {e : CoreError}
    (hidle : w.txn = none) (h : w.run (commitTransaction project id writes) = (.error e, w')) :
    w'.documentRow = w.documentRow := by
  obtain ⟨db', hends, hrows, htxn⟩ := exists_ends (i := 0) (w := w)
    (p := commitTransaction project id writes)
    (show w.rows = (⟨w.rows, fun _ => none, []⟩ : Db Key.Row).rows from rfl) hidle fun _ _ => rfl
  rw [h] at hends hrows htxn
  have hundone := undone_of_error rfl hends
  funext path
  rw [documentRow, documentRow, rowsSeen_idle (htxn.trans hundone.closed), rowsSeen_idle hidle,
    hrows]
  exact hundone.documents path

section Commit

variable {project : ProjectId} {uuid : Uuid} {row : TransactionRow} {writes : List Write}

/-- What a commit without recorded reads and expected versions does: it applies the writes
when their preconditions hold and no transform fails, and otherwise nothing. -/
theorem run_commit_cases (hidle : w.txn = none) (hready : w.Ready project uuid row)
    (hversion : ∀ write ∈ writes, write.version = none) :
    (∃ results w', w.run (commitTransaction project uuid.bytes writes) = (.ok results, w') ∧
        w.Permits writes ∧
        applyRows w.env.clock w.document w.documentRow writes = .ok w'.documentRow) ∨
      ∃ e w', w.run (commitTransaction project uuid.bytes writes) = (.error e, w') ∧
        w'.documentRow = w.documentRow ∧
        (w.Permits writes →
          ∃ e, applyAll w.env.clock w.document w.document writes = .error e) := by
  -- the world in which the body of the transaction runs
  have hbegun := quiet_begun hidle
  have hiff : (({ w with txn := some .empty } : World).run (verifyCommit project ∅ writes)).1 =
      .ok () ↔ w.Permits writes := by
    rw [run_verifyCommit_iff project hversion]
    unfold Permits
    rw [hbegun.documentRow_eq]
  rcases hrun : w.run (commitTransaction project uuid.bytes writes) with ⟨e | results, w'⟩
  · refine .inr ⟨e, w', rfl, documentRow_of_error hidle hrun, fun hpermits => ?_⟩
    have hlooks : (verifyCommit project ∅ writes).Only Looks :=
      verifyCommit_only (fun _ _ => trivial) fun _ _ => trivial
    have hquiet := hbegun.trans (run_looks hlooks { w with txn := some .empty })
    rcases hverify : ({ w with txn := some .empty } : World).run
      (verifyCommit project ∅ writes) with ⟨e' | ⟨⟩, w₂⟩
    · rw [hverify] at hiff
      exact nomatch hiff.mpr hpermits
    · rw [hverify] at hquiet
      have hrow : w₂.transactionRow uuid = some row :=
        (congrFun (transactionRow_eq_of_rowsSeen hquiet.rowsSeen_eq) uuid).trans hready.row_eq
      have hperform := run_performWrites hrow writes
      rw [hquiet.document_eq, hquiet.env_eq] at hperform
      rcases hall : applyAll w.env.clock w.document w.document writes with e'' | ⟨docs, values⟩
      · exact ⟨e'', rfl⟩
      · rw [hall] at hperform
        obtain ⟨w₃, hdone, -⟩ := hperform
        have hbody : ({ w with txn := some .empty } : World).run
            (verifyCommit project ∅ writes >>= fun _ => performWrites uuid writes) = _ :=
          (run_bind_of_ok hverify).trans hdone
        rw [run_commitTransaction_ready hready, run_inTransaction_ok hbody] at hrun
        cases hrun
  · refine .inl ⟨results, w', rfl, ?_, run_commitTransaction_applyRows hidle hrun⟩
    rw [run_commitTransaction_ready hready] at hrun
    obtain ⟨w₃, hbody, -⟩ := run_inTransaction_eq_ok hrun
    obtain ⟨⟨⟩, w₂, hverify, -⟩ := run_bind_eq_ok hbody
    rw [hverify] at hiff
    exact hiff.mp rfl

end Commit

/-- The call changes what readers see of the document. -/
def Changes {R : Type} (w : World) (p : Adapter R) (path : DocumentPath) : Prop :=
  Rows.visible (w.run p).2.documentRow path ≠ Rows.visible w.documentRow path

end World

/-! ## Calls with preconditions -/

/-- The message decodes to the write. -/
def ProtoWrite.DecodesTo (message : ProtoWrite) (write : Write) : Prop :=
  ∃ operation proposed, message.operation = some operation ∧
    operation.decode message.currentDocument = .ok (write, proposed)

/-- The write changes what readers see of its document. -/
def Write.ChangesRow (now : Timestamp) (snapshot : Documents) (before : Rows) (write : Write) :
    Prop :=
  ∃ final values, write.effect now (snapshot.stored write.path) = .ok (final, values) ∧
    (storeOver now final (before write.path)).filter DocumentRow.visible ≠
      before.visible write.path

/-- The calls that take preconditions: two single-document calls, and a list of `Write`
messages with the writes they decode to, as `Commit`, `BatchWrite` (one at a time) and the
`Write` stream commit them. -/
inductive GuardedCall where
  | update (path : DocumentPath) (fields : Fields) (precondition : WritePrecondition)
  | delete (path : DocumentPath) (precondition : WritePrecondition)
  | commit (requests : List (ProtoWrite × Write)) (hdecodes : ∀ r ∈ requests, r.1.DecodesTo r.2)

namespace GuardedCall

/-- The precondition is honoured. A single-document call changes its document only if the
precondition holds, and changes it exactly when the commit of the same write does. In a
commit this is asked of each write and of what the writes before it have left. -/
def Honoured (w : World) (project : ProjectId) (uuid : Uuid) : GuardedCall → Prop
  | update path fields precondition =>
    let single := w.Changes (updateDocument path fields (some precondition)) path
    let batch := w.Changes
      (commitTransaction project uuid.bytes [.update path fields none (some precondition) []]) path
    (single → precondition.Holds (Rows.visible w.documentRow path)) ∧ (single ↔ batch)
  | delete path precondition =>
    let single := w.Changes (deleteDocument path (some precondition)) path
    let batch := w.Changes
      (commitTransaction project uuid.bytes [.delete path none (some precondition)]) path
    (single → precondition.Holds (Rows.visible w.documentRow path)) ∧ (single ↔ batch)
  | commit requests _ =>
    let writes := requests.map Prod.snd
    (∃ results, (w.run (commitTransaction project uuid.bytes writes)).1 = .ok results) →
      ∀ n message write precondition, requests[n]? = some (message, write) →
        message.currentDocument = some precondition →
        ∀ before, applyRows w.env.clock w.document w.documentRow (writes.take n) = .ok before →
        write.ChangesRow w.env.clock w.document before →
          precondition.Holds (before.visible write.path)

/-- When the precondition of a write is honoured, given the last write before it to the same
document. A first write has been checked if it carries its precondition. After another
write it depends on that one. -/
def InTime (now : Timestamp) (write : Write) (precondition : WritePrecondition)
    (row : Option DocumentRow) : Option Write → Prop
  | none => write.precondition = some precondition ∨ precondition.Holds row
  | some last =>
    if last.deletes then write.deletes = true ∨ precondition = .mustNotExist
    else precondition = .mustExist ∨
      ∃ t, precondition = .updateTime t ∧ toDatetime t = .ok now.stored

/-- The condition under which a call honours its preconditions. -/
def Sound (w : World) (project : ProjectId) (uuid : Uuid) : GuardedCall → Prop
  | update _ _ .mustExist => True
  | update path _ .mustNotExist => ¬ w.HasDeleted path
  | update path _ (.updateTime t) =>
    ∀ expected row, toDatetime t = .ok expected → Rows.visible w.documentRow path = some row →
      (row.updateTime = expected.stored ↔ row.updateTime = expected)
  | delete path precondition =>
    Rows.visible w.documentRow path ≠ none →
      precondition.Holds (Rows.visible w.documentRow path)
  | commit requests _ =>
    let writes := requests.map Prod.snd
    (∃ results, (w.run (commitTransaction project uuid.bytes writes)).1 = .ok results) →
      ∀ n message write precondition, requests[n]? = some (message, write) →
        message.currentDocument = some precondition →
          InTime w.env.clock write precondition (Rows.visible w.documentRow write.path)
            (lastWrite write.path (writes.take n))

end GuardedCall

/-! ## Writes inside a commit -/

section Inside

variable {now : Timestamp} {snapshot : Documents} {rows rows' before : Rows} {write : Write}
  {writes : List Write} {message : ProtoWrite} {precondition : WritePrecondition} {n : ℕ}

/-- A decoded write carries the precondition of its message, unless it is a transform. -/
theorem ProtoWrite.DecodesTo.precondition_eq (h : message.DecodesTo write) :
    write.version = none ∧ (write.precondition = message.currentDocument ∨
      ∃ path transforms, write = .transform path transforms) := by
  obtain ⟨operation, proposed, -, hdecode⟩ := h
  obtain ⟨path, -, ⟨_, _, heq⟩ | heq | ⟨_, heq⟩⟩ := Operation.decode_eq_ok hdecode
  all_goals cases heq
  · exact ⟨rfl, .inl rfl⟩
  · exact ⟨rfl, .inl rfl⟩
  · exact ⟨rfl, .inr ⟨path, _, rfl⟩⟩

/-- In a loop that succeeds every write has an effect. -/
theorem effect_of_applyRows (h : applyRows now snapshot rows writes = .ok rows')
    (hmem : write ∈ writes) :
    ∃ final values, write.effect now (snapshot.stored write.path) = .ok (final, values) := by
  induction writes generalizing rows with
  | nil => cases hmem
  | cons first writes ih =>
    obtain ⟨final, values, heffect, hrest⟩ := applyRows_cons_ok h
    rcases List.mem_cons.mp hmem with rfl | hmem
    · exact ⟨final, values, heffect⟩
    · exact ih hrest hmem

variable {final : Option Fields} {values : List FieldValue}
  (h : write.effect now (snapshot.stored write.path) = .ok (final, values))

include h in
theorem changesRow_iff_of_effect :
    write.ChangesRow now snapshot before ↔
      (storeOver now final (before write.path)).filter DocumentRow.visible ≠
        before.visible write.path := by
  refine ⟨?_, fun hne => ⟨final, values, h, hne⟩⟩
  rintro ⟨final', values', h', hne⟩
  obtain ⟨rfl, -⟩ := Prod.mk.inj (Except.ok.inj (h.symm.trans h'))
  exact hne

include h in
/-- Only a delete of a document that readers miss changes nothing. -/
theorem changesRow_iff :
    write.ChangesRow now snapshot before ↔
      (write.deletes = true → before.visible write.path ≠ none) := by
  rw [changesRow_iff_of_effect h, ← effect_isNone h]
  rcases final with _ | fields
  · rw [visible_storeOver_none]
    exact ⟨fun hne _ => hne.symm, fun hne => (hne rfl).symm⟩
  · exact ⟨fun _ => nofun, fun _ => visible_storeOver_some now fields _⟩

/-- After a delete only an absent document can be asked for. -/
theorem holds_none_iff (precondition : WritePrecondition) :
    precondition.Holds none ↔ precondition = .mustNotExist := by
  cases precondition with
  | mustExist => exact ⟨fun h => absurd rfl h, nofun⟩
  | mustNotExist => exact ⟨fun _ => rfl, fun _ => rfl⟩
  | updateTime t => exact ⟨fun ⟨r, hr, _⟩ => (nomatch hr), nofun⟩

theorem holds_some_iff (precondition : WritePrecondition) (row : DocumentRow) :
    precondition.Holds (some row) ↔ precondition = .mustExist ∨
      ∃ t, precondition = .updateTime t ∧ toDatetime t = .ok row.updateTime := by
  cases precondition with
  | mustExist => exact ⟨fun _ => .inl rfl, fun _ => nofun⟩
  | mustNotExist =>
    refine ⟨nofun, ?_⟩
    rintro (h | ⟨t, h, -⟩) <;> cases h
  | updateTime t =>
    constructor
    · rintro ⟨r, hr, ht⟩
      cases hr
      exact .inr ⟨t, rfl, ht⟩
    · rintro (h | ⟨t', ht', h⟩)
      · cases h
      · cases ht'
        exact ⟨row, rfl, h⟩

/-- What honouring a precondition comes to for one write of a commit. -/
theorem honoured_iff_inTime
    (hbefore : applyRows now snapshot rows (writes.take n) = .ok before)
    (heffect : ∃ final values, write.effect now (snapshot.stored write.path) = .ok (final, values))
    (hdecodes : message.DecodesTo write) (hmessage : message.currentDocument = some precondition)
    (hchecked : ∀ p, write.precondition = some p → p.Holds (rows.visible write.path)) :
    (write.ChangesRow now snapshot before → precondition.Holds (before.visible write.path)) ↔
      GuardedCall.InTime now write precondition (rows.visible write.path)
        (lastWrite write.path (writes.take n)) := by
  obtain ⟨final, values, heffect⟩ := heffect
  have hseen := applyRows_visible write.path hbefore
  rw [changesRow_iff heffect]
  rcases hlast : lastWrite write.path (writes.take n) with _ | last
  · rw [hlast] at hseen
    have hsame : before.visible write.path = rows.visible write.path :=
      congrArg (Option.filter DocumentRow.visible) hseen
    rw [hsame]
    constructor
    · intro h
      rcases hdecodes.precondition_eq.2 with heq | ⟨path, transforms, rfl⟩
      · exact .inl (heq.trans hmessage)
      · exact .inr (h nofun)
    · rintro (heq | h) -
      · exact hchecked precondition heq
      · exact h
  · rw [hlast] at hseen
    change SeenAfter now last (before.visible write.path) at hseen
    rw [SeenAfter] at hseen
    change _ ↔ if last.deletes then _ else _
    split_ifs at hseen ⊢ with hdeletes
    · rw [hseen, holds_none_iff]
      constructor
      · intro h
        by_cases hwrite : write.deletes = true
        · exact .inl hwrite
        · exact .inr (h fun hd => absurd hd hwrite)
      · rintro (hwrite | h) hne
        · exact absurd rfl (hne hwrite)
        · exact h
    · obtain ⟨r, hr, htime⟩ := hseen
      rw [hr, holds_some_iff, htime]
      exact ⟨fun h => h fun _ => nofun, fun h _ => h⟩

end Inside

/-! ## The single-document calls -/

section Single

variable {w : World} {path : DocumentPath} {project : ProjectId} {uuid : Uuid}
  {row : TransactionRow}

theorem not_changes_of_fails {R : Type} {p : Adapter R} (hidle : w.txn = none) (h : w.Fails p) :
    ¬ w.Changes p path := by
  obtain ⟨e, w', hrun, hrows⟩ := h
  rw [World.Changes, hrun, hrows hidle]
  exact not_not.mpr rfl

theorem changes_update_iff (path : DocumentPath) (hidle : w.txn = none) (fields : Fields)
    (precondition : Option WritePrecondition) :
    w.Changes (updateDocument path fields precondition) path ↔ w.Accepts path precondition := by
  rcases World.run_updateDocument w path fields precondition with ⟨haccepts, h⟩ | ⟨hnot, h⟩
  · obtain ⟨r, w', hrun, hrows⟩ := h
    refine ⟨fun _ => haccepts, fun _ => ?_⟩
    rw [World.Changes, hrun, hrows, Rows.visible, update_self]
    exact visible_storeOver_some w.env.databaseClock fields (w.documentRow path)
  · exact ⟨fun hc => absurd hc (not_changes_of_fails hidle h), fun h' => absurd h' hnot⟩

theorem changes_delete_iff (path : DocumentPath) (hidle : w.txn = none)
    (precondition : Option WritePrecondition) :
    w.Changes (deleteDocument path precondition) path ↔
      Rows.visible w.documentRow path ≠ none := by
  rcases World.run_deleteDocument w path precondition with ⟨row, hrow, hvisible, h⟩ | ⟨hnone, h⟩
  · obtain ⟨r, w', hrun, hrows⟩ := h
    have hseen : Rows.visible w.documentRow path = some row := by
      rw [Rows.visible, hrow, Option.filter_some, if_pos hvisible]
    refine ⟨fun _ => by rw [hseen]; exact nofun, fun _ => ?_⟩
    rw [World.Changes, hrun, hrows, hseen, Rows.visible, update_self]
    exact nofun
  · exact ⟨fun hc => absurd hc (not_changes_of_fails hidle h), fun hne => absurd hnone hne⟩

/-- The commit of one write that has an effect. -/
theorem changes_commit_iff (hidle : w.txn = none) (hready : w.Ready project uuid row)
    {write : Write} {final : Option Fields} {values : List FieldValue}
    (hversion : write.version = none)
    (heffect : write.effect w.env.clock (Documents.stored w.document write.path) =
      .ok (final, values)) :
    w.Changes (commitTransaction project uuid.bytes [write]) write.path ↔
      (∀ p, write.precondition = some p → p.Holds (Rows.visible w.documentRow write.path)) ∧
        (write.deletes = true → Rows.visible w.documentRow write.path ≠ none) := by
  have hversions : ∀ x ∈ [write], x.version = none := by simpa using hversion
  have hpermits : w.Permits [write] ↔ ∀ p, write.precondition = some p →
      p.Holds (Rows.visible w.documentRow write.path) := List.forall_mem_singleton
  rcases World.run_commit_cases hidle hready hversions with
    ⟨results, w', hrun, hpermitted, hrows⟩ | ⟨e, w', hrun, hrows, hfailed⟩
  · obtain ⟨final', values', heffect', hend⟩ := applyRows_cons_ok hrows
    obtain ⟨rfl, -⟩ := Prod.mk.inj (Except.ok.inj (heffect.symm.trans heffect'))
    rw [and_iff_right (hpermits.mp hpermitted), ← changesRow_iff heffect,
      changesRow_iff_of_effect heffect, World.Changes, hrun, ← Except.ok.inj hend]
    unfold Rows.visible
    rw [update_self]
  · refine ⟨fun hc => absurd ?_ hc, fun h => ?_⟩
    · rw [hrun, hrows]
    · obtain ⟨e', hall⟩ := hfailed (hpermits.mpr h.1)
      rw [World.applyAll_singleton, heffect] at hall
      cases hall

/-- When the two ways to check an update agree. -/
theorem accepts_iff_holds_iff (fields : Fields) (precondition : WritePrecondition) :
    (w.Accepts path (some precondition) ↔
        precondition.Holds (Rows.visible w.documentRow path)) ↔
      (GuardedCall.update path fields precondition).Sound w project uuid := by
  have hvisible : ∀ {row}, Rows.visible w.documentRow path = some row ↔
      w.documentRow path = some row ∧ row.visible = true := Option.filter_eq_some_iff
  cases precondition with
  | mustExist =>
    refine ⟨fun _ => trivial, fun _ => ?_⟩
    change (∃ row, _ ∧ _) ↔ Rows.visible w.documentRow path ≠ none
    rw [Option.ne_none_iff_exists']
    exact exists_congr fun row => hvisible.symm
  | mustNotExist =>
    change (w.documentRow path = none ↔ Rows.visible w.documentRow path = none) ↔
      ¬ w.HasDeleted path
    unfold Rows.visible World.HasDeleted
    rcases w.documentRow path with _ | row
    · exact ⟨fun _ ⟨row, hrow, _⟩ => (nomatch hrow), fun _ => ⟨fun _ => rfl, fun _ => rfl⟩⟩
    · by_cases hv : row.visible = true
      · rw [Option.filter_some, if_pos hv]
        refine ⟨fun _ => ?_, fun _ => ⟨nofun, nofun⟩⟩
        rintro ⟨row', hrow', hdeleted⟩
        cases hrow'
        exact Bool.false_ne_true (hdeleted.symm.trans hv)
      · rw [Option.filter_some, if_neg hv]
        refine ⟨fun h => (nomatch h.mpr rfl), fun h => absurd ?_ h⟩
        exact ⟨row, rfl, Bool.eq_false_of_not_eq_true hv⟩
  | updateTime t =>
    change ((∃ expected row, _ ∧ _ ∧ _ ∧ _) ↔ ∃ r, _ ∧ _) ↔ ∀ expected row, _ → _ → (_ ↔ _)
    constructor
    · intro h expected row ht hrow
      obtain ⟨hsome, hv⟩ := hvisible.mp hrow
      constructor
      · intro hstored
        obtain ⟨r, hr, htime⟩ := h.mp ⟨expected, row, ht, hsome, hv, hstored⟩
        obtain rfl := Option.some.inj (hrow.symm.trans hr)
        exact Except.ok.inj (htime.symm.trans ht)
      · rintro rfl
        obtain ⟨expected, row', ht', hsome', -, hstored⟩ := h.mpr ⟨row, hrow, ht⟩
        obtain rfl := Except.ok.inj (ht.symm.trans ht')
        obtain rfl := Option.some.inj (hsome.symm.trans hsome')
        exact hstored
    · intro h
      constructor
      · rintro ⟨expected, row, ht, hsome, hv, hstored⟩
        have hrow := hvisible.mpr ⟨hsome, hv⟩
        exact ⟨row, hrow, ht.trans (congrArg Except.ok ((h expected row ht hrow).mp hstored).symm)⟩
      · rintro ⟨r, hr, ht⟩
        obtain ⟨hsome, hv⟩ := hvisible.mp hr
        exact ⟨_, r, ht, hsome, hv, (h _ r ht hr).mpr rfl⟩

/-- **Preconditions are honoured** exactly by the sound calls. -/
theorem preconditions_honoured_iff (hidle : w.txn = none) (hready : w.Ready project uuid row)
    (call : GuardedCall) : call.Honoured w project uuid ↔ call.Sound w project uuid := by
  cases call with
  | update path fields precondition =>
    have hsingle := changes_update_iff path hidle fields (some precondition)
    have hbatch : w.Changes (commitTransaction project uuid.bytes
        [.update path fields none (some precondition) []]) path ↔
          precondition.Holds (Rows.visible w.documentRow path) := by
      refine (changes_commit_iff hidle hready rfl rfl).trans ?_
      refine ⟨fun h => h.1 precondition rfl, fun h => ⟨fun p hp => ?_, nofun⟩⟩
      cases hp
      exact h
    refine Iff.trans ?_ (accepts_iff_holds_iff fields precondition)
    exact ⟨fun h => hsingle.symm.trans (h.2.trans hbatch),
      fun h => ⟨fun hs => h.mp (hsingle.mp hs), hsingle.trans (h.trans hbatch.symm)⟩⟩
  | delete path precondition =>
    have hsingle := changes_delete_iff path hidle (some precondition)
    have hbatch : w.Changes (commitTransaction project uuid.bytes
        [.delete path none (some precondition)]) path ↔
          precondition.Holds (Rows.visible w.documentRow path) ∧
            Rows.visible w.documentRow path ≠ none := by
      refine (changes_commit_iff hidle hready rfl rfl).trans ?_
      refine ⟨fun h => ⟨h.1 precondition rfl, h.2 rfl⟩, fun h => ⟨fun p hp => ?_, fun _ => h.2⟩⟩
      cases hp
      exact h.1
    refine ⟨fun h hne => h.1 (hsingle.mpr hne), fun h => ⟨fun hs => h (hsingle.mp hs), ?_⟩⟩
    exact hsingle.trans ⟨fun hne => hbatch.mpr ⟨h hne, hne⟩, fun hc => (hbatch.mp hc).2⟩
  | commit requests hdecodes =>
    refine imp_congr_right fun ⟨results, hok⟩ => ?_
    have hversions : ∀ write ∈ requests.map Prod.snd, write.version = none := by
      intro write hmem
      obtain ⟨r, hr, rfl⟩ := List.mem_map.mp hmem
      exact (hdecodes r hr).precondition_eq.1
    -- a successful commit has checked the preconditions that its writes carry
    rcases World.run_commit_cases hidle hready hversions with
      ⟨results', w', -, hpermits, hrows⟩ | ⟨e, w', hrun, -⟩
    · refine forall_congr' fun n => forall_congr' fun message => forall_congr' fun write =>
        forall_congr' fun precondition => forall_congr' fun hrequest =>
          forall_congr' fun hmessage => ?_
      have hmem := List.mem_of_getElem? hrequest
      have hwrite : write ∈ requests.map Prod.snd := List.mem_map.mpr ⟨_, hmem, rfl⟩
      have hone : ∀ {before}, applyRows w.env.clock w.document w.documentRow
          ((requests.map Prod.snd).take n) = .ok before → _ := fun {before} hbefore =>
        honoured_iff_inTime hbefore (effect_of_applyRows hrows hwrite) (hdecodes _ hmem) hmessage
          (hpermits write hwrite)
      obtain ⟨before, hbefore⟩ := applyRows_take hrows n
      exact ⟨fun h => (hone hbefore).mp (h before hbefore), fun h before' hbefore' =>
        (hone hbefore').mpr h⟩
    · rw [hrun] at hok
      cases hok

end Single

/-! ## Calls written out -/

/-- A document. -/
def minutes : DocumentPath := ⟨demo, "notes", "minutes"⟩

/-- The document and an active transaction. -/
def minutesWorld : World :=
  .holding .still ((AList.singleton (.document minutes) (DocumentRow.fresh ∅ ⟨0, 0⟩)).insert
    (.transaction (uuidOf 1)) (⟨demo, .active, ⟨0, 0⟩, ∅⟩ : TransactionRow))

/-- An update that asks for an existing document. -/
theorem preconditions_honoured_update :
    (GuardedCall.update minutes ∅ .mustExist).Honoured minutesWorld demo (uuidOf 1) := by
  have hready : minutesWorld.Ready demo (uuidOf 1) ⟨demo, .active, ⟨0, 0⟩, ∅⟩ :=
    ⟨rfl, rfl, rfl, by decide, rfl⟩
  exact (preconditions_honoured_iff rfl hready (.update minutes ∅ .mustExist)).mpr trivial

/-- A delete that asks for an absent document deletes one, where the commit refuses; and a
transform that asks for an existing document is decoded without its precondition. -/
theorem preconditions_ignored :
    (minutesWorld.run (deleteDocument minutes (some .mustNotExist))).1 = .ok () ∧
      (minutesWorld.run (deleteDocument minutes (some .mustNotExist))).2.document minutes = none ∧
      minutesWorld.document minutes = some ∅ ∧
      (minutesWorld.run (commitTransaction demo (uuidOf 1).bytes
        [.delete minutes none (some .mustNotExist)])).1 = .error .transactionAborted ∧
      (Operation.transform "projects/demo/databases/(default)/documents/notes/none"
        (.ok [.increment "n" (.integer 1)])).decode (some .mustExist) =
          .ok (.transform ⟨demo, "notes", "none"⟩ [.increment "n" (.integer 1)], none) ∧
      ((minutesWorld.run (commitTransaction demo (uuidOf 1).bytes
        [.transform ⟨demo, "notes", "none"⟩ [.increment "n" (.integer 1)]])).2.document
          ⟨demo, "notes", "none"⟩).isSome = true := by
  have hparse : parseDocumentPath "projects/demo/databases/(default)/documents/notes/none" =
      .ok ⟨demo, "notes", "none"⟩ := by decide
  refine ⟨rfl, rfl, rfl, rfl, ?_, by decide⟩
  rw [Operation.decode, hparse]
  rfl

end Embyr
