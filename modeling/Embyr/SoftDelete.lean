import Embyr.CommitSequence
import Embyr.GateAgreement

/-!
# Deleted documents

`delete_document` keeps the row of a document and its primary key, and only sets `deleted`.
Readers do not see such a row, but `INSERT` conflicts with it, and an upsert takes its
creation time over.

* `World.run_createDocument`, `World.run_updateDocument`, `World.run_deleteDocument` — what
  the single-document calls do to the rows.
* `DeletedMeansAbsent` — a document that readers miss can be created, and is created anew.
* `deleted_means_absent_iff` — this holds of a path exactly when it has no deleted row.
-/

namespace Embyr

open Program ReadCommitted World

namespace World

/-! ## The single-document calls in a world -/

/-- The row a write leaves over an old one. -/
def written (w : World) (path : DocumentPath) (fields : Fields) : DocumentRow :=
  (w.documentRow path).elim (DocumentRow.fresh fields w.env.databaseClock.stored)
    (DocumentRow.overwrite fields w.env.databaseClock.stored)

/-- The call has succeeded and left this row. -/
def Leaves {R : Type} (w : World) (p : Adapter R) (path : DocumentPath) (row : DocumentRow) :
    Prop :=
  ∃ r w', w.run p = (.ok r, w') ∧ w'.documentRow = Function.update w.documentRow path (some row)

/-- The call has failed and, outside a transaction, changed no document. -/
def Fails {R : Type} (w : World) (p : Adapter R) : Prop :=
  ∃ e w', w.run p = (.error e, w') ∧ (w.txn = none → w'.documentRow = w.documentRow)

variable {w : World} {path : DocumentPath} {row : DocumentRow}

theorem Fails.not_ok {R : Type} {p : Adapter R} (h : w.Fails p) (r : R) : (w.run p).1 ≠ .ok r := by
  obtain ⟨e, w', hrun, -⟩ := h
  rw [hrun]
  exact nofun

/-- A call that announces its change. -/
theorem Leaves.notify {R R' : Type} {p : Adapter R} {f : R → R'} (h : w.Leaves p path row)
    (path' : DocumentPath) :
    w.Leaves (p >>= fun r => sendNotify path' >>= fun _ => pure (f r)) path row := by
  obtain ⟨r, w', hrun, hrow⟩ := h
  exact ⟨_, _, run_bind_of_ok hrun, hrow⟩

theorem Fails.bind {R R' : Type} {p : Adapter R} {f : R → Adapter R'} (h : w.Fails p) :
    w.Fails (p >>= f) := by
  obtain ⟨e, w', hrun, hrow⟩ := h
  exact ⟨e, w', run_bind_of_error hrun, hrow⟩

/-- `INSERT` of a document, by the answer of the statement. -/
theorem run_insertDocument_eq (w : World) (path : DocumentPath) (fields : Fields) :
    let new := DocumentRow.fresh fields w.env.databaseClock.stored
    w.run (insertDocument path fields) =
      (match (w.execute (.insert (.document path) new)).1 with
        | .ok _ => .ok new
        | .error .uniqueViolation => .error (.alreadyExists path.documentId)
        | .error e => .error (.backendUnavailable e.text) : Adapter DocumentRow).run answer
          (w.execute (.insert (.document path) new)).2 := rfl

/-- What `INSERT` does where there is no row. -/
theorem run_insertDocument_none (hrow : w.documentRow path = none) (fields : Fields) :
    w.run (insertDocument path fields) =
      (.ok (w.written path fields), w.put (.document path) (w.written path fields)) := by
  have hexec : w.execute (.insert (.document path)
      (DocumentRow.fresh fields w.env.databaseClock.stored)) =
        (.ok (), w.put (.document path) (DocumentRow.fresh fields w.env.databaseClock.stored)) := by
    simp only [execute, exec_insert_none (show (view w.rows w.txn).lookup (.document path) = none
      from hrow), put]
  have hrun := run_insertDocument_eq w path fields
  dsimp only at hrun
  rw [hexec] at hrun
  rw [hrun, written, hrow]
  rfl

/-- `INSERT` succeeds where there is no row. -/
theorem run_insertDocument (w : World) (path : DocumentPath) (fields : Fields) :
    (w.documentRow path = none ∧ w.Leaves (insertDocument path fields) path (w.written path fields)) ∨
      (w.documentRow path ≠ none ∧ w.Fails (insertDocument path fields)) := by
  rcases hrow : w.documentRow path with _ | old
  · exact .inl ⟨rfl, _, _, run_insertDocument_none hrow fields, documentRow_put⟩
  · have hexec : w.execute (.insert (.document path)
        (DocumentRow.fresh fields w.env.databaseClock.stored)) =
          (.error .uniqueViolation, { w with txn := none }) := by
      simp only [execute, exec_insert_some (show (view w.rows w.txn).lookup (.document path) =
        some old from hrow), AList.empty_union]
    have hrun := run_insertDocument_eq w path fields
    dsimp only at hrun
    rw [hexec] at hrun
    refine .inr ⟨by simp, _, _, hrun, fun hidle => ?_⟩
    rw [← hidle]

/-- `create_document`. -/
theorem run_createDocument (w : World) (path : DocumentPath) (fields : Fields) :
    (w.documentRow path = none ∧ w.Leaves (createDocument path fields) path (w.written path fields)) ∨
      (w.documentRow path ≠ none ∧ w.Fails (createDocument path fields)) := by
  rcases run_insertDocument w path fields with ⟨hrow, h⟩ | ⟨hrow, h⟩
  · exact .inl ⟨hrow, h.notify path⟩
  · exact .inr ⟨hrow, h.bind⟩

/-- When `update_document` goes through. An update time is compared at the precision of the
column. -/
def Accepts (w : World) (path : DocumentPath) : Option WritePrecondition → Prop
  | none => True
  | some .mustExist => ∃ row, w.documentRow path = some row ∧ row.visible = true
  | some .mustNotExist => w.documentRow path = none
  | some (.updateTime t) => ∃ expected row, toDatetime t = .ok expected ∧
      w.documentRow path = some row ∧ row.visible = true ∧ row.updateTime = expected.stored

/-- An `UPDATE` of the document with a condition. -/
theorem run_conditional (w : World) (path : DocumentPath) (fields : Fields)
    (p : DocumentRow → Bool) :
    let overwritten := sql (.update (.document path) p
      (DocumentRow.overwrite fields w.env.databaseClock.stored))
    (∃ row, w.documentRow path = some row ∧ p row = true ∧ w.run overwritten =
        (.ok (some (w.written path fields)), w.put (.document path) (w.written path fields))) ∨
      ((∀ row, w.documentRow path = some row → p row = false) ∧
        w.run overwritten = (.ok none, w)) := by
  intro overwritten
  rcases hrow : w.documentRow path with _ | old
  · refine .inr ⟨nofun, run_update_none ?_⟩
    rw [show w.rowsSeen.lookup (.document path) = none from hrow]
    rfl
  · by_cases hp : p old = true
    · refine .inl ⟨old, rfl, hp, ?_⟩
      rw [written, hrow]
      refine run_update_some (k := Key.document path) (v := old) ?_
      rw [show w.rowsSeen.lookup (.document path) = some old from hrow, Option.filter_some,
        if_pos hp]
    · refine .inr ⟨fun row hsome => ?_, run_update_none ?_⟩
      · cases hsome
        exact Bool.eq_false_of_not_eq_true hp
      · rw [show w.rowsSeen.lookup (.document path) = some old from hrow, Option.filter_some,
          if_neg hp]

/-- After a refused update, a second look only chooses the error. -/
theorem fails_of_found (w : World) (path : DocumentPath) (found : Option FirestoreDocument) :
    w.Fails (match found with
      | some _ => .error .occConflict
      | none => .error (.documentNotFound path.documentId) : Adapter WriteResult) := by
  rcases found with _ | doc <;> exact ⟨_, w, rfl, fun _ => rfl⟩

/-- `update_document`. -/
theorem run_updateDocument (w : World) (path : DocumentPath) (fields : Fields)
    (precondition : Option WritePrecondition) :
    (w.Accepts path precondition ∧
        w.Leaves (updateDocument path fields precondition) path (w.written path fields)) ∨
      (¬ w.Accepts path precondition ∧ w.Fails (updateDocument path fields precondition)) := by
  rcases precondition with _ | _ | _ | t
  · exact .inl ⟨trivial, _, _, rfl, documentRow_put⟩
  · rcases run_conditional w path fields DocumentRow.visible with
      ⟨row, hrow, hvisible, hrun⟩ | ⟨hnone, hrun⟩
    · exact .inl ⟨⟨row, hrow, hvisible⟩, _, _, run_bind_of_ok hrun, documentRow_put⟩
    · refine .inr ⟨?_, _, _, run_bind_of_ok hrun, fun _ => rfl⟩
      rintro ⟨row, hrow, hvisible⟩
      exact Bool.false_ne_true ((hnone row hrow).symm.trans hvisible)
  · rcases run_insertDocument w path fields with ⟨hrow, h⟩ | ⟨hrow, h⟩
    · exact .inl ⟨hrow, h.notify path⟩
    · exact .inr ⟨hrow, h.bind⟩
  · rcases htime : toDatetime t with e | expected
    · refine .inr ⟨?_, e, w, ?_, fun _ => rfl⟩
      · rintro ⟨expected, row, hexpected, -⟩
        cases htime.symm.trans hexpected
      · rw [updateDocument, htime]
        rfl
    · rcases run_conditional w path fields (fun row =>
        decide (DocumentRow.updateTime row = expected.stored) && DocumentRow.visible row) with
        ⟨row, hrow, hp, hrun⟩ | ⟨hnone, hrun⟩
      · obtain ⟨hequal, hvisible⟩ := Bool.and_eq_true_iff.mp hp
        refine .inl ⟨⟨expected, row, htime, hrow, hvisible, of_decide_eq_true hequal⟩, ?_⟩
        rw [updateDocument, htime]
        exact ⟨_, _, run_bind_of_ok hrun, documentRow_put⟩
      · refine .inr ⟨?_, ?_⟩
        · rintro ⟨expected', row, hexpected, hrow, hvisible, hequal⟩
          obtain rfl := Except.ok.inj (htime.symm.trans hexpected)
          refine Bool.false_ne_true ((hnone row hrow).symm.trans ?_)
          rw [hvisible, hequal, decide_eq_true rfl]
          rfl
        · rw [updateDocument, htime]
          obtain ⟨e, w', hlast, hrows⟩ := fails_of_found w path (visibleDocument path _)
          exact ⟨e, w', (run_bind_of_ok hrun).trans ((run_bind_of_ok run_select).trans hlast),
            hrows⟩

/-- `delete_document`: whatever the precondition, a visible document is deleted. -/
theorem run_deleteDocument (w : World) (path : DocumentPath)
    (precondition : Option WritePrecondition) :
    (∃ row, w.documentRow path = some row ∧ row.visible = true ∧
        w.Leaves (deleteDocument path precondition) path
          (row.remove w.env.databaseClock.stored)) ∨
      ((w.documentRow path).filter DocumentRow.visible = none ∧
        w.Fails (deleteDocument path precondition)) := by
  rcases hrow : (w.documentRow path).filter DocumentRow.visible with _ | row
  · exact .inr ⟨rfl, _, _, run_bind_of_ok (run_update_none hrow), fun _ => rfl⟩
  · obtain ⟨hsome, hvisible⟩ := Option.filter_eq_some_iff.mp hrow
    exact .inl ⟨row, hsome, hvisible, _, _, run_bind_of_ok (run_update_some hrow),
      documentRow_put⟩

theorem written_of_none (h : w.documentRow path = none) (fields : Fields) :
    w.written path fields = DocumentRow.fresh fields w.env.databaseClock.stored := by
  rw [written, h]
  rfl

/-- The path has a row that readers do not see. -/
def HasDeleted (w : World) (path : DocumentPath) : Prop :=
  ∃ row, w.documentRow path = some row ∧ row.visible = false

/-- Readers miss a document that has no row or a deleted one. -/
theorem getDocument_none_iff (w : World) (path : DocumentPath) :
    (w.run (getDocument path none)).1 = .ok none ↔
      w.documentRow path = none ∨ w.HasDeleted path := by
  rw [run_getDocument, visibleDocument]
  rcases hrow : w.documentRow path with _ | row
  · exact ⟨fun _ => .inl rfl, fun _ => rfl⟩
  · by_cases hvisible : row.visible = true
    · rw [Option.filter_some, if_pos hvisible]
      refine ⟨nofun, ?_⟩
      rintro (hnone | ⟨row', hrow', hdeleted⟩)
      · cases hnone
      · obtain rfl := Option.some.inj (hrow.symm.trans hrow')
        exact absurd (hdeleted.symm.trans hvisible) Bool.false_ne_true
    · rw [Option.filter_some, if_neg hvisible]
      exact ⟨fun _ => .inr ⟨row, hrow, Bool.eq_false_of_not_eq_true hvisible⟩, fun _ => rfl⟩

end World

/-! ## What deletion should mean -/

/-- The calls that may create a document, and the turns of a commit that may. -/
inductive Creation where
  | create (path : DocumentPath) (fields : Fields)
  | update (path : DocumentPath) (fields : Fields) (precondition : Option WritePrecondition)
  | turn (now : Timestamp) (write : Write) (locked : Option Fields)

namespace Creation

/-- The document it writes. -/
def path : Creation → DocumentPath
  | create path _ | update path _ _ => path
  | turn _ write _ => write.path

/-- The code that does it. -/
def program : Creation → Adapter WriteResult
  | create path fields => createDocument path fields
  | update path fields precondition => updateDocument path fields precondition
  | turn now write locked => applyWrite now write locked

/-- When it happens. -/
def time (w : World) : Creation → Timestamp
  | create _ _ | update _ _ _ => w.env.databaseClock.stored
  | turn now _ _ => now.stored

end Creation

/-- What deletion should mean for a path: the two ways to create a document succeed exactly
where a reader misses it, and a document created there carries the time of its creation. -/
structure DeletedMeansAbsent (w : World) (path : DocumentPath) : Prop where
  create : ∀ fields, (∃ r, (w.run (createDocument path fields)).1 = .ok r) ↔
    (w.run (getDocument path none)).1 = .ok none
  createAbsent : ∀ fields,
    (∃ r, (w.run (updateDocument path fields (some .mustNotExist))).1 = .ok r) ↔
      (w.run (getDocument path none)).1 = .ok none
  createTime : ∀ creation : Creation, creation.path = path →
    (w.run (getDocument path none)).1 = .ok none →
      ∀ r w' row, w.run creation.program = (.ok r, w') → w'.documentRow path = some row →
        row.visible = true → row.createTime = creation.time w

section Deleted

variable {w : World} {path : DocumentPath}

/-- A turn of a commit that finds no row creates one. -/
theorem createTime_applyWrite {now : Timestamp} {write : Write} {locked : Option Fields}
    {r : WriteResult} {w' : World} {row : DocumentRow} (hnone : w.documentRow write.path = none)
    (hrun : w.run (applyWrite now write locked) = (.ok r, w'))
    (hrow : w'.documentRow write.path = some row) : row.createTime = now.stored := by
  obtain ⟨⟨final, values⟩, heffect, hrest⟩ := run_ofExcept_bind_eq_ok hrun
  obtain ⟨stored, hstore⟩ := run_store w write.path now final
  obtain ⟨stored', w₁, hstore', hend⟩ := run_bind_eq_ok hrest
  obtain ⟨-, rfl⟩ := Prod.mk.inj (hstore.symm.trans hstore')
  cases hend
  cases final with
  | some fields =>
    obtain rfl := Option.some.inj (documentRow_put_self.symm.trans hrow)
    rw [hnone]
    rfl
  | none =>
    rw [store, hnone] at hrow
    exact nomatch hnone.symm.trans hrow

/-- Where there is no row, a creation is stamped with its own time. -/
theorem createTime_of_none {creation : Creation} {r : WriteResult} {w' : World} {row : DocumentRow}
    (hnone : w.documentRow creation.path = none) (hrun : w.run creation.program = (.ok r, w'))
    (hrow : w'.documentRow creation.path = some row) : row.createTime = creation.time w := by
  -- the two calls leave the same row
  have hleaves : ∀ {path fields} {p : Adapter WriteResult}, w.documentRow path = none →
      w.Leaves p path (w.written path fields) → w.run p = (.ok r, w') →
      w'.documentRow path = some row → row.createTime = w.env.databaseClock.stored := by
    rintro path fields p hnone ⟨r', w'', hrun', hrows⟩ hrun hrow
    obtain ⟨-, rfl⟩ := Prod.mk.inj (hrun'.symm.trans hrun)
    rw [hrows, Function.update_self, written_of_none hnone] at hrow
    cases hrow
    rfl
  cases creation with
  | create path fields =>
    rcases run_createDocument w path fields with ⟨-, h⟩ | ⟨hsome, -⟩
    · exact hleaves hnone h hrun hrow
    · exact absurd hnone hsome
  | update path fields precondition =>
    rcases run_updateDocument w path fields precondition with ⟨-, h⟩ | ⟨-, h⟩
    · exact hleaves hnone h hrun hrow
    · exact absurd (congrArg Prod.fst hrun) (h.not_ok r)
  | turn now write locked => exact createTime_applyWrite hnone hrun hrow

/-- **Deleted means absent** exactly on the paths without a deleted row. -/
theorem deleted_means_absent_iff (w : World) (path : DocumentPath) :
    DeletedMeansAbsent w path ↔ ¬ w.HasDeleted path := by
  constructor
  · rintro h ⟨row, hrow, hdeleted⟩
    obtain ⟨r, hok⟩ := (h.create ∅).mpr
      ((w.getDocument_none_iff path).mpr (.inr ⟨row, hrow, hdeleted⟩))
    rcases run_createDocument w path ∅ with ⟨hnone, -⟩ | ⟨-, hfails⟩
    · exact nomatch hnone.symm.trans hrow
    · exact hfails.not_ok r hok
  · intro hkept
    have hmissing : (w.run (getDocument path none)).1 = .ok none ↔ w.documentRow path = none :=
      (w.getDocument_none_iff path).trans (or_iff_left hkept)
    refine ⟨fun fields => ?_, fun fields => ?_, fun creation hpath hget r w' row hrun hrow _ => ?_⟩
    · rw [hmissing]
      rcases run_createDocument w path fields with ⟨hnone, h⟩ | ⟨hsome, h⟩
      · obtain ⟨r, w', hrun, -⟩ := h
        exact ⟨fun _ => hnone, fun _ => ⟨r, congrArg Prod.fst hrun⟩⟩
      · exact ⟨fun ⟨r, hok⟩ => absurd hok (h.not_ok r), fun hnone => absurd hnone hsome⟩
    · rw [hmissing]
      rcases run_updateDocument w path fields (some .mustNotExist) with ⟨hnone, h⟩ | ⟨hsome, h⟩
      · obtain ⟨r, w', hrun, -⟩ := h
        exact ⟨fun _ => hnone, fun _ => ⟨r, congrArg Prod.fst hrun⟩⟩
      · exact ⟨fun ⟨r, hok⟩ => absurd hok (h.not_ok r), fun hnone => absurd hnone hsome⟩
    · subst hpath
      exact createTime_of_none (hmissing.mp hget) hrun hrow

end Deleted

/-- A document is created and deleted, and the clock goes on. -/
def afterDelete (path : DocumentPath) : World :=
  let w := ((World.holding .still ∅).run (createDocument path ∅)).2
  { (w.run (deleteDocument path none)).2 with env.databaseClock := ⟨5, 0⟩ }

/-- A reader misses the document, yet it cannot be created, and an update brings it back with
its old creation time. -/
theorem deleted_document_lingers :
    let path : DocumentPath := ⟨demo, "notes", "a"⟩
    let w := afterDelete path
    (w.run (getDocument path none)).1 = .ok none ∧
      (w.run (createDocument path ∅)).1 = .error (.alreadyExists "a") ∧
      (w.run (updateDocument path ∅ (some .mustNotExist))).1 = .error (.alreadyExists "a") ∧
      ((w.run (updateDocument path ∅ none)).2.documentRow path).map
        (fun row => (row.visible, row.createTime, row.updateTime)) =
          some (true, ⟨0, 0⟩, ⟨5, 0⟩) :=
  ⟨rfl, rfl, rfl, rfl⟩

end Embyr
