import Embyr.Preconditions

/-!
# The update time as a token

A client may make a write depend on the update time it was last told. The column keeps
microseconds. `create_document` and `update_document` report the column's value and
`get_document` reads it back; `commit_transaction` reports its own clock, nanoseconds and all.
`update_document` cuts the time it is given to the precision of the column, the check of a
commit does not.

* `toDatetime_of_valid`, `Timestamp.stored_stored` — a time that has been stored stays as it is.
* `passes_stored` — which of the two checks a stored time passes, and which the time it was
  stored from.
* `update_time_token_iff` — which reported times work as tokens.
-/

namespace Embyr

open Program ReadCommitted Timestamp

/-! ## Times that are stored -/

/-- What `chrono` can represent, and a clock can tell. -/
structure Timestamp.Valid (t : Timestamp) : Prop where
  nanos_nonneg : 0 ≤ t.nanos.toInt
  nanos_le : t.nanos.toInt ≤ 999999999
  le_secs : -8334601228800 ≤ t.secs.toInt
  secs_le : t.secs.toInt ≤ 8210266876799

section Stored

variable {t : Timestamp} (ht : t.Valid)
include ht

theorem Timestamp.nanos_stored : t.stored.nanos.toInt = t.nanos.toInt - t.nanos.toInt % 1000 := by
  have hnonneg := ht.nanos_nonneg
  have hle := ht.nanos_le
  have hthousand : (1000 : Int32).toInt = 1000 := by decide
  rw [stored, Int32.toInt_sub, Int32.toInt_mod, hthousand,
    Int.tmod_eq_emod_of_nonneg hnonneg]
  rw [Int.bmod_eq_of_le] <;> omega

theorem Timestamp.Valid.stored : t.stored.Valid := by
  have hnonneg := ht.nanos_nonneg
  have hle := ht.nanos_le
  have hnanos := nanos_stored ht
  exact ⟨by omega, by omega, ht.le_secs, ht.secs_le⟩

theorem toDatetime_of_valid : toDatetime t = .ok t := by
  have hnonneg := ht.nanos_nonneg
  have hle := ht.nanos_le
  have hsecs := ht.le_secs
  have hsecs' := ht.secs_le
  rw [toDatetime, if_neg (by omega), if_neg (by omega)]

theorem Timestamp.stored_stored : t.stored.stored = t.stored := by
  have hnanos := nanos_stored ht
  have hnanos' := nanos_stored ht.stored
  have hequal : t.stored.stored.nanos = t.stored.nanos := by
    rw [← Int32.toInt_inj]
    omega
  exact congrArg (mk t.secs) hequal

end Stored

/-! ## The two checks -/

/-- `UpdateDocument` with this update time goes through. -/
def PassesUpdate (w : World) (path : DocumentPath) (t : Timestamp) : Prop :=
  ∀ fields, ∃ r, (w.run (updateDocument path fields (some (.updateTime t)))).1 = .ok r

/-- The check of a commit lets a write with this update time pass. -/
def PassesCommit (w : World) (path : DocumentPath) (t : Timestamp) : Prop :=
  ∀ write : Write, write.path = path → write.precondition = some (.updateTime t) →
    (w.run (verifyUpdateTime write)).1 = .ok ()

section Checks

variable {w : World} {path : DocumentPath} {row : DocumentRow}

theorem passesUpdate_iff {t : Timestamp} :
    PassesUpdate w path t ↔ w.Accepts path (some (.updateTime t)) := by
  constructor
  · intro h
    obtain ⟨r, hr⟩ := h ∅
    rcases World.run_updateDocument w path ∅ (some (.updateTime t)) with ⟨haccepts, -⟩ | ⟨-, hfails⟩
    · exact haccepts
    · exact absurd hr (hfails.not_ok r)
  · intro haccepts fields
    rcases World.run_updateDocument w path fields (some (.updateTime t)) with
      ⟨-, r, w', hrun, -⟩ | ⟨hrejects, -⟩
    · exact ⟨r, congrArg Prod.fst hrun⟩
    · exact absurd haccepts hrejects

theorem passesCommit_iff {t : Timestamp} :
    PassesCommit w path t ↔
      (WritePrecondition.updateTime t).Holds (Rows.visible w.documentRow path) := by
  constructor
  · intro h
    exact (World.run_verifyUpdateTime (.refl w) (.delete path none (some (.updateTime t)))).mp
      (h _ rfl rfl) t rfl
  · rintro h write rfl hprecondition
    refine (World.run_verifyUpdateTime (.refl w) write).mpr fun t' ht' => ?_
    obtain rfl := WritePrecondition.updateTime.inj
      (Option.some.inj (hprecondition.symm.trans ht'))
    exact h

/-- The stored time passes both checks. The time it was stored from passes that of
`update_document`, and that of a commit if nothing was cut off. -/
theorem passes_stored {t : Timestamp} (ht : t.Valid) (hrow : w.documentRow path = some row)
    (hvisible : row.visible = true) (htime : row.updateTime = t.stored) :
    (PassesUpdate w path t.stored ∧ PassesCommit w path t.stored) ∧
      PassesUpdate w path t ∧ (PassesCommit w path t ↔ t.stored = t) := by
  have hseen : Rows.visible w.documentRow path = some row := by
    rw [Rows.visible, hrow, Option.filter_some, if_pos hvisible]
  refine ⟨⟨?_, ?_⟩, ?_, ?_⟩
  · rw [passesUpdate_iff]
    exact ⟨t.stored, row, toDatetime_of_valid ht.stored, hrow, hvisible,
      htime.trans (stored_stored ht).symm⟩
  · rw [passesCommit_iff]
    exact ⟨row, hseen, by rw [htime]; exact toDatetime_of_valid ht.stored⟩
  · rw [passesUpdate_iff]
    exact ⟨t, row, toDatetime_of_valid ht, hrow, hvisible, htime⟩
  · rw [passesCommit_iff]
    constructor
    · rintro ⟨r, hr, hequal⟩
      obtain rfl := Option.some.inj (hseen.symm.trans hr)
      exact htime.symm.trans (Except.ok.inj ((toDatetime_of_valid ht).symm.trans hequal)).symm
    · intro hstored
      exact ⟨row, hseen, by rw [htime, hstored]; exact toDatetime_of_valid ht⟩

end Checks

/-! ## What the writes report -/

/-- The document has last been written at this time, before the column cut it. -/
def WrittenAt (w : World) (path : DocumentPath) (t : Timestamp) : Prop :=
  ∃ row, w.documentRow path = some row ∧ row.visible = true ∧ row.updateTime = t.stored

section Reports

variable {w w' : World} {path : DocumentPath} {fields : Fields} {result : WriteResult}

theorem World.written_updateTime (w : World) (path : DocumentPath) (fields : Fields) :
    (w.written path fields).updateTime = w.env.databaseClock.stored ∧
      (w.written path fields).visible = true := by
  rw [World.written]
  rcases w.documentRow path with _ | row <;> exact ⟨rfl, rfl⟩

theorem World.Leaves.writtenAt {R : Type} {p : Adapter R} {r : R}
    (h : w.Leaves p path (w.written path fields)) (hrun : w.run p = (.ok r, w')) :
    WrittenAt w' path w.env.databaseClock := by
  obtain ⟨r', w'', hrun', hrows⟩ := h
  obtain ⟨-, rfl⟩ := Prod.mk.inj (hrun'.symm.trans hrun)
  obtain ⟨htime, hvisible⟩ := w.written_updateTime path fields
  exact ⟨_, by rw [hrows, Function.update_self], hvisible, htime⟩

theorem createDocument_reports (h : w.run (createDocument path fields) = (.ok result, w')) :
    WrittenAt w' path w.env.databaseClock ∧
      result.updateTime = w.env.databaseClock.stored := by
  rcases World.run_createDocument w path fields with ⟨hrow, hleaves⟩ | ⟨-, hfails⟩
  · refine ⟨hleaves.writtenAt h, ?_⟩
    have hinsert := World.run_insertDocument_none hrow fields
    rw [createDocument, World.run_bind_of_ok hinsert] at h
    obtain ⟨hresult, -⟩ := Prod.mk.inj h
    cases hresult
    exact (w.written_updateTime path fields).1
  · exact absurd (congrArg Prod.fst h) (hfails.not_ok result)

/-- What an `UPDATE` with a condition reports of the row it has written. -/
theorem conditional_reports {p : DocumentRow → Bool} {f : Option DocumentRow → Adapter WriteResult}
    (hsome : ∀ row, f (some row) =
      (sendNotify path >>= fun _ => pure ⟨DocumentRow.updateTime row, none, []⟩))
    (hnone : ∀ w₁ : World, ∀ r, (w₁.run (f none)).1 ≠ .ok r)
    (h : w.run (sql (.update (.document path) p
      (DocumentRow.overwrite fields w.env.databaseClock.stored)) >>= f) = (.ok result, w')) :
    result.updateTime = w.env.databaseClock.stored := by
  rcases World.run_conditional w path fields p with ⟨row, -, -, hrun⟩ | ⟨-, hrun⟩
  · rw [World.run_bind_of_ok hrun, hsome] at h
    obtain ⟨hresult, -⟩ := Prod.mk.inj h
    cases hresult
    exact (w.written_updateTime path fields).1
  · rw [World.run_bind_of_ok hrun] at h
    exact absurd (congrArg Prod.fst h) (hnone w result)

theorem updateDocument_reports {precondition : Option WritePrecondition}
    (h : w.run (updateDocument path fields precondition) = (.ok result, w')) :
    WrittenAt w' path w.env.databaseClock ∧
      result.updateTime = w.env.databaseClock.stored := by
  constructor
  · rcases World.run_updateDocument w path fields precondition with ⟨-, hleaves⟩ | ⟨-, hfails⟩
    · exact hleaves.writtenAt h
    · exact absurd (congrArg Prod.fst h) (hfails.not_ok result)
  · rcases precondition with _ | _ | _ | t
    · obtain ⟨hresult, -⟩ := Prod.mk.inj h
      cases hresult
      exact (w.written_updateTime path fields).1
    · refine conditional_reports (fun _ => rfl) (fun w₁ r hok => ?_) h
      exact nomatch hok
    · obtain ⟨row, w₁, hinsert, h⟩ := World.run_bind_eq_ok h
      rcases World.run_insertDocument w path fields with ⟨hrow, -⟩ | ⟨-, hfails⟩
      · obtain ⟨hvalue, -⟩ :=
          Prod.mk.inj ((World.run_insertDocument_none hrow fields).symm.trans hinsert)
        cases hvalue
        obtain ⟨hresult, -⟩ := Prod.mk.inj h
        cases hresult
        exact (w.written_updateTime path fields).1
      · exact absurd (congrArg Prod.fst hinsert) (hfails.not_ok row)
    · obtain ⟨expected, -, h⟩ := World.run_ofExcept_bind_eq_ok h
      refine conditional_reports (fun _ => rfl) (fun w₁ r => ?_) h
      refine (congrArg Prod.fst (World.run_bind_of_ok World.run_select)).trans_ne ?_
      split <;> exact nofun

/-- A commit reports its clock for every write, and has written at that time. -/
theorem commitTransaction_reports {project : ProjectId} {id : TransactionId} {writes : List Write}
    {results : List WriteResult} {last : Write} (hidle : w.txn = none)
    (h : w.run (commitTransaction project id writes) = (.ok results, w'))
    (hlast : lastWrite path writes = some last) (hstays : last.deletes = false) :
    WrittenAt w' path w.env.clock ∧ ∀ result ∈ results, result.updateTime = w.env.clock := by
  constructor
  · have hseen := applyRows_visible path (World.run_commitTransaction_applyRows hidle h)
    rw [hlast] at hseen
    simp only [SeenAfter, hstays, Bool.false_eq_true, if_false] at hseen
    obtain ⟨row, hrow, htime⟩ := hseen
    obtain ⟨hsome, hvisible⟩ := Option.filter_eq_some_iff.mp hrow
    exact ⟨row, hsome, hvisible, htime⟩
  · obtain ⟨docs, values, -, rfl, -⟩ := World.run_commitTransaction_applyAll hidle h
    intro result hmem
    obtain ⟨vs, -, rfl⟩ := List.mem_map.mp hmem
    rfl

end Reports

/-- **The update time as a token.** A document is written in `w`, which leads to `w'`, and its
row is still the same in `reading` and in `later`. What `CreateDocument` and `UpdateDocument`
report of the write, and what `GetDocument` reports in `reading`, passes both checks in
`later`. What a commit reports passes the check of `UpdateDocument`, and the check of a commit
exactly if the clock of the commit told a whole number of microseconds. -/
theorem update_time_token_iff {w w' reading later : World} {path : DocumentPath}
    (hidle : w.txn = none) (hdatabase : w.env.databaseClock.Valid) (hclock : w.env.clock.Valid)
    (hreading : reading.documentRow path = w'.documentRow path)
    (hlater : later.documentRow path = w'.documentRow path) :
    (∀ fields result, w.run (createDocument path fields) = (.ok result, w') →
      (PassesUpdate later path result.updateTime ∧ PassesCommit later path result.updateTime) ∧
      ∀ doc, (reading.run (getDocument path none)).1 = .ok (some doc) →
        PassesUpdate later path doc.updateTime ∧ PassesCommit later path doc.updateTime) ∧
    (∀ fields precondition result,
      w.run (updateDocument path fields precondition) = (.ok result, w') →
      (PassesUpdate later path result.updateTime ∧ PassesCommit later path result.updateTime) ∧
      ∀ doc, (reading.run (getDocument path none)).1 = .ok (some doc) →
        PassesUpdate later path doc.updateTime ∧ PassesCommit later path doc.updateTime) ∧
    ∀ project id writes results last,
      w.run (commitTransaction project id writes) = (.ok results, w') →
      lastWrite path writes = some last → last.deletes = false →
      (∀ result ∈ results, PassesUpdate later path result.updateTime ∧
        (PassesCommit later path result.updateTime ↔ w.env.clock.stored = w.env.clock)) ∧
      ∀ doc, (reading.run (getDocument path none)).1 = .ok (some doc) →
        PassesUpdate later path doc.updateTime ∧ PassesCommit later path doc.updateTime := by
  -- what a reader is told of a document written at a time
  have hreads : ∀ {t : Timestamp}, t.Valid → WrittenAt w' path t →
      ∀ doc, (reading.run (getDocument path none)).1 = .ok (some doc) →
        PassesUpdate later path doc.updateTime ∧ PassesCommit later path doc.updateTime := by
    rintro t ht ⟨row, hrow, hvisible, htime⟩ doc hget
    rw [World.run_getDocument, hreading, hrow, visibleDocument, Option.filter_some, if_pos hvisible]
      at hget
    obtain rfl := Option.some.inj (Except.ok.inj hget)
    have hpasses := (passes_stored ht (hlater.trans hrow) hvisible htime).1
    rw [← htime] at hpasses
    exact hpasses
  refine ⟨?_, ?_, ?_⟩
  · intro fields result h
    obtain ⟨hwritten, hreport⟩ := createDocument_reports h
    refine ⟨?_, hreads hdatabase hwritten⟩
    obtain ⟨row, hrow, hvisible, htime⟩ := hwritten
    rw [hreport]
    exact (passes_stored hdatabase (hlater.trans hrow) hvisible htime).1
  · intro fields precondition result h
    obtain ⟨hwritten, hreport⟩ := updateDocument_reports h
    refine ⟨?_, hreads hdatabase hwritten⟩
    obtain ⟨row, hrow, hvisible, htime⟩ := hwritten
    rw [hreport]
    exact (passes_stored hdatabase (hlater.trans hrow) hvisible htime).1
  · intro project id writes results last h hlast hstays
    obtain ⟨hwritten, hreports⟩ := commitTransaction_reports hidle h hlast hstays
    refine ⟨fun result hmem => ?_, hreads hclock hwritten⟩
    obtain ⟨row, hrow, hvisible, htime⟩ := hwritten
    rw [hreports result hmem]
    exact (passes_stored hclock (hlater.trans hrow) hvisible htime).2

/-! ## Tokens written out -/

/-- The update time that an unconditional update reports, at the epoch. -/
theorem update_time_token_minutes :
    PassesUpdate (minutesWorld.run (updateDocument minutes ∅ none)).2 minutes ⟨0, 0⟩ ∧
      PassesCommit (minutesWorld.run (updateDocument minutes ∅ none)).2 minutes ⟨0, 0⟩ := by
  have hepoch : Timestamp.Valid ⟨0, 0⟩ := ⟨by decide, by decide, by decide, by decide⟩
  have hrun : minutesWorld.run (updateDocument minutes ∅ none) =
      (.ok ⟨⟨0, 0⟩, none, []⟩, (minutesWorld.run (updateDocument minutes ∅ none)).2) := rfl
  exact ((update_time_token_iff rfl hepoch hepoch rfl rfl).2.1 ∅ none _ hrun).1

/-- `minutesWorld` one nanosecond after the epoch. -/
def nextNano : World :=
  { minutesWorld with env := { Environment.still with clock := ⟨0, 1⟩ } }

/-- A commit reports a time with a nanosecond, the column keeps none, and the next commit that
asks for the reported time is refused, where `UpdateDocument` takes it. -/
theorem commit_token_refused :
    let committed := nextNano.run
      (commitTransaction demo (uuidOf 1).bytes [.update minutes ∅ none none []])
    committed.1 = .ok [⟨⟨0, 1⟩, none, []⟩] ∧
      (committed.2.documentRow minutes).map DocumentRow.updateTime = some ⟨0, 0⟩ ∧
      (committed.2.run (verifyUpdateTime
        (.update minutes ∅ none (some (.updateTime ⟨0, 1⟩)) []))).1 =
          .error .transactionAborted ∧
      (committed.2.run (updateDocument minutes ∅ (some (.updateTime ⟨0, 1⟩)))).1 =
          .ok ⟨⟨0, 0⟩, none, []⟩ := by
  refine ⟨rfl, rfl, rfl, rfl⟩

end Embyr
