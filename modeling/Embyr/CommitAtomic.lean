import Embyr.CommitSequence
import Embyr.CommitProtocol

/-!
# A commit does everything or nothing

One `commit_transaction` against a database in which any statement may fail. Stored fields
that cannot be decoded are a failure of the statement that reads them.

* `honest` — the server, where an error of `COMMIT` means that it has not committed.
* `Undone` — what a failed commit leaves: the documents, and at most an expired mark.
* `Applied` — what a successful commit leaves: every write, in order, at one time.
* `commit_atomic` — whatever fails, a commit ends in one of the two.
-/

namespace Embyr

open Program ReadCommitted World

/-! ## Outcomes -/

/-- A `COMMIT` that answers with an error has not committed. -/
def TellsCommit (i : ℕ) (db db' : Db Key.Row) : (q : Call) → q.Answer → Prop
  | .sql .commit, .error _ => db' = db.apply i none ∅
  | _, _ => True

/-- The server, without lost answers to `COMMIT`. -/
def honest : Machine Call.Answer (Db Key.Row) where
  step i q db a db' := server.step i q db a db' ∧ TellsCommit i db db' q a

/-- The documents readers see. -/
def documentsOf (db : Db Key.Row) : Documents := fun path =>
  (Option.filter DocumentRow.visible (db.rows.lookup (.document path))).map DocumentRow.fields

/-- Nothing has happened, except that the transaction may have been marked expired. -/
structure Undone (i : ℕ) (id : TransactionId) (db db' : Db Key.Row) : Prop where
  documents : ∀ path, db'.rows.lookup (.document path) = db.rows.lookup (.document path)
  transactions : ∀ uuid,
    db'.rows.lookup (.transaction uuid) = db.rows.lookup (.transaction uuid) ∨
      uuidFromBytes id = .ok uuid ∧ ∃ row : TransactionRow,
        db.rows.lookup (.transaction uuid) = some row ∧
          db'.rows.lookup (.transaction uuid) =
            some ({ row with status := .expired } : TransactionRow)
  closed : db'.txns i = none

/-- Every write has been applied at the time `now`, and `results` has one entry for each. -/
structure Applied (i : ℕ) (now : Timestamp) (writes : List Write) (results : List WriteResult)
    (db db' : Db Key.Row) : Prop where
  documents : ∃ values, applyAll now (documentsOf db) (documentsOf db) writes =
    .ok (documentsOf db', values) ∧ results = World.results now values
  listed : results.length = writes.length
  times : ∀ write ∈ writes, ∀ row : DocumentRow,
    db'.rows.lookup (.document write.path) = some row → row.updateTime = now.stored
  others : ∀ path, (∀ write ∈ writes, write.path ≠ path) →
    db'.rows.lookup (.document path) = db.rows.lookup (.document path)
  closed : db'.txns i = none

/-! ## A commit that fails -/

section Failing

variable {project : ProjectId} {uuid : Uuid} {writes : List Write} {db db' start : Db Key.Row}
  {i : ℕ} {s : CommitState}

/-- The rows while a commit is on its way, seen from where it started. -/
def RowsKept (uuid : Uuid) (start : Db Key.Row) : CommitState → Db Key.Row → Prop
  | .done _ _, _ => True
  | .dropped, db => db.rows = start.rows ∨ ∃ row : TransactionRow,
      start.rows.lookup (.transaction uuid) = some row ∧
        db.rows = AList.singleton (.transaction uuid)
          ({ row with status := .expired } : TransactionRow) ∪ start.rows
  | _, db => db.rows = start.rows

/-- Before its `COMMIT` a statement of the commit reaches the store only to mark the
transaction expired. -/
theorem RowsKept.step {q : Call} {a : q.Answer} (hallows : CommitAllows project uuid writes s q)
    (h : s.Aligned db i ∧ RowsKept uuid start s db) (hstep : honest.step i q db a db') :
    (s.next q a).Aligned db' i ∧ RowsKept uuid start (s.next q a) db' := by
  obtain ⟨halign, hkept⟩ := h
  obtain ⟨hserver, htells⟩ := hstep
  have hrows : ∀ {txn} {d : Db Key.Row}, (d.apply i txn ∅).rows = d.rows :=
    AList.empty_union
  cases hserver with
  | @other q a db hother =>
    rw [hallows.next_other hother]
    exact ⟨halign, hkept⟩
  | @statement q a db db' hstatement =>
    obtain ⟨txn, batch, rfl, hmove⟩ := hallows.moves halign hstatement
    refine ⟨hmove.aligned, ?_⟩
    generalize hnext : s.next (.sql q) a = s' at hmove ⊢
    cases hmove with
    | expire hr =>
      rw [show db.rows = start.rows from hkept] at hr
      exact .inr ⟨_, hr, congrArg (AList.singleton _ _ ∪ ·) hkept⟩
    | commit ht hq => trivial
    | lose ht hq =>
      subst hq
      rcases a with e | r
      · exact .inl ((congrArg Db.rows htells).trans (hrows.trans hkept))
      · cases hnext
    | drop =>
      cases s with
      | done row seen => exact hallows.unfinished.elim
      | dropped =>
        rcases hkept with hsame | ⟨row, hrow, hsame⟩
        · exact .inl (hrows.trans hsame)
        · exact .inr ⟨row, hrow, hrows.trans hsame⟩
      | _ => exact .inl (hrows.trans hkept)
    | _ => exact hrows.trans hkept

/-- What a failed commit leaves. -/
theorem RowsKept.undone {id : TransactionId} (hid : uuidFromBytes id = .ok uuid)
    (hidle : s.Idle) (halign : s.Aligned db i) (h : RowsKept uuid start s db) :
    Undone i id start db := by
  have hsame : db.rows = start.rows → ∀ k, db.rows.lookup k = start.rows.lookup k :=
    fun heq k => by rw [heq]
  cases s with
  | looking | found => exact ⟨fun _ => hsame h _, fun _ => .inl (hsame h _), halign⟩
  | dropped =>
    rcases h with h | ⟨row, hrow, h⟩
    · exact ⟨fun _ => hsame h _, fun _ => .inl (hsame h _), halign⟩
    · have hother : ∀ {k}, k ≠ .transaction uuid → db.rows.lookup k = start.rows.lookup k := by
        intro k hne
        rw [h, lookup_union, lookup_singleton_ne _ hne]
        rfl
      refine ⟨fun path => hother (by simp), fun uuid' => ?_, halign⟩
      by_cases heq : uuid' = uuid
      · subst heq
        refine .inr ⟨hid, row, hrow, ?_⟩
        rw [h, lookup_union, lookup_singleton_self]
        rfl
      · exact .inl (hother (by simpa using heq))
  | inside row seen n => exact hidle.elim
  | marked row seen => exact hidle.elim
  | done row seen => exact hidle.elim

/-- A commit that fails, wherever it does, leaves everything as it was. -/
theorem undone_of_error {id : TransactionId} {e : CoreError} (hidle : db.txns i = none)
    (h : honest.Ends i (commitTransaction project id writes) db (.error e) db') :
    Undone i id db db' := by
  rcases hid : uuidFromBytes id with e' | uuid
  · rw [commitTransaction, hid] at h
    cases h
    exact ⟨fun _ => rfl, fun _ => .inl rfl, hidle⟩
  · have hobeys : (commitTransaction project id writes).Obeys (commitMonitor project uuid writes)
        Committed .looking := commitTransaction_obeys fun u hu => Except.ok.inj (hu.symm.trans hid)
    obtain ⟨s, ⟨halign, hkept⟩, hend⟩ := Machine.Ends.invariant
      (I := fun s d => CommitState.Aligned d i s ∧ RowsKept uuid db s d)
      (fun hallows h hstep => RowsKept.step hallows h hstep) hobeys ⟨hidle, rfl⟩ h
    exact hkept.undone hid hend halign

end Failing

/-! ## A commit that succeeds -/

/-- The statement has not failed. -/
def Succeeds : (q : Call) → q.Answer → Prop
  | .sql _, .error _ => False
  | _, _ => True

theorem succeeds_of_other {q : Call} (h : ∀ s, q ≠ .sql s) (a : q.Answer) : Succeeds q a := by
  cases q with
  | sql s => exact absurd rfl (h s)
  | _ => trivial

/-- The server while no statement fails. -/
def prompt : Machine Call.Answer (Db Key.Row) where
  step i q db a db' := server.step i q db a db' ∧ Succeeds q a

section Succeeding

variable {project : ProjectId} {uuid : Uuid} {writes : List Write} {db db' : Db Key.Row}
  {i : ℕ} {s : CommitState} {R : Type}

/-- A commit that has dropped its transaction does not succeed any more. -/
theorem not_ok_of_dropped {M : Machine Call.Answer (Db Key.Row)} {p : Adapter R} {r : R}
    (hp : p.Obeys (commitMonitor project uuid writes) Committed .dropped)
    (h : M.Ends i p db (.ok r) db') : False := by
  have hkeep : ∀ {s q d a d'}, CommitAllows project uuid writes s q → s = .dropped →
      M.step i q d a d' → s.next q a = .dropped := by
    intro s q d a d' hallows hs hstep
    subst hs
    cases hallows with
    | clock hs => exact CommitState.next_now _ a
    | drop hs => exact CommitState.next_rollback _ a
  obtain ⟨s, rfl, row, seen, hdone⟩ := Machine.Ends.invariant
    (I := fun s _ => s = CommitState.dropped) hkeep hp rfl h
  cases hdone

/-- In a commit that succeeds no statement has failed. -/
theorem prompt_of_ok {p : Adapter R} {r : R}
    (hp : p.Obeys (commitMonitor project uuid writes) Committed s)
    (h : server.Ends i p db (.ok r) db') : prompt.Ends i p db (.ok r) db' := by
  generalize hx : Except.ok r = x at h
  induction h generalizing s with
  | ok r d => exact .ok r d
  | error e d => exact .error e d
  | @call q k a d d' d'' x hstep hrest ih =>
    subst hx
    have hnext := hp.2 a
    cases hstep with
    | @other q a d hother =>
      exact .call ⟨.other hother, succeeds_of_other hother a⟩ (ih hnext rfl)
    | @statement q a d d' hstatement =>
      rcases a with e | r'
      · rw [show (commitMonitor project uuid writes).next s (.sql q) (.error e) = .dropped from
          CommitState.next_error s q e] at hnext
        exact (not_ok_of_dropped hnext hrest).elim
      · exact .call ⟨.statement hstatement, trivial⟩ (ih hnext rfl)

/-- The world of one session. -/
def worldOf (env : Environment) (i : ℕ) (db : Db Key.Row) : World :=
  ⟨env, db.rows, db.txns i, 0, []⟩

/-- Questions to the database. -/
def IsStatement : Call → Prop
  | .sql _ => True
  | _ => False

/-- While no statement fails the session runs as in its world. -/
theorem run_of_prompt (env : Environment) {ε : Type} {p : Prog Call.Answer ε R} {x : Except ε R}
    (hp : p.Only IsStatement) (h : prompt.Ends i p db x db') :
    (worldOf env i db).run p = (x, worldOf env i db') := by
  refine Machine.Ends.run (f := worldOf env i) (fun {q d a d'} hq hstep => ?_) hp h
  obtain ⟨hserver, hsucceeds⟩ := hstep
  cases hserver with
  | other hother =>
    match q, hq with
    | .sql q, _ => exact absurd rfl (hother q)
  | @statement q a d d' hstatement =>
    rcases a with e | r
    · exact hsucceeds.elim
    · obtain ⟨-, hanswer, rfl⟩ := hstatement.of_ok
      refine Prod.ext hanswer ?_
      simp only [answer, execute, worldOf, Db.txns_apply_self]
      rfl

theorem lockFields_only (writes : List Write) :
    (Prog.mapEach lockField writes).Only IsStatement := by
  refine .mapEach fun write _ => ?_
  rw [lockField]
  split_ifs
  · exact (sql_only trivial).bind fun _ => trivial
  · trivial

theorem applyWrites_only (now : Timestamp) (locked : List (Write × Option Fields)) :
    (Prog.mapEach (fun w => applyWrite now w.1 w.2) locked).Only IsStatement :=
  .mapEach fun _ _ => (Prog.Only.ofExcept _).bind fun _ => (sql_only trivial).bind fun _ => trivial

/-- The clock changes nothing. -/
theorem prompt_utcNow {now : Timestamp} (h : prompt.Ends i (utcNow : Adapter Timestamp) db
    (.ok now) db') : db = db' := by
  cases h with
  | call hstep hrest =>
    obtain ⟨hserver, -⟩ := hstep
    cases hserver
    cases hrest
    rfl

/-- The apply loop, row by row: it leaves the documents it does not name, and stamps those
it names. -/
theorem rows_applyWrites {w w' : World} {now : Timestamp} {snapshot : Documents}
    {results : List WriteResult}
    (h : w.run (Prog.mapEach (fun x => applyWrite now x.1 x.2)
      (writes.zip (writes.map (locked snapshot)))) = (.ok results, w')) :
    (∀ path, (∀ write ∈ writes, write.path ≠ path) → w'.documentRow path = w.documentRow path) ∧
      ∀ write ∈ writes, ∀ row, w'.documentRow write.path = some row →
        row.updateTime = now.stored := by
  induction writes generalizing w results with
  | nil =>
    cases h
    exact ⟨fun _ _ => rfl, nofun⟩
  | cons write writes ih =>
    obtain ⟨result, w₁, hturn, h⟩ := run_bind_eq_ok h
    obtain ⟨rest, w₂, hrest, h⟩ := run_bind_eq_ok h
    cases h
    obtain ⟨final, rfl⟩ : ∃ final, w₁ = w.store write.path now final := by
      rcases heffect : write.effect now (snapshot.stored write.path) with e | ⟨final, values⟩
      · exact nomatch (run_applyWrite_error heffect).symm.trans hturn
      · obtain ⟨-, rfl⟩ := Prod.mk.inj ((run_applyWrite_ok heffect).symm.trans hturn)
        exact ⟨final, rfl⟩
    obtain ⟨hothers, htimes⟩ := ih hrest
    refine ⟨fun path hpath => ?_, fun write' hmem row hrow => ?_⟩
    · rw [hothers path (List.forall_mem_cons.mp hpath).2]
      exact documentRow_store_ne now final (hpath write List.mem_cons_self).symm
    · by_cases hlater : ∃ x ∈ writes, x.path = write'.path
      · obtain ⟨x, hx, hpath⟩ := hlater
        exact htimes x hx row (hpath ▸ hrow)
      · -- the last write of the document is the one just stored
        rcases List.mem_cons.mp hmem with rfl | hmem
        · rw [hothers _ fun x hx hpath => hlater ⟨x, hx, hpath⟩] at hrow
          exact updateTime_store hrow
        · exact absurd ⟨write', hmem, rfl⟩ hlater

/-- The mark leaves the documents alone. -/
theorem documentRow_markCommitted {w w' : World} {x : Except CoreError (Option TransactionRow)}
    (h : w.run (sql (markCommitted uuid)) = (x, w')) : w'.documentRow = w.documentRow := by
  rcases hrow : (w.rowsSeen.lookup (.transaction uuid)).filter (fun _ => true) with _ | row
  · obtain ⟨-, rfl⟩ := Prod.mk.inj ((run_update_none hrow).symm.trans h)
    rfl
  · obtain ⟨-, rfl⟩ := Prod.mk.inj ((run_update_some hrow).symm.trans h)
    funext path
    exact lookup_rowsSeen_put_ne (by simp)

/-- What `performWrites` does while no statement fails. -/
theorem performWrites_prompt (env : Environment) {results : List WriteResult}
    (h : prompt.Ends i (performWrites uuid writes) db (.ok results) db') :
    ∃ now values, applyAll now (worldOf env i db).document (worldOf env i db).document writes =
        .ok ((worldOf env i db').document, values) ∧ results = World.results now values ∧
      (∀ path, (∀ write ∈ writes, write.path ≠ path) →
        (worldOf env i db').documentRow path = (worldOf env i db).documentRow path) ∧
      ∀ write ∈ writes, ∀ row, (worldOf env i db').documentRow write.path = some row →
        row.updateTime = now.stored := by
  obtain ⟨locked, d₁, hlock, hclock⟩ := h.bind_ok
  obtain ⟨now, d₂, hnow, hrest⟩ := hclock.bind_ok
  obtain rfl := prompt_utcNow hnow
  obtain ⟨reported, d₃, happly, hmark⟩ := hrest.bind_ok
  obtain ⟨marked, d₄, hmark, hreturn⟩ := hmark.bind_ok
  cases hreturn
  -- the snapshot
  obtain ⟨w₁, hrun, hquiet⟩ := run_lockFields (worldOf env i db) writes
  obtain ⟨hlocked, rfl⟩ := Prod.mk.inj
    (hrun.symm.trans (run_of_prompt env (lockFields_only _) hlock))
  cases hlocked
  -- the loop
  have hloop := run_of_prompt env (applyWrites_only _ _) happly
  obtain ⟨hothers, htimes⟩ := rows_applyWrites hloop
  have hall := run_applyWrites (worldOf env i d₁) now (worldOf env i db).document writes
  rw [hquiet.document_eq] at hall
  -- the mark leaves the documents alone
  have hmarked : (worldOf env i db').documentRow = (worldOf env i d₃).documentRow :=
    documentRow_markCommitted (run_of_prompt env (sql_only trivial) hmark)
  have hdocument : (worldOf env i db').document = (worldOf env i d₃).document := by
    unfold document
    rw [hmarked]
  have hbefore : (worldOf env i d₁).documentRow = (worldOf env i db).documentRow := by
    funext path
    exact congrArg (AList.lookup (Key.document path)) hquiet.rowsSeen_eq
  rw [hmarked, hdocument, ← hbefore]
  rcases happlied : applyAll now (worldOf env i db).document (worldOf env i db).document writes with
    e | ⟨docs, values⟩
  · rw [happlied] at hall
    obtain ⟨w', hrun'⟩ := hall
    exact nomatch hrun'.symm.trans hloop
  · rw [happlied] at hall
    obtain ⟨w', hrun', hdocs, -, -⟩ := hall
    obtain ⟨hresults, rfl⟩ := Prod.mk.inj (hrun'.symm.trans hloop)
    refine ⟨now, values, ?_, (Except.ok.inj hresults).symm, hothers, htimes⟩
    rw [hdocs]
    exact happlied

theorem applyAll_length {now : Timestamp} {snapshot docs docs' : Documents}
    {values : List (List FieldValue)}
    (h : applyAll now snapshot docs writes = .ok (docs', values)) :
    values.length = writes.length := by
  induction writes generalizing docs values with
  | nil =>
    cases h
    rfl
  | cons write writes ih =>
    obtain ⟨final, vs, rest, -, hrest, rfl⟩ := applyAll_cons_ok h
    exact congrArg (· + 1) (ih hrest)

/-- Between transactions the world of a session sees the committed rows. -/
theorem documentRow_worldOf (env : Environment) {rows : AList Key.Row}
    (h : (worldOf env i db).rowsSeen = rows) (path : DocumentPath) :
    (worldOf env i db).documentRow path = rows.lookup (.document path) := by
  rw [documentRow, h]

/-- The database transaction around the checks and the writes. -/
theorem inTransaction_prompt {row : TransactionRow} {results : List WriteResult}
    (h : prompt.Ends i (inTransaction do
      verifyCommit project row.reads writes
      performWrites uuid writes) db (.ok results) db') :
    ∃ now, Applied i now writes results db db' := by
  obtain ⟨⟨⟩, d₁, hbegin, hbody⟩ := h.bind_ok
  obtain ⟨outcome, d₂, hbody, hend⟩ := hbody.bind_ok
  rcases outcome with e | reported
  · cases hend with
    | call hstep hrest => cases hrest
  obtain ⟨⟨⟩, d₃, hcommit, hreturn⟩ := hend.bind_ok
  cases hreturn
  obtain ⟨⟨⟩, d, hverify, hperform⟩ := hbody.of_attempt.bind_ok
  -- what the session sees: the committed rows until the writes, theirs after the `COMMIT`
  obtain ⟨-, hw₁⟩ := Prod.mk.inj
    (run_begin.symm.trans (run_of_prompt .still (sql_only trivial) hbegin))
  have hlooks : World.Quiet (worldOf .still i d₁) (worldOf .still i d) := by
    have hrun := run_of_prompt .still (verifyCommit_only (fun _ _ => trivial) fun _ _ => trivial)
      hverify
    have hquiet := run_looks (verifyCommit_only (fun _ _ => trivial) fun _ _ => trivial :
      (verifyCommit project row.reads writes).Only World.Looks) (worldOf .still i d₁)
    rwa [hrun] at hquiet
  have hbefore : (worldOf .still i d).rowsSeen = db.rows := by
    rw [hlooks.rowsSeen_eq, ← hw₁, rowsSeen_begun]
    rfl
  obtain ⟨-, hw₃⟩ := Prod.mk.inj
    (run_commit.symm.trans (run_of_prompt .still (sql_only trivial) hcommit))
  have hafter : (worldOf .still i d₂).rowsSeen = db'.rows := congrArg rows hw₃
  have hclosed : db'.txns i = none := (congrArg txn hw₃).symm
  have hdocument : ∀ {e e' : Db Key.Row}, (worldOf .still i e).rowsSeen = e'.rows →
      (worldOf .still i e).document = documentsOf e' := by
    intro e e' hrows
    funext path
    rw [document, documentRow_worldOf .still hrows]
    rfl
  obtain ⟨now, values, happly, rfl, hothers, htimes⟩ := performWrites_prompt .still hperform
  rw [hdocument hbefore, hdocument hafter] at happly
  refine ⟨now, ⟨values, happly, rfl⟩, ?_, fun write hmem row hrow => ?_, fun path hpath => ?_,
    hclosed⟩
  · rw [results, List.length_map, applyAll_length happly]
  · exact htimes write hmem row ((documentRow_worldOf .still hafter _).trans hrow)
  · rw [← documentRow_worldOf .still hafter, ← documentRow_worldOf .still hbefore]
    exact hothers path hpath

/-- A commit that succeeds has applied every write. -/
theorem applied_of_ok {id : TransactionId} {results : List WriteResult}
    (h : server.Ends i (commitTransaction project id writes) db (.ok results) db') :
    ∃ now, Applied i now writes results db db' := by
  obtain ⟨uuid, hid⟩ := exists_uuid id
  have hprompt := prompt_of_ok (commitTransaction_obeys hid) h
  obtain ⟨u, d₁, hparse, hselect⟩ := hprompt.bind_ok
  obtain ⟨-, rfl⟩ := hparse.of_ofExcept
  obtain ⟨found, d, hselect, hrest⟩ := hselect.bind_ok
  -- looking the transaction up changes nothing
  obtain ⟨-, hworld⟩ := Prod.mk.inj
    (run_select.symm.trans (run_of_prompt .still (sql_only trivial) hselect))
  have hrows : d.rows = db.rows := (congrArg rows hworld).symm
  rcases hfilter : Option.filter (fun row => decide (TransactionRow.projectId row = project))
    found with _ | row
  · rw [hfilter] at hrest
    cases hrest
  rw [hfilter] at hrest
  dsimp only at hrest
  split_ifs at hrest with hstatus
  · cases hrest
  obtain ⟨now, d', hnow, hrest'⟩ := hrest.bind_ok
  obtain rfl := prompt_utcNow hnow
  split_ifs at hrest' with hexpired
  · cases hrest' with
    | call hstep hend => cases hend
  obtain ⟨now, happlied⟩ := inTransaction_prompt hrest'
  have hdocuments : documentsOf d = documentsOf db := by
    unfold documentsOf
    rw [hrows]
  refine ⟨now, hdocuments ▸ happlied.documents, happlied.listed, happlied.times,
    fun path hpath => ?_, happlied.closed⟩
  rw [happlied.others path hpath, hrows]

end Succeeding

/-- What an outcome of a commit says about the database. -/
def Outcome (i : ℕ) (id : TransactionId) (writes : List Write) (db db' : Db Key.Row) :
    Except CoreError (List WriteResult) → Prop
  | .error _ => Undone i id db db'
  | .ok results => ∃ now, Applied i now writes results db db'

/-- While the other sessions have no transaction open, every call ends as in its world. -/
theorem exists_ends {ε R : Type} {i : ℕ} {p : Prog Call.Answer ε R} {w : World} {db : Db Key.Row}
    (hrows : w.rows = db.rows) (htxn : w.txn = db.txns i)
    (hothers : ∀ j, j ≠ i → db.txns j = none) :
    ∃ db', honest.Ends i p db (w.run p).1 db' ∧ (w.run p).2.rows = db'.rows ∧
      (w.run p).2.txn = db'.txns i := by
  induction p generalizing w db with
  | ok r => exact ⟨db, .ok r db, hrows, htxn⟩
  | error e => exact ⟨db, .error e db, hrows, htxn⟩
  | call q k ih =>
    have hrun : w.run (.call q k) = (answer q w).2.run (k (answer q w).1) := rfl
    rw [hrun]
    by_cases hq : ∃ s, q = .sql s
    · obtain ⟨s, rfl⟩ := hq
      have hstep : server.step i (.sql s) db (exec db.rows (db.txns i) s).1
          (db.apply i (exec db.rows (db.txns i) s).2.1 (exec db.rows (db.txns i) s).2.2) :=
        .statement (.done fun k _ j t hne ht => nomatch (hothers j hne).symm.trans ht)
      have hanswer : answer (.sql s) w = w.execute s := rfl
      rw [hanswer, execute, hrows, htxn]
      obtain ⟨db', hrest, hend⟩ := ih _ (w := { w with
          rows := (exec db.rows (db.txns i) s).2.2 ∪ db.rows
          txn := (exec db.rows (db.txns i) s).2.1 }) rfl (Db.txns_apply_self ..).symm
        fun j hne => (Db.txns_apply_ne db _ _ hne).trans (hothers j hne)
      exact ⟨db', .call ⟨hstep, by cases s <;> trivial⟩ hrest, hend⟩
    · have hother : ∀ s, q ≠ .sql s := fun s hs => hq ⟨s, hs⟩
      have hsame : (answer q w).2.rows = w.rows ∧ (answer q w).2.txn = w.txn := by
        cases q with
        | sql s => exact absurd rfl (hother s)
        | _ => exact ⟨rfl, rfl⟩
      have htells : TellsCommit i db db q (answer q w).1 := by
        cases q with
        | sql s => exact absurd rfl (hother s)
        | _ => trivial
      obtain ⟨db', hrest, hend⟩ := ih (answer q w).1 (hsame.1.trans hrows)
        (hsame.2.trans htxn) hothers
      exact ⟨db', .call ⟨.other hother, htells⟩ hrest, hend⟩

/-- Two open transactions, no documents. -/
def twoOpen : Db Key.Row :=
  ⟨(twoTransactions demo (uuidOf 1) (uuidOf 2)).rows, fun _ => none, []⟩

end Embyr
