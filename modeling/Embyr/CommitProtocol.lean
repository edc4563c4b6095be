import Embyr.World

/-!
# What a commit does, statement by statement

`commit_transaction` against a database that answers as it likes, watched by
`commitMonitor`: it looks its transaction up, opens a database transaction on an active
row, locks documents, stores the writes one by one, marks the transaction committed and
commits. A failed statement leads to `CommitState.dropped`, from where only a rollback
follows.

* `CommitState` — how far a commit has come and what it has seen.
* `Verified` — what the checks of a commit have seen when they all pass.
* `commitTransaction_obeys` — every commit keeps to the protocol, and one that returns
  results has had its database transaction committed.

What holds over all interleavings is proved from the protocol, in the modules after this
one, without looking into the programs again.
-/

namespace Embyr

open Program ReadCommitted

/-- The rows the locking reads of a commit answered, newest first; `none` where no visible
row was found. -/
abbrev Seen : Type := List (DocumentPath × Option DocumentRow)

/-- How far a commit has come: the transaction row it looked up, what it has seen, and the
number of writes it has stored. -/
inductive CommitState where
  | looking
  | found (row : TransactionRow)
  | inside (row : TransactionRow) (seen : Seen) (stored : ℕ)
  | marked (row : TransactionRow) (seen : Seen)
  | done (row : TransactionRow) (seen : Seen)
  | dropped

namespace CommitState

/-- Where an answer leads. -/
def next : CommitState → (q : Call) → q.Answer → CommitState
  | .looking, .sql (.select (.transaction _)), .ok (some row) => .found row
  | .found row, .sql .begin, .ok _ => .inside row [] 0
  | .inside row seen n, .sql (.selectForUpdate (.document path) _), .ok answer =>
    .inside row ((path, answer) :: seen) n
  | .inside row seen n, .sql (.upsert (.document _) _ _), .ok _ => .inside row seen (n + 1)
  | .inside row seen n, .sql (.update (.document _) _ _), .ok _ => .inside row seen (n + 1)
  | .inside row seen _, .sql (.update (.transaction _) _ _), .ok _ => .marked row seen
  | .marked row seen, .sql .commit, .ok _ => .done row seen
  | s, .now, _ => s
  | _, _, _ => .dropped

/-- A failed statement ends the commit. -/
@[simp] theorem next_error (s : CommitState) (q : Stmt Key.Row) (e : Failure) :
    s.next (.sql q) (.error e) = .dropped := by
  cases s <;> cases q <;> first
    | rfl
    | (rename_i k; cases k <;> rfl)
    | (rename_i k _; cases k <;> rfl)
    | (rename_i k _ _; cases k <;> rfl)

@[simp] theorem next_rollback (s : CommitState) (a : (Stmt.rollback : Stmt Key.Row).Answer) :
    s.next (.sql .rollback) a = .dropped := by
  cases s <;> rfl

@[simp] theorem next_now (s : CommitState) (a : Timestamp) : s.next .now a = s := by
  cases s <;> rfl

/-- The states in which the database transaction has not been committed. -/
def Unfinished : CommitState → Prop
  | .done _ _ => False
  | _ => True

/-- The states in which no database transaction is open and none has been committed. -/
def Idle : CommitState → Prop
  | .looking | .found _ | .dropped => True
  | _ => False

/-- The states in which a commit may give up and roll back. -/
def Droppable : CommitState → Prop
  | .inside _ _ _ | .marked _ _ | .dropped => True
  | _ => False

end CommitState

/-- The write removes its document. -/
def Write.deletes : Write → Bool
  | .delete _ _ _ => true
  | .update _ _ _ _ _ | .transform _ _ => false

/-- What the checks of a commit have seen when they all pass. -/
structure Verified (project : ProjectId) (writes : List Write) (reads : StrMap (Option Version))
    (seen : Seen) : Prop where
  updateTime : ∀ write ∈ writes, ∀ t, write.precondition = some (.updateTime t) →
    ∃ row, (write.path, some row) ∈ seen ∧ toDatetime t = .ok row.updateTime
  mustExist : ∀ write ∈ writes, write.precondition = some .mustExist →
    ∃ row, (write.path, some row) ∈ seen
  mustNotExist : ∀ write ∈ writes, write.precondition = some .mustNotExist →
    (write.path, none) ∈ seen
  version : ∀ write ∈ writes, ∀ v, write.version = some v →
    ∃ row, ({ write.path with projectId := project }, some row) ∈ seen ∧ row.version = v
  read : ∀ entry ∈ reads.toList, ∀ collectionPath documentId,
    Text.rsplitOnce '/' entry.1 = some (collectionPath, documentId) →
      ∃ row, (⟨project, collectionPath, documentId⟩, row) ∈ seen ∧
        row.map DocumentRow.version = entry.2

/-- What a commit may ask in each state. -/
inductive CommitAllows (project : ProjectId) (uuid : Uuid) (writes : List Write) :
    CommitState → Call → Prop
  | look : CommitAllows project uuid writes .looking (.sql (.select (.transaction uuid)))
  | clock {s : CommitState} (h : s.Unfinished) : CommitAllows project uuid writes s .now
  | expire (row : TransactionRow) :
      CommitAllows project uuid writes (.found row) (.sql (markExpired uuid))
  | begin {row : TransactionRow} (hproject : row.projectId = project)
      (hactive : row.status = .active) :
      CommitAllows project uuid writes (.found row) (.sql .begin)
  | lock {row : TransactionRow} {seen : Seen} (path : DocumentPath) :
      CommitAllows project uuid writes (.inside row seen 0)
        (.sql (.selectForUpdate (.document path) DocumentRow.visible))
  | store {row : TransactionRow} {seen : Seen} {n : ℕ} {write : Write} {final : Option Fields}
      (hverified : Verified project writes row.reads seen)
      (hwrite : writes[n]? = some write) (hfinal : final.isNone = write.deletes)
      (now : Timestamp) :
      CommitAllows project uuid writes (.inside row seen n)
        (.sql (storeStatement write.path now final))
  | mark {row : TransactionRow} {seen : Seen}
      (hverified : Verified project writes row.reads seen) :
      CommitAllows project uuid writes (.inside row seen writes.length)
        (.sql (markCommitted uuid))
  | commit {row : TransactionRow} {seen : Seen} :
      CommitAllows project uuid writes (.marked row seen) (.sql .commit)
  | drop {s : CommitState} (h : s.Droppable) : CommitAllows project uuid writes s (.sql .rollback)

variable {s : CommitState}

/-- After its `COMMIT` a commit asks nothing. -/
theorem CommitAllows.unfinished {project : ProjectId} {uuid : Uuid} {writes : List Write} {q : Call}
    (h : CommitAllows project uuid writes s q) : s.Unfinished := by
  cases h with
  | clock hs => exact hs
  | drop hs =>
    cases s with
    | done row seen => exact hs
    | _ => trivial
  | _ => trivial

/-- Only statements lead to another state. -/
theorem CommitAllows.next_other {project : ProjectId} {uuid : Uuid} {writes : List Write} {q : Call}
    (h : CommitAllows project uuid writes s q) (hother : ∀ st, q ≠ .sql st) (a : q.Answer) :
    s.next q a = s := by
  cases h with
  | clock => exact CommitState.next_now s a
  | _ => exact absurd rfl (hother _)

/-- The protocol of a commit. -/
def commitMonitor (project : ProjectId) (uuid : Uuid) (writes : List Write) :
    Monitor Call.Answer CommitState :=
  ⟨CommitAllows project uuid writes, CommitState.next⟩

/-- A statement under a monitor. -/
theorem sql_obeys {σ : Type} {M : Monitor Call.Answer σ} {q : Stmt Key.Row}
    {post : σ → Except CoreError q.Result → Prop} {s : σ} (hallows : M.allows s (.sql q))
    (hok : ∀ r, post (M.next s (.sql q) (.ok r)) (.ok r))
    (herror : ∀ e, post (M.next s (.sql q) (.error e)) (.error (.backendUnavailable e.text))) :
    (sql q).Obeys M post s := by
  refine ⟨hallows, fun a => ?_⟩
  rcases a with e | r
  · exact herror e
  · exact hok r

variable {seen : Seen}

section Protocol

variable {project : ProjectId} {uuid : Uuid} {writes : List Write} {row : TransactionRow}

/-! ## Locking -/

/-- A part of a commit that only locks: on success it has seen more, and `P` holds of its
result and of all that has been seen. -/
def Locking {R : Type} (row : TransactionRow) (seen : Seen) (P : R → Seen → Prop) :
    CommitState → Except CoreError R → Prop
  | s, .ok r => ∃ seen', s = .inside row seen' 0 ∧ seen ⊆ seen' ∧ P r seen'
  | s, .error _ => s.Droppable

variable {R : Type}

theorem Locking.bind {R' : Type} {p : Adapter R} {f : R → Adapter R'} {P : R → Seen → Prop}
    {P' : R' → Seen → Prop}
    (hp : p.Obeys (commitMonitor project uuid writes) (Locking row seen P) (.inside row seen 0))
    (hf : ∀ r seen', seen ⊆ seen' → P r seen' →
      (f r).Obeys (commitMonitor project uuid writes) (Locking row seen' P')
        (.inside row seen' 0)) :
    (p >>= f).Obeys (commitMonitor project uuid writes) (Locking row seen P')
      (.inside row seen 0) := by
  refine hp.bind (fun s r hs => ?_) fun s e hs => hs
  obtain ⟨seen', rfl, hsub, hP⟩ := hs
  refine (hf r seen' hsub hP).mono fun s' x hx => ?_
  rcases x with e | r'
  · exact hx
  · obtain ⟨seen'', rfl, hsub', hP'⟩ := hx
    exact ⟨seen'', rfl, List.Subset.trans hsub hsub', hP'⟩

theorem Locking.pure {r : R} {P : R → Seen → Prop} (h : P r seen) :
    (Prog.ok r : Adapter R).Obeys (commitMonitor project uuid writes) (Locking row seen P)
      (.inside row seen 0) :=
  ⟨seen, rfl, fun _ hx => hx, h⟩

theorem lockDocument_locking (path : DocumentPath) (seen : Seen) :
    (lockDocument path).Obeys (commitMonitor project uuid writes)
      (Locking row seen fun r seen' => (path, r) ∈ seen') (.inside row seen 0) :=
  sql_obeys (.lock path)
    (fun r => ⟨(path, r) :: seen, rfl, List.subset_cons_self _ _, List.mem_cons_self ..⟩)
    fun _ => trivial

/-- One check: a locked row that passes. -/
theorem check_locking (path : DocumentPath) (check : Option DocumentRow → Bool) (seen : Seen) :
    (lockDocument path >>= fun r => abortUnless (check r)).Obeys
      (commitMonitor project uuid writes)
      (Locking row seen fun _ seen' => ∃ r, (path, r) ∈ seen' ∧ check r = true)
      (.inside row seen 0) := by
  refine Locking.bind (lockDocument_locking path seen) fun r seen' _ hmem => ?_
  rcases hcheck : check r with _ | _
  · exact trivial
  · exact Locking.pure ⟨r, hmem, hcheck⟩

/-- A loop of checks: each element has passed its own, and goes on to have passed it. -/
theorem forEach_locking {α : Type} {f : α → Adapter Unit} {fact : α → Seen → Prop}
    (hmono : ∀ {x seen seen'}, seen ⊆ seen' → fact x seen → fact x seen')
    (hturn : ∀ x seen, (f x).Obeys (commitMonitor project uuid writes)
      (Locking row seen fun _ seen' => fact x seen') (.inside row seen 0))
    (xs : List α) (seen : Seen) :
    (Prog.forEach f xs).Obeys (commitMonitor project uuid writes)
      (Locking row seen fun _ seen' => ∀ x ∈ xs, fact x seen') (.inside row seen 0) := by
  induction xs generalizing seen with
  | nil => exact Locking.pure nofun
  | cons x xs ih =>
    refine Locking.bind (hturn x seen) fun _ seen' _ hfact => ?_
    refine (ih seen').mono fun s r hs => ?_
    rcases r with e | r
    · exact hs
    · obtain ⟨seen'', rfl, hsub, hrest⟩ := hs
      refine ⟨seen'', rfl, hsub, fun y hy => ?_⟩
      rcases List.mem_cons.mp hy with rfl | hy
      · exact hmono hsub hfact
      · exact hrest y hy

/-! ## The checks -/

theorem verifyUpdateTime_locking (write : Write) (seen : Seen) :
    (verifyUpdateTime write).Obeys (commitMonitor project uuid writes)
      (Locking row seen fun _ seen' => ∀ t, write.precondition = some (.updateTime t) →
        ∃ r, (write.path, some r) ∈ seen' ∧ toDatetime t = .ok r.updateTime)
      (.inside row seen 0) := by
  rcases hpre : write.precondition with _ | _ | _ | t <;> simp only [verifyUpdateTime, hpre]
  · exact Locking.pure (by simp)
  · exact Locking.pure (by simp)
  · exact Locking.pure (by simp)
  · rcases hexpected : toDatetime t with e | expected
    · exact trivial
    · refine (check_locking write.path _ seen).mono fun s r hs => ?_
      rcases r with e | r
      · exact hs
      · obtain ⟨seen', rfl, hsub, found, hmem, hcheck⟩ := hs
        obtain ⟨r, rfl, htime⟩ := (Option.any_eq_true ..).mp hcheck
        refine ⟨seen', rfl, hsub, fun t' ht' => ⟨r, hmem, ?_⟩⟩
        obtain rfl := WritePrecondition.updateTime.inj (Option.some.inj ht')
        rw [hexpected, of_decide_eq_true htime]

theorem verifyExistence_locking (write : Write) (seen : Seen) :
    (verifyExistence write).Obeys (commitMonitor project uuid writes)
      (Locking row seen fun _ seen' =>
        (write.precondition = some .mustExist → ∃ r, (write.path, some r) ∈ seen') ∧
          (write.precondition = some .mustNotExist → (write.path, none) ∈ seen'))
      (.inside row seen 0) := by
  rcases hpre : write.precondition with _ | _ | _ | t <;> simp only [verifyExistence, hpre]
  · exact Locking.pure (by simp)
  · refine (check_locking write.path _ seen).mono fun s r hs => ?_
    rcases r with e | r
    · exact hs
    · obtain ⟨seen', rfl, hsub, found, hmem, hcheck⟩ := hs
      obtain ⟨r, rfl⟩ := Option.isSome_iff_exists.mp hcheck
      exact ⟨seen', rfl, hsub, fun _ => ⟨r, hmem⟩, by simp⟩
  · refine (check_locking write.path _ seen).mono fun s r hs => ?_
    rcases r with e | r
    · exact hs
    · obtain ⟨seen', rfl, hsub, found, hmem, hcheck⟩ := hs
      obtain rfl := Option.isNone_iff_eq_none.mp hcheck
      exact ⟨seen', rfl, hsub, by simp, fun _ => hmem⟩
  · exact Locking.pure (by simp)

theorem verifyVersion_locking (write : Write) (seen : Seen) :
    (verifyVersion project write).Obeys (commitMonitor project uuid writes)
      (Locking row seen fun _ seen' => ∀ v, write.version = some v →
        ∃ r, ({ write.path with projectId := project }, some r) ∈ seen' ∧ r.version = v)
      (.inside row seen 0) := by
  rcases hversion : write.version with _ | v <;> simp only [verifyVersion, hversion]
  · exact Locking.pure (by simp)
  · refine (check_locking _ _ seen).mono fun s r hs => ?_
    rcases r with e | r
    · exact hs
    · obtain ⟨seen', rfl, hsub, found, hmem, hcheck⟩ := hs
      obtain ⟨r, rfl, heq⟩ := (Option.any_eq_true ..).mp hcheck
      refine ⟨seen', rfl, hsub, fun v' hv' => ⟨r, hmem, ?_⟩⟩
      cases hv'
      exact of_decide_eq_true heq

theorem verifyRead_locking (entry : String × Option Version) (seen : Seen) :
    (verifyRead project entry).Obeys (commitMonitor project uuid writes)
      (Locking row seen fun _ seen' => ∀ collectionPath documentId,
        Text.rsplitOnce '/' entry.1 = some (collectionPath, documentId) →
          ∃ r, (⟨project, collectionPath, documentId⟩, r) ∈ seen' ∧
            r.map DocumentRow.version = entry.2)
      (.inside row seen 0) := by
  rcases hsplit : Text.rsplitOnce '/' entry.1 with _ | ⟨collectionPath, documentId⟩ <;>
    simp only [verifyRead, hsplit]
  · exact Locking.pure (by simp)
  · refine (check_locking _ _ seen).mono fun s r hs => ?_
    rcases r with e | r
    · exact hs
    · obtain ⟨seen', rfl, hsub, found, hmem, hcheck⟩ := hs
      refine ⟨seen', rfl, hsub, fun c d h => ⟨found, ?_, of_decide_eq_true hcheck⟩⟩
      cases h
      exact hmem

/-- The checks pass only on rows that satisfy them all. -/
theorem verifyCommit_locking (reads : StrMap (Option Version)) (seen : Seen) :
    (verifyCommit project reads writes).Obeys (commitMonitor project uuid writes)
      (Locking row seen fun _ seen' => Verified project writes reads seen')
      (.inside row seen 0) := by
  refine Locking.bind (forEach_locking (fun hsub h t ht => ?_) verifyUpdateTime_locking
    writes seen) fun _ seen₁ _ htime => ?_
  · obtain ⟨r, hmem, hr⟩ := h t ht
    exact ⟨r, hsub hmem, hr⟩
  refine Locking.bind (forEach_locking (fun hsub h => ?_) verifyExistence_locking
    writes seen₁) fun _ seen₂ hsub₂ hexists => ?_
  · exact ⟨fun hpre => (h.1 hpre).imp fun r hmem => hsub hmem, fun hpre => hsub (h.2 hpre)⟩
  refine Locking.bind (forEach_locking (fun hsub h v hv => ?_) verifyVersion_locking
    writes seen₂) fun _ seen₃ hsub₃ hversion => ?_
  · obtain ⟨r, hmem, hr⟩ := h v hv
    exact ⟨r, hsub hmem, hr⟩
  refine (forEach_locking (fun hsub h c d hsplit => ?_) verifyRead_locking reads.toList
    seen₃).mono fun s r hs => ?_
  · obtain ⟨r, hmem, hr⟩ := h c d hsplit
    exact ⟨r, hsub hmem, hr⟩
  rcases r with e | r
  · exact hs
  · obtain ⟨seen₄, rfl, hsub₄, hread⟩ := hs
    have hsub := List.Subset.trans hsub₃ hsub₄
    refine ⟨seen₄, rfl, hsub₄, fun write hwrite t ht => ?_, fun write hwrite hpre => ?_,
      fun write hwrite hpre => ?_, fun write hwrite v hv => ?_, hread⟩
    · obtain ⟨r, hmem, hr⟩ := htime write hwrite t ht
      exact ⟨r, hsub (hsub₂ hmem), hr⟩
    · obtain ⟨r, hmem⟩ := (hexists write hwrite).1 hpre
      exact ⟨r, hsub hmem⟩
    · exact hsub ((hexists write hwrite).2 hpre)
    · obtain ⟨r, hmem, hr⟩ := hversion write hwrite v hv
      exact ⟨r, hsub₄ hmem, hr⟩

/-! ## The writes -/

theorem lockField_locking (write : Write) (seen : Seen) :
    (lockField write).Obeys (commitMonitor project uuid writes)
      (Locking row seen fun _ _ => True) (.inside row seen 0) := by
  rw [lockField]
  split_ifs with hreads
  · exact Locking.bind (lockDocument_locking write.path seen) fun r seen' _ _ =>
      Locking.pure trivial
  · exact Locking.pure trivial

theorem lockFields_locking (xs : List Write) (seen : Seen) :
    (Prog.mapEach lockField xs).Obeys (commitMonitor project uuid writes)
      (Locking row seen fun ys _ => ys.length = xs.length) (.inside row seen 0) := by
  induction xs generalizing seen with
  | nil => exact Locking.pure rfl
  | cons write xs ih =>
    refine Locking.bind (lockField_locking write seen) fun y seen₁ _ _ =>
      Locking.bind (ih seen₁) fun ys seen₂ _ hlength => Locking.pure ?_
    exact congrArg (· + 1) hlength

theorem Verified.mono {reads : StrMap (Option Version)} {seen' : Seen}
    (h : Verified project writes reads seen) (hsub : seen ⊆ seen') :
    Verified project writes reads seen' where
  updateTime write hwrite t ht :=
    (h.updateTime write hwrite t ht).imp fun _ hr => ⟨hsub hr.1, hr.2⟩
  mustExist write hwrite hpre := (h.mustExist write hwrite hpre).imp fun _ hr => hsub hr
  mustNotExist write hwrite hpre := hsub (h.mustNotExist write hwrite hpre)
  version write hwrite v hv := (h.version write hwrite v hv).imp fun _ hr => ⟨hsub hr.1, hr.2⟩
  read entry hentry c d hsplit :=
    (h.read entry hentry c d hsplit).imp fun _ hr => ⟨hsub hr.1, hr.2⟩

/-- A delete leaves nothing behind, and only a delete does. -/
theorem effect_isNone {now : Timestamp} {stored : Fields} {write : Write}
    {final : Option Fields} {values : List FieldValue}
    (h : write.effect now stored = .ok (final, values)) : final.isNone = write.deletes := by
  cases write with
  | update path fields version precondition transforms =>
    obtain ⟨r, -, hr⟩ := map_eq_ok h
    cases hr
    rfl
  | delete path version precondition =>
    cases h
    rfl
  | transform path transforms =>
    obtain ⟨r, -, hr⟩ := map_eq_ok h
    cases hr
    rfl

/-- A stored write is counted. -/
theorem next_storeStatement (path : DocumentPath) (now : Timestamp) (final : Option Fields)
    (r : (storeStatement path now final).Result) (seen : Seen) (n : ℕ) :
    CommitState.next (.inside row seen n) (.sql (storeStatement path now final)) (.ok r) =
      .inside row seen (n + 1) := by
  cases final <;> rfl

/-- A part of a commit that leads to a state in `target`, unless it fails. -/
def Until {R : Type} (target : CommitState → Prop) : CommitState → Except CoreError R → Prop
  | s, .ok _ => target s
  | s, .error _ => s.Droppable

theorem Until.bind {R' : Type} {p : Adapter R} {f : R → Adapter R'}
    {mid target : CommitState → Prop}
    (hp : p.Obeys (commitMonitor project uuid writes) (Until mid) s)
    (hf : ∀ r s', mid s' → (f r).Obeys (commitMonitor project uuid writes) (Until target) s') :
    (p >>= f).Obeys (commitMonitor project uuid writes) (Until target) s :=
  .bind hp (fun s' r hs => hf r s' hs) fun _ _ hs => hs

theorem Until.sql {q : Stmt Key.Row} {target : CommitState → Prop}
    (hallows : CommitAllows project uuid writes s (.sql q))
    (hok : ∀ r, target (s.next (.sql q) (.ok r)))
    (herror : ∀ e, (s.next (.sql q) (.error e)).Droppable) :
    (sql q).Obeys (commitMonitor project uuid writes) (Until target) s :=
  sql_obeys hallows hok herror

/-- The apply loop stores the writes that are left, in order. -/
theorem applyWrites_obeys (hverified : Verified project writes row.reads seen) (now : Timestamp)
    (pairs : List (Write × Option Fields)) {n : ℕ} (hn : n ≤ writes.length)
    (hpairs : writes.drop n = pairs.map Prod.fst) :
    (Prog.mapEach (fun w => applyWrite now w.1 w.2) pairs).Obeys
      (commitMonitor project uuid writes) (Until (· = .inside row seen writes.length))
      (.inside row seen n) := by
  induction pairs generalizing n with
  | nil =>
    obtain rfl : n = writes.length := le_antisymm hn (List.drop_eq_nil_iff.mp hpairs)
    rfl
  | cons pair pairs ih =>
    have hlt : n < writes.length := by
      by_contra hge
      rw [List.drop_eq_nil_iff.mpr (Nat.le_of_not_lt hge)] at hpairs
      cases hpairs
    rw [List.drop_eq_getElem_cons hlt] at hpairs
    obtain ⟨hwrite, hrest⟩ := List.cons.inj hpairs
    have hget : writes[n]? = some pair.1 := by rw [List.getElem?_eq_getElem hlt, hwrite]
    have hturn : (applyWrite now pair.1 pair.2).Obeys (commitMonitor project uuid writes)
        (Until (· = .inside row seen (n + 1))) (.inside row seen n) := by
      rw [applyWrite]
      rcases heffect : pair.1.effect now (pair.2.getD ∅) with e | ⟨final, values⟩
      · exact trivial
      · have hstatement : (sql (storeStatement pair.1.path now final)).Obeys
            (commitMonitor project uuid writes) (Until (· = .inside row seen (n + 1)))
            (.inside row seen n) :=
          Until.sql (.store hverified hget (effect_isNone heffect) now)
            (fun r => next_storeStatement pair.1.path now final r seen n) fun _ => by
              cases final <;> trivial
        exact hstatement.bind (fun s r hs => hs) fun s e hs => hs
    refine Until.bind hturn fun result s hs => ?_
    subst hs
    exact Until.bind (ih hlt hrest) fun results s hs => hs

/-- The writes of a commit, from the snapshot to the mark. -/
theorem performWrites_obeys (hverified : Verified project writes row.reads seen) :
    (performWrites uuid writes).Obeys (commitMonitor project uuid writes)
      (Until fun s => ∃ seen', s = .marked row seen') (.inside row seen 0) := by
  refine (lockFields_locking writes seen).bind (fun s locked hs => ?_) fun s e hs => hs
  obtain ⟨seen', rfl, hsub, hlength⟩ := hs
  have hverified' := hverified.mono hsub
  refine .ask (.clock trivial) fun now => ?_
  have hpairs : writes.drop 0 = (writes.zip locked).map Prod.fst :=
    (List.map_fst_zip hlength.ge).symm
  refine Until.bind (applyWrites_obeys hverified' now _ (Nat.zero_le _) hpairs)
    fun results s hs => ?_
  subst hs
  exact Until.bind (Until.sql (.mark hverified') (fun _ => ⟨seen', rfl⟩) fun _ => trivial)
    fun r s hs => hs

/-! ## The commit -/

/-- A commit that answers with results has reached the end of the protocol, and one that
fails has no database transaction any more. -/
def Committed {R : Type} : CommitState → Except CoreError R → Prop
  | s, .ok _ => ∃ row seen, s = .done row seen
  | s, .error _ => s.Idle

/-- The database transaction around a body that keeps to the protocol. -/
theorem inTransaction_obeys {body : Adapter R} (hproject : row.projectId = project)
    (hactive : row.status = .active)
    (hbody : body.Obeys (commitMonitor project uuid writes)
      (Until fun s => ∃ seen, s = .marked row seen) (.inside row [] 0)) :
    (inTransaction body).Obeys (commitMonitor project uuid writes) Committed (.found row) := by
  refine ⟨.begin hproject hactive, fun answer => ?_⟩
  rcases answer with e | _
  · exact trivial
  have hattempt : (body.attempt : Adapter (Except CoreError R)).Obeys
      (commitMonitor project uuid writes) (fun s r => ∃ x, r = .ok x ∧
        Until (fun s => ∃ seen, s = .marked row seen) s x) (.inside row [] 0) :=
    Prog.obeys_attempt.mpr (hbody.mono fun s x hx => ⟨x, rfl, hx⟩)
  refine hattempt.bind (fun s x hs => ?_) fun s e ⟨x, hx, _⟩ => nomatch hx
  obtain ⟨x', hx, hs⟩ := hs
  cases hx
  rcases x with e | r
  · refine ⟨.drop hs, fun _ => ?_⟩
    rw [show (commitMonitor project uuid writes).next s (.sql .rollback) _ = .dropped from
      s.next_rollback _]
    trivial
  · obtain ⟨seen, rfl⟩ := hs
    refine ⟨.commit, fun answer => ?_⟩
    rcases answer with e | _
    · exact trivial
    · exact ⟨row, seen, rfl⟩

/-- The transaction a call names, if it names one. -/
theorem exists_uuid (id : TransactionId) : ∃ uuid, ∀ u, uuidFromBytes id = .ok u → u = uuid := by
  rcases hparse : uuidFromBytes id with e | u
  · exact ⟨uuidOf 0, nofun⟩
  · exact ⟨u, fun u' hu' => (Except.ok.inj hu').symm⟩

/-- Every commit keeps to the protocol. -/
theorem commitTransaction_obeys {id : TransactionId}
    (hid : ∀ u, uuidFromBytes id = .ok u → u = uuid) :
    (commitTransaction project id writes).Obeys (commitMonitor project uuid writes) Committed
      .looking := by
  rw [commitTransaction]
  rcases hparse : uuidFromBytes id with e | u
  · exact trivial
  obtain rfl := hid u hparse
  have hlook : (sql (.select (.transaction u))).Obeys (commitMonitor project u writes)
      (fun s r => s = (r.toOption.join.elim .dropped .found)) .looking := by
    refine sql_obeys .look (fun r => ?_) fun e => rfl
    cases r <;> rfl
  refine hlook.bind (fun s found hs => ?_) fun s e hs => hs ▸ trivial
  obtain rfl : s = found.elim .dropped .found := hs
  rcases hfilter : Option.filter (fun row => decide (TransactionRow.projectId row = project))
    found with _ | row
  · cases found <;> exact trivial
  obtain ⟨rfl, hproject⟩ := Option.filter_eq_some_iff.mp hfilter
  dsimp only
  split_ifs with hstatus
  · exact trivial
  refine .ask (.clock trivial) fun now => ?_
  split_ifs with hexpired
  · exact ⟨.expire row, fun _ => trivial⟩
  · refine inTransaction_obeys (of_decide_eq_true hproject) (not_not.mp hstatus) ?_
    refine (verifyCommit_locking row.reads []).bind (fun s _ hs => ?_) fun s e hs => hs
    obtain ⟨seen, rfl, -, hverified⟩ := hs
    exact performWrites_obeys hverified

end Protocol

/-! ## What the statements of a commit do -/

/-- Readers see the document. -/
def Present (path : DocumentPath) (db : Db Key.Row) : Prop :=
  ∃ row, db.rows.lookup (.document path) = some row ∧ DocumentRow.visible row = true

section Moves

variable {project : ProjectId} {uuid : Uuid} {writes : List Write} {s s' : CommitState}
  {db db' : Db Key.Row} {i : ℕ} {q : Stmt Key.Row} {a : q.Answer}
  {txn : Option (Txn Key.Row)} {batch : AList Key.Row}

/-- The database transaction is open exactly from `begin` to `commit`. -/
def CommitState.Aligned (db : Db Key.Row) (i : ℕ) : CommitState → Prop
  | .inside _ _ _ | .marked _ _ => ∃ t, db.txns i = some t
  | .looking | .found _ | .done _ _ | .dropped => db.txns i = none

/-- All a statement `q` of a commit can do: where the commit goes, the database
transaction after it, and the batch that reaches the store. -/
inductive CommitMove (project : ProjectId) (uuid : Uuid) (writes : List Write)
    (db : Db Key.Row) (i : ℕ) (q : Stmt Key.Row) :
    CommitState → CommitState → Option (Txn Key.Row) → AList Key.Row → Prop
  | look {row : TransactionRow} (hrow : db.rows.lookup (.transaction uuid) = some row) :
      CommitMove project uuid writes db i q .looking (.found row) none ∅
  | expire {row r : TransactionRow} (hr : db.rows.lookup (.transaction uuid) = some r) :
      CommitMove project uuid writes db i q (.found row) .dropped none
        (AList.singleton (.transaction uuid)
          (⟨r.projectId, .expired, r.startedAt, r.reads⟩ : TransactionRow))
  | begin {row : TransactionRow} (hproject : row.projectId = project)
      (hactive : row.status = .active) :
      CommitMove project uuid writes db i q (.found row) (.inside row [] 0) (some .empty) ∅
  | lock {row : TransactionRow} {seen : Seen} {t : Txn Key.Row} {path : DocumentPath}
      {r : DocumentRow} (ht : db.txns i = some t)
      (hr : ((view db.rows (some t)).lookup (.document path)).filter DocumentRow.visible = some r) :
      CommitMove project uuid writes db i q (.inside row seen 0)
        (.inside row ((path, some r) :: seen) 0) (some (t.lock (.document path))) ∅
  | miss {row : TransactionRow} {seen : Seen} {t : Txn Key.Row} {path : DocumentPath}
      (ht : db.txns i = some t)
      (hq : q = .selectForUpdate (.document path) DocumentRow.visible)
      (hr : ((view db.rows (some t)).lookup (.document path)).filter DocumentRow.visible = none) :
      CommitMove project uuid writes db i q (.inside row seen 0)
        (.inside row ((path, none) :: seen) 0) (some t) ∅
  | store {row : TransactionRow} {seen : Seen} {n : ℕ} {t : Txn Key.Row} {write : Write}
      {final : Option Fields} {now : Timestamp} {v : DocumentRow} (ht : db.txns i = some t)
      (hwrite : writes[n]? = some write) (hfinal : final.isNone = write.deletes)
      (hq : q = storeStatement write.path now final) (hv : v.visible = !write.deletes) :
      CommitMove project uuid writes db i q (.inside row seen n) (.inside row seen (n + 1))
        (some (t.write (.document write.path) v)) ∅
  | skip {row : TransactionRow} {seen : Seen} {n : ℕ} {t : Txn Key.Row} {write : Write}
      (ht : db.txns i = some t) (hwrite : writes[n]? = some write)
      (hdeletes : write.deletes = true) :
      CommitMove project uuid writes db i q (.inside row seen n) (.inside row seen (n + 1))
        (some t) ∅
  | mark {row : TransactionRow} {seen : Seen} {t : Txn Key.Row} {r : TransactionRow}
      (ht : db.txns i = some t) (hverified : Verified project writes row.reads seen)
      (hq : q = markCommitted uuid)
      (hr : (view db.rows (some t)).lookup (.transaction uuid) = some r) :
      CommitMove project uuid writes db i q (.inside row seen writes.length) (.marked row seen)
        (some (t.write (.transaction uuid)
          (⟨r.projectId, .committed, r.startedAt, r.reads⟩ : TransactionRow))) ∅
  | markMissing {row : TransactionRow} {seen : Seen} {t : Txn Key.Row}
      (ht : db.txns i = some t) (hverified : Verified project writes row.reads seen)
      (hq : q = markCommitted uuid)
      (hr : (view db.rows (some t)).lookup (.transaction uuid) = none) :
      CommitMove project uuid writes db i q (.inside row seen writes.length) (.marked row seen)
        (some t) ∅
  | commit {row : TransactionRow} {seen : Seen} {t : Txn Key.Row} (ht : db.txns i = some t)
      (hq : q = .commit) :
      CommitMove project uuid writes db i q (.marked row seen) (.done row seen) none t.pending
  /-- the commit took effect, its answer got lost -/
  | lose {row : TransactionRow} {seen : Seen} {t : Txn Key.Row} (ht : db.txns i = some t)
      (hq : q = .commit) :
      CommitMove project uuid writes db i q (.marked row seen) .dropped none t.pending
  | drop {s : CommitState} : CommitMove project uuid writes db i q s .dropped none ∅

theorem CommitMove.aligned (h : CommitMove project uuid writes db i q s s' txn batch) :
    s'.Aligned (db.apply i txn batch) i := by
  cases h with
  | begin | lock | miss | store | skip | mark | markMissing => exact ⟨_, Db.txns_apply_self ..⟩
  | _ => exact Db.txns_apply_self ..

/-- Only a marked transaction gets done. -/
theorem CommitMove.marked_of_done {row : TransactionRow}
    (h : CommitMove project uuid writes db i q s (.done row seen) txn batch) :
    s = .marked row seen := by
  cases h
  rfl

/-- An upsert leaves a visible row. -/
theorem visible_upserted (old : Option DocumentRow) (fields : Fields) (now : Timestamp) :
    (old.elim (DocumentRow.fresh fields now) (DocumentRow.overwrite fields now)).visible = true := by
  cases old <;> rfl

/-- A statement that is done makes one of these moves. -/
theorem CommitAllows.move (h : CommitAllows project uuid writes s (.sql q))
    (halign : s.Aligned db i) :
    CommitMove project uuid writes db i q s (s.next (.sql q) (exec db.rows (db.txns i) q).1)
      (exec db.rows (db.txns i) q).2.1 (exec db.rows (db.txns i) q).2.2 := by
  cases h with
  | look =>
    rw [show db.txns i = none from halign]
    rcases hrow : (view db.rows none).lookup (.transaction uuid) with _ | row
    · simp only [exec, hrow]
      exact .drop
    · simp only [exec, hrow]
      exact .look ((lookup_view_none ..).symm.trans hrow)
  | expire row =>
    rw [show db.txns i = none from halign]
    rcases hv : ((view db.rows none).lookup (.transaction uuid)).filter (fun _ => true) with _ | v
    · rw [markExpired, exec_update_none hv]
      exact .drop
    · rw [markExpired, exec_update_some hv]
      have hrow := (Option.filter_eq_some_iff.mp hv).1
      exact .expire ((lookup_view_none ..).symm.trans hrow)
  | begin hproject hactive => exact .begin hproject hactive
  | lock path =>
    obtain ⟨t, ht⟩ := halign
    rw [ht]
    rcases hv : ((view db.rows (some t)).lookup (.document path)).filter
      DocumentRow.visible with _ | v
    · rw [exec_selectForUpdate_none hv]
      exact .miss ht rfl hv
    · rw [exec_selectForUpdate_some hv]
      exact .lock ht hv
  | @store row seen n write final hverified hwrite hfinal now =>
    obtain ⟨t, ht⟩ := halign
    rw [ht]
    cases final with
    | none =>
      have hdeletes : write.deletes = true := hfinal.symm
      rcases hv : ((view db.rows (some t)).lookup (.document write.path)).filter
        (fun _ => true) with _ | v
      · rw [storeStatement, exec_update_none hv]
        exact .skip ht hwrite hdeletes
      · rw [storeStatement, exec_update_some hv]
        exact .store ht hwrite hfinal rfl (by rw [hdeletes]; rfl)
    | some fields =>
      have hkeeps : write.deletes = false := hfinal.symm
      refine .store ht hwrite hfinal rfl ?_
      rw [hkeeps]
      exact visible_upserted _ fields now.stored
  | mark hverified =>
    obtain ⟨t, ht⟩ := halign
    rw [ht]
    rcases hv : (view db.rows (some t)).lookup (.transaction uuid) with _ | v
    · rw [markCommitted, exec_update_none (by rw [hv]; rfl)]
      exact .markMissing ht hverified rfl hv
    · rw [markCommitted, exec_update_some (v := v) (by rw [hv]; rfl)]
      exact .mark ht hverified rfl hv
  | commit =>
    obtain ⟨t, ht⟩ := halign
    rw [ht]
    exact .commit ht rfl
  | drop h =>
    rw [CommitState.next_rollback]
    exact .drop

/-- So does one that fails, whether or not it took effect. -/
theorem CommitAllows.moves (h : CommitAllows project uuid writes s (.sql q))
    (halign : s.Aligned db i) (hstep : db.Step i q a db') :
    ∃ txn batch, db' = db.apply i txn batch ∧
      CommitMove project uuid writes db i q s (s.next (.sql q) a) txn batch := by
  cases hstep with
  | done hfree => exact ⟨_, _, rfl, h.move halign⟩
  | failed detail =>
    rw [CommitState.next_error]
    exact ⟨_, _, rfl, .drop⟩
  | lost hfree detail =>
    rw [CommitState.next_error]
    refine ⟨_, _, rfl, ?_⟩
    have hmove := h.move halign
    generalize s.next (.sql q) (exec db.rows (db.txns i) q).1 = s' at hmove
    generalize (exec db.rows (db.txns i) q).2.1 = txn at hmove
    generalize (exec db.rows (db.txns i) q).2.2 = batch at hmove
    cases hmove with
    | expire hr => exact .expire hr
    | commit ht hq => exact .lose ht hq
    | lose ht hq => exact .lose ht hq
    | _ => exact .drop

end Moves

end Embyr
