import Embyr.CommitTransaction

/-!
# Two meanings of a call

* `World`, `World.answer` — one client at a time: the tables, fixed rules, fixed clocks,
  no failing statement. `Adapter` programs are run in it by `World.run`.
* `server` — any number of sessions on one database at READ COMMITTED. Clocks, identifiers
  and the system database may answer anything there. `serve` is the way it answers when
  nothing fails, for schedules written out by hand.

`World.document` is what a reader sees at a path; the lemmas after it say what each
statement of a commit does to it.
-/

namespace Embyr

open Program ReadCommitted Function

/-! ## One client -/

/-- The visible documents. -/
abbrev Documents : Type := DocumentPath → Option Fields

/-- The fields of a document, none where it is absent. -/
def Documents.stored (docs : Documents) (path : DocumentPath) : Fields := (docs path).getD ∅

/-- What stays fixed while one client is served. -/
structure Environment where
  clock : Timestamp
  databaseClock : Timestamp
  uuid : ℕ → Uuid
  streamToken : ℕ → String
  rules : ProjectId → RuleSet
  groupRules : ProjectId → StrMap String
  indexReady : ProjectId → String → Bool
  rate : ProjectId → Bool
  credentials : ProjectId → String → Except Status Bool
  identity : ProjectId → String → Option AuthContext

/-- No rules, open doors, clocks at the epoch. -/
def Environment.still : Environment where
  clock := ⟨0, 0⟩
  databaseClock := ⟨0, 0⟩
  uuid _ := ⟨List.replicate 16 0, rfl⟩
  streamToken _ := "token"
  rules _ := .empty
  groupRules _ := ∅
  indexReady _ _ := true
  rate _ := true
  credentials _ _ := .ok false
  identity _ _ := none

/-- The tables, the open transaction, how many identifiers have been drawn, and the
notifications sent, newest first. -/
structure World where
  env : Environment
  rows : AList Key.Row
  txn : Option (Txn Key.Row)
  drawn : ℕ
  notified : List (ProjectId × String)

namespace World

/-- A world between two requests. -/
def holding (env : Environment) (rows : AList Key.Row) : World := ⟨env, rows, none, 0, []⟩

/-- A statement of the only client. -/
def execute (w : World) (q : Stmt Key.Row) : q.Answer × World :=
  let e := exec w.rows w.txn q
  (e.1, { w with rows := e.2.2 ∪ w.rows, txn := e.2.1 })

/-- How the world answers. -/
def answer : (q : Call) → World → q.Answer × World
  | .sql q, w => w.execute q
  | .now, w => (w.env.clock, w)
  | .databaseNow, w => (w.env.databaseClock, w)
  | .newUuid, w => (w.env.uuid w.drawn, { w with drawn := w.drawn + 1 })
  | .newStreamToken, w => (w.env.streamToken w.drawn, { w with drawn := w.drawn + 1 })
  | .notify project payload, w => ((), { w with notified := (project, payload) :: w.notified })
  | .register _, w => ((), w)
  | .received _, w => ((), w)
  | .getAccessRule project collectionPath, w =>
    (.ok (w.env.rules project).readRules[collectionPath]?, w)
  | .getWriteAccessRule project collectionPath, w =>
    (.ok (w.env.rules project).writeRules[collectionPath]?, w)
  | .getGroupAccessRule project collectionId, w =>
    (.ok (w.env.groupRules project)[collectionId]?, w)
  | .accessRulePatterns project, w => (.ok (w.env.rules project).patterns, w)
  | .isIndexReady project collectionPath, w => (w.env.indexReady project collectionPath, w)
  | .checkRate project, w => (w.env.rate project, w)
  | .authenticate project apiKey, w => (w.env.credentials project apiKey, w)
  | .clientIdentity project token, w => (w.env.identity project token, w)

/-- Run a program in the world. -/
def run {ε R : Type} (w : World) (p : Prog Call.Answer ε R) : Except ε R × World :=
  p.run answer w

/-- What the client's statements see. -/
def rowsSeen (w : World) : AList Key.Row := view w.rows w.txn

/-- The row of a document. -/
def documentRow (w : World) (path : DocumentPath) : Option DocumentRow :=
  w.rowsSeen.lookup (Key.document path)

/-- The row of a transaction. -/
def transactionRow (w : World) (id : Uuid) : Option TransactionRow :=
  w.rowsSeen.lookup (Key.transaction id)

/-- The fields a reader sees at a path. -/
def document (w : World) : Documents := fun path =>
  ((w.documentRow path).filter DocumentRow.visible).map DocumentRow.fields

/-! ## What the statements do -/

/-- Write a row. -/
def put (w : World) (k : Key) (v : k.Row) : World :=
  { w with rows := (writeRow w.txn k v).2 ∪ w.rows, txn := (writeRow w.txn k v).1 }

/-- Lock a row. -/
def lock (w : World) (k : Key) : World := { w with txn := w.txn.map (·.lock k) }

variable {w : World} {k k' : Key} {v : k.Row}

@[simp] theorem put_env : (w.put k v).env = w.env := rfl

@[simp] theorem lookup_rowsSeen_put_self : (w.put k v).rowsSeen.lookup k = some v :=
  lookup_view_writeRow_self ..

theorem lookup_rowsSeen_put_ne (h : k' ≠ k) :
    (w.put k v).rowsSeen.lookup k' = w.rowsSeen.lookup k' :=
  lookup_view_writeRow_ne _ _ _ h

@[simp] theorem lock_rowsSeen : (w.lock k).rowsSeen = w.rowsSeen := by
  rcases h : w.txn with _ | t <;> simp [lock, rowsSeen, view, pendingRows, Txn.lock, h]

variable {w' : World}

theorem run_sql {q : Stmt Key.Row} {r : q.Result}
    (h : w.execute q = (.ok r, w')) : w.run (sql q) = (.ok r, w') := by
  have hrun : w.run (sql q) = (match (w.execute q).1 with
      | .ok r => .ok r
      | .error e => .error (.backendUnavailable e.text) : Adapter q.Result).run answer
        (w.execute q).2 := rfl
  rw [hrun, h]
  rfl

theorem run_select : w.run (sql (.select k)) = (.ok (w.rowsSeen.lookup k), w) :=
  run_sql (by simp only [execute, exec, AList.empty_union, rowsSeen])

variable {p : k.Row → Bool}

theorem run_selectForUpdate_some (h : (w.rowsSeen.lookup k).filter p = some v) :
    w.run (sql (.selectForUpdate k p)) = (.ok (some v), w.lock k) :=
  run_sql (by simp only [execute, exec_selectForUpdate_some h, AList.empty_union, lock])

theorem run_selectForUpdate_none (h : (w.rowsSeen.lookup k).filter p = none) :
    w.run (sql (.selectForUpdate k p)) = (.ok none, w) :=
  run_sql (by simp only [execute, exec_selectForUpdate_none h, AList.empty_union])

theorem run_update_some {f : k.Row → k.Row} (h : (w.rowsSeen.lookup k).filter p = some v) :
    w.run (sql (.update k p f)) = (.ok (some (f v)), w.put k (f v)) :=
  run_sql (by simp only [execute, exec_update_some h, put])

theorem run_update_none {f : k.Row → k.Row} (h : (w.rowsSeen.lookup k).filter p = none) :
    w.run (sql (.update k p f)) = (.ok none, w) :=
  run_sql (by simp only [execute, exec_update_none h, AList.empty_union])

theorem run_upsert {f : k.Row → k.Row} :
    w.run (sql (.upsert k v f)) =
      (.ok ((w.rowsSeen.lookup k).elim v f), w.put k ((w.rowsSeen.lookup k).elim v f)) := rfl

theorem run_scan {pick : AList Key.Row → List (Sigma Key.Row)} :
    w.run (sql (.scan pick)) = (.ok (pick w.rowsSeen), w) :=
  run_sql (by simp only [execute, exec, AList.empty_union, rowsSeen])

theorem run_begin : w.run (sql .begin) = (.ok (), { w with txn := some .empty }) :=
  run_sql (by simp only [execute, exec, AList.empty_union])

theorem run_commit :
    w.run (sql .commit) = (.ok (), { w with rows := w.rowsSeen, txn := none }) := rfl

@[simp] theorem rowsSeen_idle (h : w.txn = none) : w.rowsSeen = w.rows := by
  simp [rowsSeen, view, pendingRows, h, AList.empty_union]

@[simp] theorem rowsSeen_begun (w : World) :
    ({ w with txn := some .empty } : World).rowsSeen = w.rows := by
  simp [rowsSeen, view, pendingRows, Txn.empty, AList.empty_union]

@[simp] theorem rowsSeen_committed (w : World) :
    ({ w with rows := w.rowsSeen, txn := none } : World).rowsSeen = w.rowsSeen :=
  rowsSeen_idle rfl

variable {ε R : Type}

variable {R' : Type} {p : Prog Call.Answer ε R} {f : R → Prog Call.Answer ε R'}

/-- The rule for sequencing, in a world. -/
theorem run_bind_of_ok
    {r : R} (h : w.run p = (.ok r, w')) : w.run (p >>= f) = w'.run (f r) :=
  Prog.run_bind_ok answer h

theorem run_bind_of_error {e : ε} (h : w.run p = (.error e, w')) :
    w.run (p >>= f) = (.error e, w') :=
  Prog.run_bind_error answer h

theorem run_bind_eq_ok {r : R'} (h : w.run (p >>= f) = (.ok r, w')) :
    ∃ x w₁, w.run p = (.ok x, w₁) ∧ w₁.run (f x) = (.ok r, w') :=
  Prog.run_bind_eq_ok answer h

theorem run_ofExcept (x : Except ε R) : w.run (Prog.ofExcept x) = (x, w) :=
  Prog.run_ofExcept answer x w

theorem run_ofExcept_bind_eq_ok {x : Except ε R} {r : R'}
    (h : w.run (Prog.ofExcept x >>= f) = (.ok r, w')) :
    ∃ a, x = .ok a ∧ w.run (f a) = (.ok r, w') := by
  rcases x with e | a
  · cases h
  · exact ⟨a, rfl, h⟩

/-! ## What a reader sees -/

variable {path : DocumentPath} {row : DocumentRow}

theorem documentRow_put_self :
    (w.put (.document path) row).documentRow path = some row :=
  lookup_rowsSeen_put_self

theorem documentRow_put :
    (w.put (.document path) row).documentRow = update w.documentRow path (some row) := by
  funext path'
  by_cases h : path' = path
  · subst h
    rw [update_self]
    exact documentRow_put_self
  · rw [update_of_ne h]
    exact lookup_rowsSeen_put_ne (by simpa using h)

theorem document_put_document :
    (w.put (.document path) row).document =
      update w.document path
        (((some row).filter DocumentRow.visible).map DocumentRow.fields) := by
  funext path'
  by_cases h : path' = path
  · subst h
    rw [update_self]
    exact congrArg (fun r : Option DocumentRow => (r.filter DocumentRow.visible).map _)
      documentRow_put_self
  · rw [update_of_ne h]
    have hrow : (w.put (.document path) row).documentRow path' = w.documentRow path' :=
      lookup_rowsSeen_put_ne (by simpa using h)
    exact congrArg (fun r : Option DocumentRow => (r.filter DocumentRow.visible).map _) hrow

theorem document_put_transaction {id : Uuid} {row : TransactionRow} :
    (w.put (.transaction id) row).document = w.document := by
  funext path
  have hrow : (w.put (.transaction id) row).documentRow path = w.documentRow path :=
    lookup_rowsSeen_put_ne (by simp)
  exact congrArg (fun r : Option DocumentRow => (r.filter DocumentRow.visible).map _) hrow

theorem transactionRow_put_document :
    (w.put (.document path) row).transactionRow = w.transactionRow := by
  funext id
  exact lookup_rowsSeen_put_ne (by simp)

theorem transactionRow_put_transaction {id : Uuid} {row : TransactionRow} :
    (w.put (.transaction id) row).transactionRow =
      update w.transactionRow id (some row) := by
  funext id'
  by_cases h : id' = id
  · subst h
    rw [update_self]
    exact lookup_rowsSeen_put_self
  · rw [update_of_ne h]
    exact lookup_rowsSeen_put_ne (by simpa using h)

theorem document_eq_of_rowsSeen (h : w'.rowsSeen = w.rowsSeen) :
    w'.document = w.document := by
  unfold document documentRow
  rw [h]

theorem transactionRow_eq_of_rowsSeen (h : w'.rowsSeen = w.rowsSeen) :
    w'.transactionRow = w.transactionRow := by
  unfold transactionRow
  rw [h]

/-- The world after a commit's statement for one write. -/
def store (w : World) (path : DocumentPath) (now : Timestamp) : Option Fields → World
  | some fields =>
    w.put (.document path) ((w.documentRow path).elim (DocumentRow.fresh fields now.stored)
      (DocumentRow.overwrite fields now.stored))
  | none =>
    match w.documentRow path with
    | some row => w.put (.document path) (row.remove now.stored)
    | none => w

theorem run_store (w : World) (path : DocumentPath) (now : Timestamp) (final : Option Fields) :
    ∃ r, w.run (sql (storeStatement path now final)) = (.ok r, w.store path now final) := by
  cases final with
  | some fields => exact ⟨_, run_upsert⟩
  | none =>
    unfold store
    rcases hrow : w.documentRow path with _ | row
    · exact ⟨none, run_update_none (by rw [show w.rowsSeen.lookup (.document path) = none from hrow]; rfl)⟩
    · exact ⟨some (row.remove now.stored), run_update_some
        (by rw [show w.rowsSeen.lookup (.document path) = some row from hrow]; rfl)⟩

/-- A stored write is what readers see from then on. -/
theorem document_store (w : World) (path : DocumentPath) (now : Timestamp)
    (final : Option Fields) :
    (w.store path now final).document = update w.document path final := by
  cases final with
  | some fields =>
    refine document_put_document.trans ?_
    rcases w.documentRow path with _ | row <;> rfl
  | none =>
    unfold store
    rcases hrow : w.documentRow path with _ | row
    · have hdoc : w.document path = none := by simp [document, hrow]
      exact (update_eq_self_iff.mpr hdoc.symm).symm
    · rw [document_put_document]
      rfl

/-- The row of a document that has just been stored. -/
theorem updateTime_store {now : Timestamp} {final : Option Fields}
    (h : (w.store path now final).documentRow path = some row) :
    row.updateTime = now.stored := by
  cases final with
  | some fields =>
    obtain rfl := Option.some.inj (documentRow_put_self.symm.trans h)
    rcases w.documentRow path with _ | old <;> rfl
  | none =>
    unfold store at h
    rcases hrow : w.documentRow path with _ | old
    · rw [hrow] at h
      exact nomatch hrow.symm.trans h
    · rw [hrow] at h
      obtain rfl := Option.some.inj (documentRow_put_self.symm.trans h)
      rfl

theorem documentRow_store_ne {path' : DocumentPath} (now : Timestamp) (final : Option Fields)
    (h : path' ≠ path) : (w.store path now final).documentRow path' = w.documentRow path' := by
  cases final with
  | some fields => exact lookup_rowsSeen_put_ne (by simpa using h)
  | none =>
    unfold store
    rcases w.documentRow path with _ | row
    · rfl
    · exact lookup_rowsSeen_put_ne (by simpa using h)

theorem transactionRow_store (w : World) (path : DocumentPath) (now : Timestamp)
    (final : Option Fields) : (w.store path now final).transactionRow = w.transactionRow := by
  cases final with
  | some fields => exact transactionRow_put_document
  | none =>
    unfold store
    rcases w.documentRow path with _ | row
    · rfl
    · exact transactionRow_put_document

@[simp] theorem store_env (w : World) (path : DocumentPath) (now : Timestamp)
    (final : Option Fields) : (w.store path now final).env = w.env := by
  cases final with
  | some fields => rfl
  | none =>
    unfold store
    rcases w.documentRow path with _ | row <;> rfl

end World

/-! ## Values for examples -/

/-- A project. -/
def demo : ProjectId := ⟨"demo", by decide⟩

/-! ## Many sessions -/

/-- The database of the server's sessions; everything else answers as it likes. -/
inductive ServerStep (i : ℕ) : (q : Call) → Db Key.Row → q.Answer → Db Key.Row → Prop
  | statement {q : Stmt Key.Row} {a : q.Answer} {db db' : Db Key.Row}
      (h : db.Step i q a db') : ServerStep i (.sql q) db a db'
  | other {q : Call} {a : q.Answer} {db : Db Key.Row} (h : ∀ s, q ≠ .sql s) :
      ServerStep i q db a db

/-- The machine the sessions share. -/
def server : Machine Call.Answer (Db Key.Row) := ⟨ServerStep⟩

/-! ## Schedules of the server -/

/-- No session below `m` other than `i` holds the lock. -/
def lockFree (m : ℕ) (db : Db Key.Row) (i : ℕ) (k : Key) : Bool :=
  (List.range m).all fun j => j = i || (db.txns j).all fun t => decide (k ∉ t.locked)

/-- One way to serve the sessions below `m`: no statement fails, and everything but the
database answers as the environment does. -/
def serve (env : Environment) (m i : ℕ) :
    (q : Call) → Db Key.Row → Option (q.Answer × Db Key.Row)
  | .sql q, db =>
    let e := exec db.rows (db.txns i) q
    if i < m ∧ (demand db.rows (db.txns i) q).all (lockFree m db i) = true then
      some (e.1, db.apply i e.2.1 e.2.2)
    else none
  | q, db => some ((World.answer q (World.holding env db.rows)).1, db)

/-- The sessions from `m` on have no transaction open. -/
def IdleFrom (m : ℕ) (db : Db Key.Row) : Prop := ∀ j, m ≤ j → db.txns j = none

variable {m : ℕ}

variable {i : ℕ}

theorem free_of_lockFree {db : Db Key.Row} {k : Key} (hidle : IdleFrom m db)
    (h : lockFree m db i k = true) : db.Free i k := by
  intro j t hne ht hk
  have hj : j < m := by
    by_contra hge
    rw [hidle j (Nat.le_of_not_lt hge)] at ht
    cases ht
  have hcheck := List.all_eq_true.mp h j (List.mem_range.mpr hj)
  rw [ht] at hcheck
  simp [hne, hk] at hcheck

variable {env : Environment}

theorem serve_step {q : Call} {db db' : Db Key.Row} {a : q.Answer} (hidle : IdleFrom m db)
    (h : serve env m i q db = some (a, db')) :
    server.step i q db a db' ∧ IdleFrom m db' := by
  cases q
  case sql q =>
    rw [serve] at h
    split_ifs at h with hcond
    cases h
    refine ⟨.statement (.done fun k hk => ?_), fun j hj => ?_⟩
    · have hfree := hcond.2
      rw [hk] at hfree
      exact free_of_lockFree hidle hfree
    · rw [Db.txns_apply_ne _ _ _ (by omega)]
      exact hidle j hj
  all_goals
    cases h
    exact ⟨.other (nofun), hidle⟩

variable {schedule : List ℕ}

/-- A schedule whose outcome passes a check is a run to such an outcome. -/
theorem reach_of_schedule {ε R : ℕ → Type} {c : Config Call.Answer (Db Key.Row) ε R}
    {guard : Config Call.Answer (Db Key.Row) ε R → ℕ → Prop}
    {admits : Config Call.Answer (Db Key.Row) ε R → ℕ → Bool}
    {check : Config Call.Answer (Db Key.Row) ε R → Bool}
    (hguard : ∀ {c i}, admits c i = true → guard c i) (hidle : IdleFrom m c.state)
    (h : (c.follow admits (serve env m) schedule).any check = true) :
    ∃ c', Reach server guard c c' ∧ check c' = true := by
  obtain ⟨c', hfollow, hcheck⟩ := (Option.any_eq_true ..).mp h
  exact ⟨c', (Config.reach_of_follow hguard serve_step hidle hfollow).1, hcheck⟩

/-- … and so is one with a last turn that is looked at on its own. -/
theorem step_of_schedule {ε R : ℕ → Type} {c : Config Call.Answer (Db Key.Row) ε R}
    {check : Config Call.Answer (Db Key.Row) ε R → Config Call.Answer (Db Key.Row) ε R → Bool}
    (hidle : IdleFrom m c.state)
    (h : (c.follow (fun _ _ => true) (serve env m) schedule).any (fun b => (b.follow (fun _ _ => true) (serve env m) [i]).any (check b)) = true) :
    ∃ b c', Reach server (fun _ _ => True) c b ∧ Machine.Step server i b c' ∧
      check b c' = true := by
  obtain ⟨b, hfollow, hlast⟩ := (Option.any_eq_true ..).mp h
  obtain ⟨c', hturn, hcheck⟩ := (Option.any_eq_true ..).mp hlast
  obtain ⟨hreach, hidle'⟩ := Config.reach_of_follow (fun _ => trivial) serve_step hidle hfollow
  exact ⟨b, c', hreach, Config.step_of_follow serve_step hidle' hturn, hcheck⟩

end Embyr
