import Embyr.CommitProtocol

/-!
# Creating a document that must not exist

Any number of `commit_transaction` calls, each with an update of the same absent document
under the precondition that it must not exist, their statements interleaved.

The check locks nothing, because there is no row to lock, and the upsert that follows
overwrites whatever is there by then. So two calls can both succeed
(`two_creations_succeed`). The run theorem is about the runs in which the document is still
absent whenever it is stored (`StoresAbsent`): in those at most one call succeeds, provided
that none of them deletes the document again.
-/

namespace Embyr

open Program ReadCommitted Function List

/-- The arguments of `commit_transaction`. -/
structure CommitCall where
  project : ProjectId
  transaction : TransactionId
  writes : List Write

/-- Sessions that each serve one commit. -/
abbrev Commits : Type :=
  Config Call.Answer (Db Key.Row) (fun _ => CoreError) fun _ => List WriteResult

/-- Nobody has asked anything yet. -/
def Commits.start (calls : ℕ → CommitCall) (db : Db Key.Row) : Commits :=
  ⟨db, fun i => commitTransaction (calls i).project (calls i).transaction (calls i).writes⟩

/-- The call has an update of the document that must not exist. -/
def CommitCall.Creates (call : CommitCall) (path : DocumentPath) : Prop :=
  ∃ fields version transforms,
    Write.update path fields version (some .mustNotExist) transforms ∈ call.writes

/-- No write of the call deletes the document. -/
def CommitCall.Keeps (call : CommitCall) (path : DocumentPath) : Prop :=
  ∀ write ∈ call.writes, write.path = path → write.deletes = false

/-- Whenever a commit stores the document, it is still absent. -/
def StoresAbsent (path : DocumentPath) (c : Commits) (i : ℕ) : Prop :=
  ∀ v f k, c.progs i = .call (.sql (.upsert (.document path) v f)) k → ¬ Present path c.state

/-! ## The document -/

section Document

variable {path : DocumentPath} {db db' : Db Key.Row} {i j : ℕ} {q : Stmt Key.Row}
  {a : q.Answer} {txn : Option (Txn Key.Row)} {batch : AList Key.Row} {t : Txn Key.Row}

/-- Once visible, the document stays visible. -/
def StaysVisible (path : DocumentPath) : (k : Key) → Option k.Row → k.Row → Prop
  | .document path', old, new =>
    path' = path → ∀ row, old = some row → DocumentRow.visible row = true →
      DocumentRow.visible new = true
  | .transaction _, _, _ => True

theorem StaysVisible.trans {k : Key} {old : Option k.Row} {mid new : k.Row}
    (h : StaysVisible path k old mid) (h' : StaysVisible path k (some mid) new) :
    StaysVisible path k old new := by
  cases k with
  | transaction id => trivial
  | document path' =>
    intro hpath row hrow hvisible
    exact h' hpath mid rfl (h hpath row hrow hvisible)

theorem Present.step (h : Present path db) (hc : db.Consistent (StaysVisible path))
    (hq : q.Respects (StaysVisible path)) (hstep : db.Step i q a db') : Present path db' := by
  obtain ⟨row, hrow, hvisible⟩ := h
  rcases hc.lookup_step StaysVisible.trans hq hstep (.document path) with hsame | ⟨new, hnew, hrel⟩
  · exact ⟨row, hsame.trans hrow, hvisible⟩
  · exact ⟨new, hnew, hrel rfl row hrow hvisible⟩

/-- The transaction has stored the document, which is absent for everybody else. -/
structure Claimed (path : DocumentPath) (db : Db Key.Row) (t : Txn Key.Row) : Prop where
  stored : ∃ row, t.pending.lookup (.document path) = some row ∧ DocumentRow.visible row = true
  absent : ¬ Present path db

theorem Claimed.write (h : Claimed path db t) {k : Key} (hk : k ≠ .document path) (v : k.Row) :
    Claimed path db (t.write k v) where
  stored := by
    obtain ⟨row, hrow, hvisible⟩ := h.stored
    exact ⟨row, (AList.lookup_insert_ne hk.symm).trans hrow, hvisible⟩
  absent := h.absent

/-- Nobody else can change a document that a transaction has stored. -/
theorem Claimed.step (h : Claimed path db t) (hc : db.Consistent (StaysVisible path))
    (hstep : db.Step i q a db') (hne : j ≠ i) (ht : db.txns j = some t) : Claimed path db' t := by
  obtain ⟨row, hrow, hvisible⟩ := h.stored
  obtain ⟨-, hlookup⟩ := hc.lookup_of_locked hstep hne ht (hc.covered ht (mem_of_lookup hrow))
  refine ⟨h.stored, ?_⟩
  rintro ⟨row', hrow', hvisible'⟩
  exact h.absent ⟨row', hlookup.symm.trans hrow', hvisible'⟩

theorem Claimed.apply (h : Claimed path db t) : Claimed path (db.apply i txn ∅) t := by
  refine ⟨h.stored, ?_⟩
  rintro ⟨row, hrow, hvisible⟩
  rw [Db.lookup_apply_of_notMem (AList.notMem_empty _)] at hrow
  exact h.absent ⟨row, hrow, hvisible⟩

/-! ## What holds of a session -/

variable {project : ProjectId} {uuid : Uuid} {writes : List Write} {s s' : CommitState}

/-- What holds while a commit is in state `s`. -/
def CreateHolds (path : DocumentPath) (writes : List Write) (db : Db Key.Row) (i : ℕ) :
    CommitState → Prop
  | .looking | .found _ | .dropped => db.txns i = none
  | .inside _ _ n =>
    ∃ t, db.txns i = some t ∧ ((∃ write ∈ writes.take n, write.path = path) → Claimed path db t)
  | .marked _ _ => ∃ t, db.txns i = some t ∧ Claimed path db t
  | .done _ _ => db.txns i = none ∧ Present path db

theorem CreateHolds.aligned (h : CreateHolds path writes db i s) : s.Aligned db i := by
  cases s with
  | inside | marked => exact h.imp fun t ht => ht.1
  | done row seen => exact h.1
  | looking | found | dropped => exact h

theorem CommitAllows.keepsVisible (h : CommitAllows project uuid writes s (.sql q))
    (hkeeps : ∀ write ∈ writes, write.path = path → write.deletes = false) :
    q.Respects (StaysVisible path) := by
  cases h with
  | look => trivial
  | expire row => exact fun v _ => trivial
  | begin | lock => trivial
  | @store row seen n write final hverified hwrite hfinal now =>
    cases final with
    | some fields => exact ⟨nofun, fun old _ row _ _ => rfl⟩
    | none =>
      -- a delete is of another document
      intro v _ hpath
      have hdeletes := hkeeps write (mem_of_getElem? hwrite) hpath
      rw [← hfinal] at hdeletes
      cases hdeletes
  | mark hverified => exact fun v _ => trivial
  | commit => trivial
  | drop h => trivial

/-- The other sessions stay where they are. -/
theorem CreateHolds.frame (hc : db.Consistent (StaysVisible path))
    (hq : q.Respects (StaysVisible path)) (hstep : db.Step i q a db') (hne : j ≠ i)
    (h : CreateHolds path writes db j s) : CreateHolds path writes db' j s := by
  have htxns := hstep.txns_ne hne
  cases s with
  | looking | found | dropped => exact htxns.trans h
  | inside row seen n =>
    obtain ⟨t, ht, hclaimed⟩ := h
    exact ⟨t, htxns.trans ht, fun hstored => (hclaimed hstored).step hc hstep hne ht⟩
  | marked row seen =>
    obtain ⟨t, ht, hclaimed⟩ := h
    exact ⟨t, htxns.trans ht, hclaimed.step hc hstep hne ht⟩
  | done row seen => exact ⟨htxns.trans h.1, h.2.step hc hq hstep⟩

/-- A write of another document does not count. -/
theorem stored_earlier {n : ℕ} {write : Write} (hwrite : writes[n]? = some write)
    (hpath : write.path ≠ path) (h : ∃ w ∈ writes.take (n + 1), w.path = path) :
    ∃ w ∈ writes.take n, w.path = path := by
  obtain ⟨w, hmem, hw⟩ := h
  rw [take_add_one, hwrite] at hmem
  rcases mem_append.mp hmem with hmem | hmem
  · exact ⟨w, hmem, hw⟩
  · obtain rfl := mem_singleton.mp hmem
    exact absurd hw hpath

/-- The session that moves. -/
theorem CreateHolds.move (hs : CreateHolds path writes db i s)
    (hmove : CommitMove project uuid writes db i q s s' txn batch)
    (hcreates : ∃ write ∈ writes, write.path = path)
    (hkeeps : ∀ write ∈ writes, write.path = path → write.deletes = false)
    (hstores : ∀ v f, q = .upsert (.document path) v f → ¬ Present path db) :
    CreateHolds path writes (db.apply i txn batch) i s' := by
  cases hmove with
  | look | expire => exact Db.txns_apply_self ..
  | begin hproject hactive =>
    exact ⟨.empty, Db.txns_apply_self .., fun ⟨_, hmem, _⟩ => nomatch hmem⟩
  | lock ht hr => exact ⟨_, Db.txns_apply_self .., fun ⟨_, hmem, _⟩ => nomatch hmem⟩
  | miss ht hq hr => exact ⟨_, Db.txns_apply_self .., fun ⟨_, hmem, _⟩ => nomatch hmem⟩
  | @store row seen n t write final now v ht hwrite hfinal hq hv =>
    have hclaimed := Db.of_txns hs ht
    refine ⟨_, Db.txns_apply_self .., fun hstored => Claimed.apply ?_⟩
    by_cases hpath : write.path = path
    · subst hpath
      have hdeletes := hkeeps write (mem_of_getElem? hwrite) rfl
      refine ⟨⟨v, AList.lookup_insert _, by rw [hv, hdeletes]; rfl⟩, ?_⟩
      rw [hdeletes, Option.isNone_eq_false_iff] at hfinal
      obtain ⟨fields, rfl⟩ := Option.isSome_iff_exists.mp hfinal
      exact hstores _ _ hq
    · refine (hclaimed ?_).write (fun hkey => hpath (Key.document.inj hkey)) v
      exact stored_earlier hwrite hpath hstored
  | @skip row seen n t write ht hwrite hdeletes =>
    have hclaimed := Db.of_txns hs ht
    have hpath : write.path ≠ path := by
      intro hpath
      rw [hkeeps write (mem_of_getElem? hwrite) hpath] at hdeletes
      cases hdeletes
    refine ⟨t, Db.txns_apply_self .., fun hstored => Claimed.apply (hclaimed ?_)⟩
    exact stored_earlier hwrite hpath hstored
  | mark ht hverified hq hr =>
    have hclaimed := Db.of_txns hs ht
    rw [take_length] at hclaimed
    refine ⟨_, Db.txns_apply_self .., Claimed.apply ((hclaimed hcreates).write ?_ _)⟩
    exact nofun
  | markMissing ht hverified hq hr =>
    have hclaimed := Db.of_txns hs ht
    rw [take_length] at hclaimed
    exact ⟨_, Db.txns_apply_self .., (hclaimed hcreates).apply⟩
  | commit ht hq =>
    have hclaimed := Db.of_txns hs ht
    obtain ⟨row, hrow, hvisible⟩ := hclaimed.stored
    refine ⟨Db.txns_apply_self .., row, ?_, hvisible⟩
    rw [Db.lookup_apply, hrow]
    rfl
  | lose ht hq => exact Db.txns_apply_self ..
  | drop => exact Db.txns_apply_self ..

end Document

/-! ## Runs -/

variable {c : Commits} {i : ℕ}

section Runs

variable {path : DocumentPath} {calls : ℕ → CommitCall}

/-- The protocol of one of the calls. -/
def CommitCall.monitor (call : CommitCall) (uuid : Uuid) : Monitor Call.Answer CommitState :=
  commitMonitor call.project uuid call.writes

/-- What holds of commits in the states `g`. -/
structure Commits.Inv (path : DocumentPath) (calls : ℕ → CommitCall) (c : Commits)
    (g : ℕ → CommitState) : Prop where
  consistent : c.state.Consistent (StaysVisible path)
  holds : ∀ i, CreateHolds path (calls i).writes c.state i (g i)
  unique : ∀ i j row seen row' seen', g i = .done row seen → g j = .done row' seen' → i = j

variable {g : ℕ → CommitState}

/-- A commit that succeeds finds the document absent, so no other has succeeded. -/
theorem Commits.Inv.alone {j : ℕ} {row row' : TransactionRow} {seen seen' : Seen}
    (hinv : Commits.Inv path calls c g) (hi : g i = .marked row seen) :
    g j ≠ .done row' seen' := by
  intro hj
  have hmarked := hinv.holds i
  have hdone := hinv.holds j
  rw [hi] at hmarked
  rw [hj] at hdone
  obtain ⟨t, -, hclaimed⟩ := hmarked
  exact hclaimed.absent hdone.2

/-- One statement keeps what holds. -/
theorem Commits.Inv.statement {uuid : Uuid} {q : Stmt Key.Row} {a : q.Answer} {db' : Db Key.Row}
    {progs : ℕ → Adapter (List WriteResult)} (hcreates : (calls i).Creates path)
    (hkeeps : (calls i).Keeps path)
    (hstores : ∀ v f, q = .upsert (.document path) v f → ¬ Present path c.state)
    (hallows : CommitAllows (calls i).project uuid (calls i).writes (g i) (.sql q))
    (hinv : Commits.Inv path calls c g) (hstep : c.state.Step i q a db') :
    Commits.Inv path calls ⟨db', progs⟩ (update g i ((g i).next (.sql q) a)) := by
  have hrespects := hallows.keepsVisible hkeeps
  obtain ⟨txn, batch, rfl, hmove⟩ := hallows.moves (hinv.holds i).aligned hstep
  have hpath : ∃ write ∈ (calls i).writes, write.path = path := by
    obtain ⟨fields, version, transforms, hmem⟩ := hcreates
    exact ⟨_, hmem, rfl⟩
  generalize (g i).next (.sql q) a = s' at hmove ⊢
  refine ⟨hinv.consistent.step StaysVisible.trans hrespects hstep, fun j => ?_, ?_⟩
  · by_cases hj : j = i
    · subst hj
      rw [update_self]
      exact (hinv.holds j).move hmove hpath hkeeps hstores
    · rw [update_of_ne hj]
      exact (hinv.holds j).frame hinv.consistent hrespects hstep hj
  · intro j j' row seen row' seen' hj hj'
    by_cases hji : j = i
    · by_cases hji' : j' = i
      · exact hji.trans hji'.symm
      · subst hji
        rw [update_self] at hj
        rw [update_of_ne hji'] at hj'
        subst hj
        exact absurd hj' (hinv.alone hmove.marked_of_done)
    · rw [update_of_ne hji] at hj
      by_cases hji' : j' = i
      · subst hji'
        rw [update_self] at hj'
        subst hj'
        exact absurd hj (hinv.alone hmove.marked_of_done)
      · rw [update_of_ne hji'] at hj'
        exact hinv.unique j j' row seen row' seen' hj hj'

/-- One step keeps what holds. -/
theorem Commits.Inv.step {uuid : Uuid} {q : Call} {k : q.Answer → Adapter (List WriteResult)}
    {a : q.Answer} {db' : Db Key.Row} (hcreates : (calls i).Creates path)
    (hkeeps : (calls i).Keeps path) (hguard : StoresAbsent path c i) (hprog : c.progs i = .call q k)
    (hallows : ((calls i).monitor uuid).allows (g i) q) (hinv : Commits.Inv path calls c g)
    (hstep : server.step i q c.state a db') :
    Commits.Inv path calls ⟨db', update c.progs i (k a)⟩
      (update g i (((calls i).monitor uuid).next (g i) q a)) := by
  generalize hdb : c.state = db at hstep
  cases hstep with
  | @statement q a db db' hstatement =>
    subst hdb
    refine hinv.statement hcreates hkeeps (fun v f hq => ?_) hallows hstatement
    subst hq
    exact hguard v f k hprog
  | @other q a db hother =>
    subst hdb
    have hsame : ((calls i).monitor uuid).next (g i) q a = g i :=
      CommitAllows.next_other hallows hother a
    rw [hsame, update_eq_self]
    exact ⟨hinv.consistent, hinv.holds, hinv.unique⟩

/-- **At most one creation succeeds**, in every run in which the document is still absent
whenever it is stored, if none of the calls deletes it. -/
theorem one_creation_succeeds (hcreates : ∀ i, (calls i).Creates path)
    (hkeeps : ∀ i, (calls i).Keeps path) {db : Db Key.Row} (hidle : ∀ i, db.txns i = none)
    {c : Commits} (hreach : Reach server (StoresAbsent path) (Commits.start calls db) c)
    {i j : ℕ} {results results' : List WriteResult} (hi : c.progs i = .ok results)
    (hj : c.progs j = .ok results') : i = j := by
  choose uuid hid using fun i => exists_uuid (calls i).transaction
  have hstart : ∀ i, ((Commits.start calls db).progs i).Obeys ((calls i).monitor (uuid i))
      Committed .looking := fun i => commitTransaction_obeys (hid i)
  have hinit : Commits.Inv path calls (Commits.start calls db) fun _ => .looking :=
    ⟨.of_idle hidle, hidle, nofun⟩
  obtain ⟨g, hinv, hobeys⟩ := Reach.invariant (fun i => (calls i).monitor (uuid i))
    (fun _ => Committed) (Commits.Inv path calls) hstart hinit
    (fun c g i q k a db' _ hguard hprog hallows hinv hstep =>
      hinv.step (hcreates i) (hkeeps i) hguard hprog hallows hstep) hreach
  have hends : ∀ {i results}, c.progs i = .ok results → ∃ row seen, g i = .done row seen := by
    intro i results hi
    have h := hobeys i
    rw [hi] at h
    exact h
  obtain ⟨row, seen, hgi⟩ := hends hi
  obtain ⟨row', seen', hgj⟩ := hends hj
  exact hinv.unique i j row seen row' seen' hgi hgj

end Runs

/-! ## Runs written out -/

/-- The document that is created. -/
def draft : DocumentPath := ⟨demo, "notes", "draft"⟩

/-- Each call creates the document under a transaction of its own. -/
def creators (n : ℕ) : CommitCall :=
  ⟨demo, (uuidOf (UInt8.ofNat n)).bytes, [.update draft ∅ none (some .mustNotExist) []]⟩

/-- Two active transactions, no documents. -/
def twoActive : Db Key.Row where
  rows := (AList.singleton (.transaction (uuidOf 0))
    (⟨demo, .active, ⟨0, 0⟩, ∅⟩ : TransactionRow)).insert (.transaction (uuidOf 1))
      (⟨demo, .active, ⟨0, 0⟩, ∅⟩ : TransactionRow)
  txns _ := none
  log := []

theorem creators_create (n : ℕ) : (creators n).Creates draft :=
  ⟨∅, none, [], mem_singleton_self _⟩

theorem creators_keep (n : ℕ) : (creators n).Keeps draft := by
  intro write hmem _
  obtain rfl := mem_singleton.mp hmem
  rfl

/-- `StoresAbsent`, as a check. -/
def admitsStore (path : DocumentPath) (c : Commits) (i : ℕ) : Bool :=
  match c.progs i with
  | .call (.sql (.upsert (.document path') _ _)) _ =>
    !decide (path' = path) ||
      (c.state.rows.lookup (.document path)).all fun row => !DocumentRow.visible row
  | _ => true

theorem storesAbsent_of_admitsStore {path : DocumentPath}
    (h : admitsStore path c i = true) : StoresAbsent path c i := by
  rintro v f k hprog ⟨row, hrow, hvisible⟩
  rw [admitsStore, hprog] at h
  simp [hrow, hvisible] at h

/-- The second call starts after the first has finished, and is refused. -/
theorem one_creation_succeeds_first :
    ∃ c : Commits, Reach server (StoresAbsent draft) (Commits.start creators twoActive) c ∧
      (∃ results, c.progs 0 = .ok results) ∧
        ∀ j results, c.progs j = .ok results → 0 = j := by
  have hrun : ((Commits.start creators twoActive).follow (admitsStore draft)
      (serve .still 2) (replicate 8 0 ++ replicate 5 1)).any
        (fun c => (c.progs 0).isOk) = true := by
    decide
  obtain ⟨c, hreach, hok⟩ := reach_of_schedule storesAbsent_of_admitsStore (fun _ _ => rfl) hrun
  obtain ⟨results, hresults⟩ := Prog.isOk_iff.mp hok
  exact ⟨c, hreach, ⟨results, hresults⟩, fun j results' hj =>
    one_creation_succeeds creators_create creators_keep (fun _ => rfl) hreach hresults hj⟩

/-- Both calls make their check before either stores the document. -/
theorem two_creations_succeed :
    ∃ c : Commits, Reach server (fun _ _ => True) (Commits.start creators twoActive) c ∧
      (∀ n, (creators n).Creates draft) ∧ (creators 0).transaction ≠ (creators 1).transaction ∧
      ¬ Present draft twoActive ∧
      (∃ results, c.progs 0 = .ok results) ∧ ∃ results, c.progs 1 = .ok results := by
  have hrun : ((Commits.start creators twoActive).follow (fun _ _ => true)
      (serve .still 2)
      (replicate 4 0 ++ replicate 4 1 ++ replicate 4 0 ++ replicate 4 1)).any
        (fun c => (c.progs 0).isOk && (c.progs 1).isOk) = true := by
    decide
  obtain ⟨c, hreach, hcheck⟩ := reach_of_schedule (fun _ => trivial) (fun _ _ => rfl) hrun
  obtain ⟨h0, h1⟩ := Bool.and_eq_true_iff.mp hcheck
  refine ⟨c, hreach, creators_create, by decide, ?_, Prog.isOk_iff.mp h0, Prog.isOk_iff.mp h1⟩
  rintro ⟨row, hrow, -⟩
  cases hrow

end Embyr
