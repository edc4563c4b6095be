import Embyr.CommitProtocol

/-!
# The reads of a transaction

A client reads documents and runs queries under a transaction, in any order and as often as
it likes, and then commits; the statements of other sessions come in between.

* `TransactionRead`, `transactionProgram` — the client.
* `lastSeen` — what the last read of a document returned. A document that is read again
  replaces the entry in the read set, so only this version is compared.
* `last_reads_validated` — when the commit succeeds, a document whose last read found a
  version still has it at that moment. A last read that found nothing was confirmed while
  the commit checked it, but there is no row to lock.
* `reread_hides_change` — an earlier read of the same document need not hold any more.
-/

namespace Embyr

open Program ReadCommitted Function TransactionRow Std.ExtTreeMap Db

/-! ## The client -/

/-- A read under the transaction. -/
inductive TransactionRead where
  | get (path : DocumentPath)
  | query (engine : QueryEngine) (collection : CollectionPath) (structured : StructuredQuery)

/-- Documents with the version a read returned, `none` where it found no document. -/
abbrev Observation : Type := List (DocumentPath × Option Version)

/-- The call that serves a read. -/
def TransactionRead.program (id : TransactionId) : TransactionRead → Adapter Observation
  | .get path => do
    let document ← getDocument path (some id)
    return [(path, document.map (·.version))]
  | .query engine collection structured => do
    let docs ← runQuery engine collection structured (some id)
    return docs.map fun doc => (doc.path, some doc.version)

/-- A read with what it returned. -/
abbrev ReadOutcome : Type := TransactionRead × Except CoreError Observation

/-- One read of the client, who goes on when it fails. -/
def readOnce (id : TransactionId) (read : TransactionRead) : Adapter ReadOutcome := do
  let outcome ← (read.program id).attempt
  return (read, outcome)

/-- The client: reads, then the commit. -/
def transactionProgram (project : ProjectId) (id : TransactionId) (reads : List TransactionRead)
    (writes : List Write) : Adapter (List ReadOutcome × List WriteResult) := do
  let outcomes ← Prog.mapEach (readOnce id) reads
  let results ← commitTransaction project id writes
  return (outcomes, results)

/-- A version, or absence, under the key of each document. -/
abbrev Known : Type := String → Option (Option Version)

/-- All a read returned. -/
def noteAll (known : Known) (observation : Observation) : Known :=
  observation.foldl (fun known o => Function.update known (readKey o.1) (some o.2)) known

/-- A failed read may or may not have been recorded. -/
def noteOutcome (known : Known) : ReadOutcome → Known
  | (_, .ok observation) => noteAll known observation
  | (.get path, .error _) => Function.update known (readKey path) none
  | (.query _ _ _, .error _) => fun _ => none

/-- What the last read under each key returned. -/
def lastSeen (outcomes : List ReadOutcome) : Known := outcomes.foldl noteOutcome fun _ => none

/-! ## The protocol -/

/-- What is known to be recorded, and how far the commit is. -/
structure TransactionState where
  known : Known
  commit : CommitState

/-- What a statement records. -/
def recorded (f : TransactionRow → TransactionRow) : StrMap (Option Version) :=
  (f ⟨demo, .active, ⟨0, 0⟩, ∅⟩).reads

/-- Before the commit, an entry is known once its statement has succeeded, and no longer
known once a statement on it has failed. -/
def Known.note (known : Known) : (q : Call) → q.Answer → Known
  | .sql (.update (.transaction _) _ f), .ok (some _) => fun key =>
    (recorded f)[key]?.or (known key)
  | .sql (.update (.transaction _) _ f), .error _ => fun key =>
    if (recorded f).contains key then none else known key
  | _, _ => known

/-- Where an answer leads. -/
def TransactionState.next : TransactionState → (q : Call) → q.Answer → TransactionState
  | ⟨known, .looking⟩, .sql (.select (.transaction id)), a =>
    ⟨known, CommitState.next .looking (.sql (.select (.transaction id))) a⟩
  | ⟨known, .looking⟩, q, a => ⟨known.note q a, .looking⟩
  | ⟨known, s⟩, q, a => ⟨known, s.next q a⟩

/-- What the client may ask. -/
inductive TransactionAllows (project : ProjectId) (uuid : Uuid) (writes : List Write) :
    TransactionState → Call → Prop
  | clock (known : Known) : TransactionAllows project uuid writes ⟨known, .looking⟩ .databaseNow
  | read (known : Known) (path : DocumentPath) :
      TransactionAllows project uuid writes ⟨known, .looking⟩ (.sql (.select (.document path)))
  | scan (known : Known) (pick : AList Key.Row → List (Sigma Key.Row)) :
      TransactionAllows project uuid writes ⟨known, .looking⟩ (.sql (.scan pick))
  | record (known : Known) (p : TransactionRow → Bool) (key : String) (version : Option Version) :
      TransactionAllows project uuid writes ⟨known, .looking⟩
        (.sql (.update (.transaction uuid) p (TransactionRow.record key version)))
  | commit (known : Known) {s : CommitState} {q : Call} (h : CommitAllows project uuid writes s q) :
      TransactionAllows project uuid writes ⟨known, s⟩ q

/-- The protocol of the client. -/
def transactionMonitor (project : ProjectId) (uuid : Uuid) (writes : List Write) :
    Monitor Call.Answer TransactionState :=
  ⟨TransactionAllows project uuid writes, TransactionState.next⟩

section Protocol

variable {project : ProjectId} {uuid : Uuid} {writes : List Write} {known : Known}

theorem recorded_record (key key' : String) (version : Option Version) :
    (recorded (record key version))[key']? =
      if key' = key then some version else none := by
  simp only [recorded, record, getElem?_insert]
  by_cases h : key' = key
  · simp [h]
  · simp [h, Ne.symm h]

theorem note_record_ok (known : Known) (p : TransactionRow → Bool) (key : String)
    (version : Option Version) (row : TransactionRow) :
    known.note (.sql (.update (.transaction uuid) p (record key version)))
      (.ok (some row)) = update known key (some version) := by
  funext key'
  have hnote : known.note (.sql (.update (.transaction uuid) p (record key version)))
      (.ok (some row)) key' =
        ((recorded (record key version))[key']?).or (known key') := rfl
  rw [hnote, recorded_record]
  by_cases h : key' = key
  · subst h
    simp
  · simp [h]

theorem note_record_error (known : Known) (p : TransactionRow → Bool) (key : String)
    (version : Option Version) (e : Failure) :
    known.note (.sql (.update (.transaction uuid) p (record key version)))
      (.error e) = update known key none := by
  funext key'
  have hnote : known.note (.sql (.update (.transaction uuid) p (record key version)))
      (.error e) key' = if (recorded (record key version)).contains key' then none
        else known key' := rfl
  have hcontains : (recorded (record key version)).contains key' =
      decide (key' = key) := by
    rw [contains_eq_isSome_getElem?, recorded_record]
    by_cases h : key' = key <;> simp [h]
  rw [hnote, hcontains]
  by_cases h : key' = key
  · subst h
    simp
  · simp [h]

/-- Everything `a` knows, `b` knows. -/
def Known.Le (a b : Known) : Prop := ∀ key v, a key = some v → b key = some v

theorem Known.Le.update {a b : Known} (h : a.Le b) (key : String) (v : Option (Option Version)) :
    Known.Le (update a key v) (update b key v) := by
  intro key' w hw
  by_cases hkey : key' = key
  · subst hkey
    rw [update_self] at hw ⊢
    exact hw
  · rw [update_of_ne hkey] at hw ⊢
    exact h key' w hw

theorem Known.Le.noteAll {a b : Known} (h : a.Le b) (observation : Observation) :
    Known.Le (noteAll a observation) (noteAll b observation) := by
  induction observation generalizing a b with
  | nil => exact h
  | cons o observation ih => exact ih (h.update (readKey o.1) (some o.2))

/-- A part of the client before the commit: what is known on success, and on failure. -/
def Reading {R : Type} (P : R → Known → Prop) (Q : Known → Prop) :
    TransactionState → Except CoreError R → Prop
  | s, .ok r => ∃ known, s = ⟨known, .looking⟩ ∧ P r known
  | s, .error _ => ∃ known, s = ⟨known, .looking⟩ ∧ Q known

variable {id : TransactionId} (hid : ∀ u, uuidFromBytes id = .ok u → u = uuid)

include hid

theorem recordRead_reading (readProject : ProjectId) (path : DocumentPath) (version : Option Version) :
    (recordRead readProject id path version).Obeys (transactionMonitor project uuid writes)
      (Reading (fun _ known' => known' = update known (readKey path) (some version))
        fun known' => ∀ key, key ≠ readKey path → known' key = known key)
      ⟨known, .looking⟩ := by
  rw [recordRead]
  rcases hparse : uuidFromBytes id with e | u
  · exact ⟨known, rfl, fun _ _ => rfl⟩
  obtain rfl := hid u hparse
  refine .ask (.clock known) fun now => ⟨.record known _ _ _, fun answer => ?_⟩
  rcases answer with e | _ | row
  · refine ⟨_, rfl, fun key hkey => ?_⟩
    rw [note_record_error, update_of_ne hkey]
    rfl
  · exact ⟨known, rfl, fun _ _ => rfl⟩
  · exact ⟨_, rfl, note_record_ok known _ _ version row⟩

theorem getDocument_reading (path : DocumentPath) :
    (getDocument path (some id)).Obeys (transactionMonitor project uuid writes)
      (Reading (fun document known' =>
          known' = update known (readKey path) (some (document.map (·.version))))
        fun known' => ∀ key, key ≠ readKey path → known' key = known key)
      ⟨known, .looking⟩ := by
  rw [getDocument]
  refine ⟨.read known path, fun answer => ?_⟩
  rcases answer with e | row
  · exact ⟨known, rfl, fun _ _ => rfl⟩
  · refine (recordRead_reading hid path.projectId path _).bind (fun s _ hs => hs) fun s e hs => hs

theorem recordReads_reading (readProject : ProjectId) (docs : List FirestoreDocument) :
    (recordReads readProject id docs).Obeys (transactionMonitor project uuid writes)
      (Reading (fun _ known' =>
        known' = noteAll known (docs.map fun doc => (doc.path, some doc.version))) fun _ => True)
      ⟨known, .looking⟩ := by
  induction docs generalizing known with
  | nil => exact ⟨known, rfl, rfl⟩
  | cons doc docs ih =>
    refine (recordRead_reading hid readProject doc.path (some doc.version)).bind
      (fun s _ hs => ?_) fun s e hs => ?_
    · obtain ⟨known', rfl, rfl⟩ := hs
      exact ih
    · obtain ⟨known', rfl, -⟩ := hs
      exact ⟨known', rfl, trivial⟩

theorem runQuery_reading (engine : QueryEngine)
    (collection : CollectionPath) (structured : StructuredQuery) :
    (runQuery engine collection structured (some id)).Obeys
      (transactionMonitor project uuid writes)
      (Reading (fun docs known' =>
        known' = noteAll known (docs.map fun doc => (doc.path, some doc.version))) fun _ => True)
      ⟨known, .looking⟩ := by
  rw [runQuery]
  refine ⟨.scan known _, fun answer => ?_⟩
  rcases answer with e | rows
  · exact ⟨known, rfl, trivial⟩
  · exact (recordReads_reading hid collection.projectId _).bind (fun s _ hs => hs) fun s e hs => hs

/-- What a read returned is recorded, on top of what was recorded before. -/
theorem program_reading (read : TransactionRead) :
    (read.program id).Obeys (transactionMonitor project uuid writes)
      (fun s x => ∃ known', s = ⟨known', .looking⟩ ∧
        ∀ seen : Known, seen.Le known → (noteOutcome seen (read, x)).Le known')
      ⟨known, .looking⟩ := by
  cases read with
  | get path =>
    refine (getDocument_reading hid path).bind (fun s document hs => ?_) fun s e hs => ?_
    · obtain ⟨known', rfl, rfl⟩ := hs
      exact ⟨_, rfl, fun seen hle => hle.update _ _⟩
    · obtain ⟨known', rfl, hsame⟩ := hs
      refine ⟨known', rfl, fun seen hle key v hv => ?_⟩
      -- only the entry of the document itself may have changed
      have hkey : key ≠ readKey path := by
        rintro rfl
        rw [noteOutcome, update_self] at hv
        cases hv
      rw [noteOutcome, update_of_ne hkey] at hv
      exact (hsame key hkey).trans (hle key v hv)
  | query engine collection structured =>
    refine (runQuery_reading hid engine collection structured).bind (fun s docs hs => ?_)
      fun s e hs => ?_
    · obtain ⟨known', rfl, rfl⟩ := hs
      exact ⟨_, rfl, fun seen hle => hle.noteAll _⟩
    · obtain ⟨known', rfl, -⟩ := hs
      exact ⟨known', rfl, nofun⟩

theorem readOnce_reading (read : TransactionRead) :
    (readOnce id read).Obeys (transactionMonitor project uuid writes)
      (Reading (fun outcome known' =>
        ∀ seen : Known, seen.Le known → (noteOutcome seen outcome).Le known') fun _ => False)
      ⟨known, .looking⟩ := by
  have hattempt : ((read.program id).attempt : Adapter (Except CoreError Observation)).Obeys
      (transactionMonitor project uuid writes)
      (Reading (fun x known' => ∀ seen : Known, seen.Le known →
        (noteOutcome seen (read, x)).Le known') fun _ => False) ⟨known, .looking⟩ :=
    Prog.obeys_attempt.mpr (program_reading hid read)
  exact hattempt.bind (fun s x hs => hs) fun s e hs => hs

theorem readAll_reading (reads : List TransactionRead) :
    (Prog.mapEach (readOnce id) reads).Obeys (transactionMonitor project uuid writes)
      (Reading (fun outcomes known' => ∀ seen : Known, seen.Le known →
        Known.Le (outcomes.foldl noteOutcome seen) known') fun _ => False) ⟨known, .looking⟩ := by
  induction reads generalizing known with
  | nil => exact ⟨known, rfl, fun seen hle => hle⟩
  | cons read reads ih =>
    refine (readOnce_reading hid read).bind (fun s outcome hs => ?_) fun s e hs => ?_
    · obtain ⟨known₁, rfl, hnote⟩ := hs
      refine (@ih known₁).bind (fun s outcomes hs => ?_) fun s e hs => hs
      obtain ⟨known₂, rfl, hrest⟩ := hs
      exact ⟨known₂, rfl, fun seen hle => hrest _ (hnote seen hle)⟩
    · obtain ⟨known', -, hfalse⟩ := hs
      exact hfalse.elim

omit hid in
/-- The commit, as a part of the client. -/
theorem commit_embeds (known : Known) (s : CommitState) (q : Call)
    (h : CommitAllows project uuid writes s q) :
    TransactionAllows project uuid writes ⟨known, s⟩ q ∧
      ∀ a, TransactionState.next ⟨known, s⟩ q a = ⟨known, s.next q a⟩ := by
  refine ⟨.commit known h, fun a => ?_⟩
  cases h with
  | look => rfl
  | clock h =>
    rw [CommitState.next_now]
    cases s <;> rfl
  | drop h =>
    cases s with
    | looking => exact h.elim
    | _ => rfl
  | _ => rfl

/-- The client keeps to the protocol; when it returns, what it saw last has been
recorded before the commit began. -/
theorem transactionProgram_obeys (reads : List TransactionRead) :
    (transactionProgram project id reads writes).Obeys (transactionMonitor project uuid writes)
      (fun s r => ∀ outcomes results, r = .ok (outcomes, results) →
        (∃ row seen, s.commit = .done row seen) ∧ (lastSeen outcomes).Le s.known)
      ⟨fun _ => none, .looking⟩ := by
  refine (readAll_reading hid reads).bind (fun s outcomes hs => ?_) nofun
  obtain ⟨known, rfl, hlast⟩ := hs
  have hcommit : (commitTransaction project id writes).Obeys
      (transactionMonitor project uuid writes)
      (fun s r => s.known = known ∧ Committed s.commit r) ⟨known, .looking⟩ :=
    .embed (commit_embeds known) (fun s r h => ⟨rfl, h⟩) (commitTransaction_obeys hid)
  refine hcommit.bind (fun s results hs outcomes' results' h => ?_) nofun
  cases h
  exact ⟨hs.2, hs.1 ▸ hlast _ nofun⟩

end Protocol

/-! ## What holds of the client -/

/-- What a commit has seen. -/
def CommitState.seen : CommitState → Seen
  | .inside _ seen _ | .marked _ seen | .done _ seen => seen
  | .looking | .found _ | .dropped => []

variable {s : CommitState} {reads : StrMap (Option Version)} {path : DocumentPath}

variable {version : Option Version}

section Holds

variable {project : ProjectId} {uuid : Uuid} {writes : List Write} {known : Known}
  {db db' : Db Key.Row} {i : ℕ} {q : Stmt Key.Row} {a : q.Answer} {t : Txn Key.Row}
  {txn : Option (Txn Key.Row)} {batch : AList Key.Row} {seen : Seen}

/-- The read set has every known entry. -/
def Known.RecordedIn (known : Known) (reads : StrMap (Option Version)) : Prop :=
  ∀ key v, known key = some v → reads[key]? = some v

/-- The rows that were found are locked and still there. -/
def Held (db : Db Key.Row) (t : Txn Key.Row) (seen : Seen) : Prop :=
  ∀ path row, (path, some row) ∈ seen →
    .document path ∈ t.locked ∧ db.rows.lookup (.document path) = some row ∧
      DocumentRow.visible row = true

/-- What holds of the client's session in each state. -/
def ReadHolds (project : ProjectId) (uuid : Uuid) (writes : List Write) (db : Db Key.Row)
    (known : Known) : CommitState → Prop
  | .looking =>
    db.txns 0 = none ∧ ∀ row, db.rows.lookup (.transaction uuid) = some row →
      known.RecordedIn (TransactionRow.reads row)
  | .found row => db.txns 0 = none ∧ known.RecordedIn row.reads
  | .inside row seen n =>
    known.RecordedIn row.reads ∧
      ∃ t, db.txns 0 = some t ∧ (n = 0 → t.pending = ∅) ∧ Held db t seen
  | .marked row seen =>
    known.RecordedIn row.reads ∧ Verified project writes row.reads seen ∧
      ∃ t, db.txns 0 = some t ∧ Held db t seen
  | .done _ _ | .dropped => db.txns 0 = none

theorem ReadHolds.aligned (h : ReadHolds project uuid writes db known s) :
    s.Aligned db 0 := by
  cases s with
  | looking | found => exact h.1
  | inside row seen n => exact h.2.imp fun t ht => ht.1
  | marked row seen => exact h.2.2.imp fun t ht => ht.1
  | done | dropped => exact h

variable {Rel : (k : Key) → Option k.Row → k.Row → Prop}

/-- Locked rows stay as they are while others move. -/
theorem Held.step (h : Held db t seen) (hc : db.Consistent Rel) (hstep : db.Step i q a db')
    (hne : 0 ≠ i)
    (ht : db.txns 0 = some t) : Held db' t seen := by
  intro path row hmem
  obtain ⟨hlocked, hrow, hvisible⟩ := h path row hmem
  obtain ⟨-, hlookup⟩ := hc.lookup_of_locked hstep hne ht hlocked
  exact ⟨hlocked, hlookup.trans hrow, hvisible⟩

/-- … and while the client itself writes nothing to the store. -/
theorem Held.apply {t' : Txn Key.Row} (h : Held db t seen) (hlocked : t.locked ⊆ t'.locked) :
    Held (db.apply 0 txn ∅) t' seen := by
  intro path row hmem
  obtain ⟨hmem', hrow, hvisible⟩ := h path row hmem
  exact ⟨hlocked hmem', (lookup_apply_of_notMem (AList.notMem_empty _)).trans hrow, hvisible⟩

/-- A statement of another session that spares the transaction's row. -/
theorem ReadHolds.frame (h : ReadHolds project uuid writes db known s) (hc : db.Consistent Rel)
    (hstep : db.Step i q a db') (hne : 0 ≠ i)
    (hrow : db'.rows.lookup (.transaction uuid) = db.rows.lookup (.transaction uuid)) :
    ReadHolds project uuid writes db' known s := by
  have htxns := hstep.txns_ne hne
  cases s with
  | looking => exact ⟨htxns.trans h.1, fun row hr => h.2 row (hrow ▸ hr)⟩
  | found row => exact ⟨htxns.trans h.1, h.2⟩
  | inside row seen n =>
    obtain ⟨hknown, t, ht, hpending, hheld⟩ := h
    exact ⟨hknown, t, htxns.trans ht, hpending, hheld.step hc hstep hne ht⟩
  | marked row seen =>
    obtain ⟨hknown, hverified, t, ht, hheld⟩ := h
    exact ⟨hknown, hverified, t, htxns.trans ht, hheld.step hc hstep hne ht⟩
  | done row seen => exact htxns.trans h
  | dropped => exact htxns.trans h

/-- A transaction that has written nothing sees the committed rows. -/
theorem lookup_view_of_empty (h : t.pending = ∅) (k : Key) :
    (view db.rows (some t)).lookup k = db.rows.lookup k := by
  rw [lookup_view, show pendingRows (some t) = ∅ from h, AList.lookup_empty, Option.none_or]

variable {s' : CommitState}

/-- A statement of the client's commit. -/
theorem ReadHolds.move (h : ReadHolds project uuid writes db known s)
    (hmove : CommitMove project uuid writes db 0 q s s' txn batch) :
    ReadHolds project uuid writes (db.apply 0 txn batch) known s' := by
  cases hmove with
  | look hrow => exact ⟨txns_apply_self .., h.2 _ hrow⟩
  | expire hr => exact txns_apply_self ..
  | begin hproject hactive =>
    exact ⟨h.2, .empty, txns_apply_self .., fun _ => rfl, nofun⟩
  | @lock row seen t path r ht hr =>
    obtain ⟨hpending, hheld⟩ := of_txns h.2 ht
    refine ⟨h.1, _, txns_apply_self .., hpending, fun path' row' hmem => ?_⟩
    rcases List.mem_cons.mp hmem with heq | hmem
    · obtain ⟨rfl, hrow⟩ := Prod.mk.inj heq
      cases hrow
      rw [lookup_view_of_empty (hpending rfl)] at hr
      obtain ⟨hrow, hvisible⟩ := Option.filter_eq_some_iff.mp hr
      exact ⟨List.mem_cons_self .., (lookup_apply_of_notMem (AList.notMem_empty _)).trans hrow,
        hvisible⟩
    · exact hheld.apply (List.subset_cons_self _ _) path' row' hmem
  | @miss row seen t path ht hq hr =>
    obtain ⟨hpending, hheld⟩ := of_txns h.2 ht
    refine ⟨h.1, _, txns_apply_self .., hpending, fun path' row' hmem => ?_⟩
    rcases List.mem_cons.mp hmem with heq | hmem
    · cases heq
    · exact hheld.apply (List.Subset.refl _) path' row' hmem
  | store ht hwrite hfinal hq hv =>
    obtain ⟨hpending, hheld⟩ := of_txns h.2 ht
    exact ⟨h.1, _, txns_apply_self .., nofun,
      hheld.apply (List.subset_cons_self _ _)⟩
  | skip ht hwrite hdeletes =>
    obtain ⟨hpending, hheld⟩ := of_txns h.2 ht
    exact ⟨h.1, _, txns_apply_self .., nofun,
      hheld.apply (List.Subset.refl _)⟩
  | mark ht hverified hq hr =>
    obtain ⟨hpending, hheld⟩ := of_txns h.2 ht
    exact ⟨h.1, hverified, _, txns_apply_self .., hheld.apply (List.subset_cons_self _ _)⟩
  | markMissing ht hverified hq hr =>
    obtain ⟨hpending, hheld⟩ := of_txns h.2 ht
    exact ⟨h.1, hverified, _, txns_apply_self .., hheld.apply (List.Subset.refl _)⟩
  | commit ht hq => exact txns_apply_self ..
  | lose ht hq => exact txns_apply_self ..
  | drop => exact txns_apply_self ..

/-! ## Reading before the commit -/

theorem Known.RecordedIn.record (h : known.RecordedIn reads) (key : String)
    (version : Option Version) :
    Known.RecordedIn (update known key (some version)) (reads.insert key version) := by
  intro key' v hv
  rw [getElem?_insert]
  by_cases hkey : key' = key
  · subst hkey
    rw [update_self] at hv
    simpa using Option.some.inj hv
  · rw [update_of_ne hkey] at hv
    rw [if_neg (by simpa using Ne.symm hkey)]
    exact h key' v hv

/-- Without the entry it does not matter what is recorded there. -/
theorem Known.RecordedIn.forget (h : known.RecordedIn reads)
    (key : String) : Known.RecordedIn (update known key none) reads ∧
      ∀ version, Known.RecordedIn (update known key none) (reads.insert key version) := by
  have hne : ∀ {key' v}, update known key none key' = some v →
      key' ≠ key ∧ known key' = some v := by
    intro key' v hv
    have hkey : key' ≠ key := by
      rintro rfl
      rw [update_self] at hv
      cases hv
    rw [update_of_ne hkey] at hv
    exact ⟨hkey, hv⟩
  refine ⟨fun key' v hv => h key' v (hne hv).2, fun version key' v hv => ?_⟩
  rw [getElem?_insert, if_neg (by simpa using Ne.symm (hne hv).1)]
  exact h key' v (hne hv).2

/-- A statement that only reads. -/
theorem ReadHolds.read (h : ReadHolds project uuid writes db known .looking)
    (hquiet : (exec db.rows none q).2 = (none, ∅)) (hstep : db.Step 0 q a db') :
    ReadHolds project uuid writes db' known .looking := by
  have hrows : ReadHolds project uuid writes (db.apply 0 none ∅) known .looking := by
    refine ⟨txns_apply_self .., fun row hrow => h.2 row ?_⟩
    exact (lookup_apply_of_notMem (AList.notMem_empty _)).symm.trans hrow
  cases hstep with
  | done hfree =>
    rw [h.1, hquiet]
    exact hrows
  | failed detail => exact hrows
  | lost hfree detail =>
    rw [h.1, hquiet]
    exact hrows

/-- The statement that records a read. -/
theorem ReadHolds.record {p : TransactionRow → Bool} {key : String}
    (h : ReadHolds project uuid writes db known .looking)
    (hq : q = .update (.transaction uuid) p (record key version))
    (hstep : db.Step 0 q a db') :
    ReadHolds project uuid writes db' (known.note (.sql q) a) .looking := by
  obtain ⟨hidle, hrecorded⟩ := h
  subst hq
  -- the row after the statement has reached the store
  have hlookup : ∀ {old : TransactionRow} {txn},
      (db.apply 0 txn (AList.singleton (.transaction uuid) (old.record key version))).rows.lookup
        (.transaction uuid) = some (old.record key version) := by
    intro old txn
    rw [lookup_apply]
    exact congrArg (Option.or · _) (lookup_singleton_self ..)
  have hsame : ∀ {txn}, (db.apply 0 txn ∅).rows.lookup (.transaction uuid) =
      db.rows.lookup (.transaction uuid) := lookup_apply_of_notMem (AList.notMem_empty _)
  cases hstep with
  | failed detail =>
    rw [note_record_error]
    refine ⟨txns_apply_self .., fun row hrow => ?_⟩
    exact ((hrecorded row (hsame.symm.trans hrow)).forget key).1
  | done hfree =>
    rw [hidle]
    rcases hv : ((view db.rows none).lookup (.transaction uuid)).filter p with _ | old
    · rw [exec_update_none hv]
      exact ⟨txns_apply_self .., fun row hrow => hrecorded row (hsame.symm.trans hrow)⟩
    · rw [exec_update_some hv, note_record_ok]
      have hold := (lookup_view_none ..).symm.trans (Option.filter_eq_some_iff.mp hv).1
      refine ⟨txns_apply_self .., fun row hrow => ?_⟩
      obtain rfl := Option.some.inj (hlookup.symm.trans hrow)
      exact (hrecorded old hold).record key version
  | lost hfree detail =>
    rw [note_record_error, hidle]
    rcases hv : ((view db.rows none).lookup (.transaction uuid)).filter p with _ | old
    · rw [exec_update_none hv]
      refine ⟨txns_apply_self .., fun row hrow => ?_⟩
      exact ((hrecorded row (hsame.symm.trans hrow)).forget key).1
    · rw [exec_update_some hv]
      have hold := (lookup_view_none ..).symm.trans (Option.filter_eq_some_iff.mp hv).1
      refine ⟨txns_apply_self .., fun row hrow => ?_⟩
      obtain rfl := Option.some.inj (hlookup.symm.trans hrow)
      exact ((hrecorded old hold).forget key).2 version

/-- A document that the commit has not found was absent when it looked. -/
theorem ReadHolds.missed (h : ReadHolds project uuid writes db known s)
    (hmove : CommitMove project uuid writes db 0 q s s' txn batch) (hmem : (path, none) ∈ s'.seen) :
    (path, none) ∈ s.seen ∨
      (q = .selectForUpdate (.document path) DocumentRow.visible ∧ ¬ Present path db) := by
  cases hmove with
  | lock ht hr =>
    rcases List.mem_cons.mp hmem with heq | hmem
    · cases heq
    · exact .inl hmem
  | @miss row seen t path' ht hq hr =>
    rcases List.mem_cons.mp hmem with heq | hmem
    · cases heq
      rw [lookup_view_of_empty ((of_txns h.2 ht).1 rfl)] at hr
      refine .inr ⟨hq, ?_⟩
      rintro ⟨row, hrow, hvisible⟩
      rw [hrow, Option.filter_some, if_pos hvisible] at hr
      cases hr
    · exact .inl hmem
  | store ht hwrite hfinal hq hv => exact .inl hmem
  | skip ht hwrite hdeletes => exact .inl hmem
  | mark ht hverified hq hr => exact .inl hmem
  | markMissing ht hverified hq hr => exact .inl hmem
  | commit ht hq => exact .inl hmem
  | _ => exact nomatch hmem

end Holds

/-! ## Runs -/

/-- The results of the sessions: the client is the first. -/
abbrev HistoryResult : ℕ → Type
  | 0 => List ReadOutcome × List WriteResult
  | _ + 1 => Unit

/-- The client and the other sessions. -/
abbrev History : Type := Config Call.Answer (Db Key.Row) (fun _ => CoreError) HistoryResult

/-- The arguments of the client, and what the others do. -/
structure Setting where
  project : ProjectId
  transaction : Uuid
  reads : List TransactionRead
  writes : List Write
  others : ℕ → Adapter Unit

/-- Nobody has asked anything yet. -/
def Setting.start (x : Setting) (db : Db Key.Row) : History where
  state := db
  progs
    | 0 => transactionProgram x.project x.transaction.bytes x.reads x.writes
    | n + 1 => x.others n

/-- The call does not write the row of the transaction. -/
def SparesTransaction (uuid : Uuid) (q : Call) : Prop :=
  ∀ s, q = .sql s → s.Spares (.transaction uuid)

/-- When the client was about to check the document, it was absent. -/
def CheckedAbsent (start c : History) (path : DocumentPath) : Prop :=
  ∃ b k, Reach server (fun _ _ => True) start b ∧ Reach server (fun _ _ => True) b c ∧
    b.progs 0 = .call (.sql (.selectForUpdate (.document path) DocumentRow.visible)) k ∧
      ¬ Present path b.state

/-- What is watched of each session. -/
abbrev Watch : ℕ → Type
  | 0 => TransactionState
  | _ + 1 => Unit

/-- The client keeps to its protocol, the others spare its transaction. -/
def Setting.watch (x : Setting) : (i : ℕ) → Monitor Call.Answer (Watch i)
  | 0 => transactionMonitor x.project x.transaction x.writes
  | _ + 1 => ⟨fun _ q => SparesTransaction x.transaction q, fun _ _ _ => ()⟩

/-- What holds in every state of a run. -/
structure Setting.Inv (x : Setting) (start c : History) (g : (i : ℕ) → Watch i) :
    Prop where
  reached : Reach server (fun _ _ => True) start c
  consistent : c.state.Consistent fun _ _ _ => True
  spared : ∀ n, .transaction x.transaction ∉ pendingRows (c.state.txns (n + 1))
  holds : ReadHolds x.project x.transaction x.writes c.state (g 0).known (g 0).commit
  missed : ∀ path, (path, none) ∈ (g 0).commit.seen → CheckedAbsent start c path

variable {i : ℕ}

theorem CheckedAbsent.step {start c c' : History} (h : CheckedAbsent start c path)
    (hstep : Machine.Step server i c c') :
    CheckedAbsent start c' path := by
  obtain ⟨b, k, hb, hc, hprog, habsent⟩ := h
  exact ⟨b, k, hb, hc.tail ⟨i, trivial, hstep⟩, hprog, habsent⟩

section Runs

variable {x : Setting} {start c c' : History} {g : (i : ℕ) → Watch i}

variable {db' : Db Key.Row}

variable {progs : (i : ℕ) → Adapter (HistoryResult i)}

/-- A statement of another session. -/
theorem Setting.Inv.other (hinv : x.Inv start c g) {n : ℕ} {q : Stmt Key.Row} {a : q.Answer}
    (hq : q.Spares (.transaction x.transaction)) (hstep : c.state.Step (n + 1) q a db')
    (hlast : Machine.Step server (n + 1) c ⟨db', progs⟩) :
    x.Inv start ⟨db', progs⟩ (update g (n + 1) ()) := by
  have hg : update g (n + 1) () 0 = g 0 := update_of_ne (by omega) ..
  obtain ⟨txn, batch, rfl, hmoves⟩ := hstep.moves
  obtain ⟨hpending, hbatch⟩ := hmoves.spares hq (hinv.spared n)
  refine ⟨hinv.reached.tail ⟨n + 1, trivial, hlast⟩, ?_, fun m => ?_, ?_, ?_⟩
  · refine hinv.consistent.step (fun _ _ => trivial) ?_ hstep
    cases q <;> simp [Stmt.Respects]
  · by_cases hm : m = n
    · subst hm
      rw [txns_apply_self]
      exact hpending
    · rw [txns_apply_ne _ _ _ (by omega)]
      exact hinv.spared m
  · rw [hg]
    exact hinv.holds.frame hinv.consistent hstep (by omega) (lookup_apply_of_notMem hbatch)
  · rw [hg]
    exact fun path hmem => (hinv.missed path hmem).step hlast

variable {db : Db Key.Row} {known : Known} {q : Call}

/-- Where the client stands after one of its calls. -/
theorem TransactionAllows.holds {a : q.Answer}
    (hallows : TransactionAllows x.project x.transaction x.writes ⟨known, s⟩ q)
    (h : ReadHolds x.project x.transaction x.writes db known s) (hstep : server.step 0 q db a db') :
    ReadHolds x.project x.transaction x.writes db' (TransactionState.next ⟨known, s⟩ q a).known
        (TransactionState.next ⟨known, s⟩ q a).commit ∧
      ∀ path, (path, none) ∈ (TransactionState.next ⟨known, s⟩ q a).commit.seen →
        (path, none) ∈ s.seen ∨
          (q = .sql (.selectForUpdate (.document path) DocumentRow.visible) ∧
            ¬ Present path db) := by
  cases hstep with
  | @statement q a db db' hstatement =>
    cases hallows with
    | read known path => exact ⟨h.read rfl hstatement, nofun⟩
    | scan known pick => exact ⟨h.read rfl hstatement, nofun⟩
    | record known p key version =>
      exact ⟨h.record rfl hstatement, nofun⟩
    | commit known hcommit =>
      rw [(commit_embeds known s _ hcommit).2 a]
      obtain ⟨txn, batch, rfl, hmove⟩ := hcommit.moves h.aligned hstatement
      refine ⟨h.move hmove, fun path hmem => ?_⟩
      rcases h.missed hmove hmem with hmem | ⟨hq, habsent⟩
      · exact .inl hmem
      · exact .inr ⟨congrArg Call.sql hq, habsent⟩
  | @other q a db hother =>
    cases hallows with
    | clock known => exact ⟨h, nofun⟩
    | read | scan | record => exact absurd rfl (hother _)
    | commit known hcommit =>
      rw [(commit_embeds known s _ hcommit).2 a, hcommit.next_other hother]
      exact ⟨h, fun path hmem => .inl hmem⟩

/-- Whatever the client asks, the others' transactions stay as they are. -/
theorem server_step_frame {j : ℕ} {a : q.Answer} (hstep : server.step i q db a db')
    (hc : db.Consistent fun _ _ _ => True) (hne : j ≠ i) :
    db'.txns j = db.txns j ∧ db'.Consistent fun _ _ _ => True := by
  cases hstep with
  | other hother => exact ⟨rfl, hc⟩
  | @statement q a db db' hstatement =>
    refine ⟨hstatement.txns_ne hne, hc.step (fun _ _ => trivial) ?_ hstatement⟩
    cases q <;> simp [Stmt.Respects]

/-- A call of the client. -/
theorem Setting.Inv.client (hinv : x.Inv start c g) {k : q.Answer → Adapter (HistoryResult 0)}
    {a : q.Answer} (hprog : c.progs 0 = .call q k)
    (hallows : TransactionAllows x.project x.transaction x.writes (g 0) q)
    (hstep : server.step 0 q c.state a db') (hlast : Machine.Step server 0 c ⟨db', progs⟩) :
    x.Inv start ⟨db', progs⟩ (update g 0 ((g 0).next q a)) := by
  obtain ⟨hholds, hmissed⟩ := hallows.holds hinv.holds hstep
  refine ⟨hinv.reached.tail ⟨0, trivial, hlast⟩,
    (server_step_frame hstep hinv.consistent (Nat.succ_ne_zero 0)).2, fun n => ?_, ?_,
    fun path hmem => ?_⟩
  · rw [(server_step_frame hstep hinv.consistent (Nat.succ_ne_zero n)).1]
    exact hinv.spared n
  · rw [update_self]
    exact hholds
  · rw [update_self] at hmem
    rcases hmissed path hmem with hmem | ⟨rfl, habsent⟩
    · exact (hinv.missed path hmem).step hlast
    · exact ⟨c, k, hinv.reached, .single ⟨0, trivial, hlast⟩, hprog, habsent⟩

/-- Every step keeps what holds. -/
theorem Setting.Inv.step (hinv : x.Inv start c g) {k : q.Answer → Adapter (HistoryResult i)}
    {a : q.Answer} (hprog : c.progs i = .call q k) (hallows : (x.watch i).allows (g i) q)
    (hstep : server.step i q c.state a db') :
    x.Inv start ⟨db', update c.progs i (k a)⟩
      (update g i ((x.watch i).next (g i) q a)) := by
  have hlast : Machine.Step server i c ⟨db', update c.progs i (k a)⟩ :=
    .call hprog hstep
  cases i with
  | zero => exact hinv.client hprog hallows hstep hlast
  | succ n =>
    generalize hdb : c.state = db at hstep
    cases hstep with
    | @statement q a db db' hstatement =>
      subst hdb
      exact hinv.other (hallows q rfl) hstatement hlast
    | @other q a db hother =>
      subst hdb
      have hg : update g (n + 1) () 0 = g 0 := update_of_ne (by omega) ..
      refine ⟨hinv.reached.tail ⟨n + 1, trivial, hlast⟩, hinv.consistent, hinv.spared, ?_, ?_⟩
      · exact hg.symm ▸ hinv.holds
      · exact fun path hmem => (hinv.missed path (hg ▸ hmem)).step hlast

/-- How the sessions end: when the client returns, what it saw last was recorded before it
committed. -/
def Setting.Ends (i : ℕ) : Watch i → Except CoreError (HistoryResult i) → Prop :=
  match i with
  | 0 => fun s r => ∀ outcomes results, r = .ok (outcomes, results) →
      (∃ row seen, s.commit = .done row seen) ∧ (lastSeen outcomes).Le s.known
  | _ + 1 => fun _ _ => True

/-- What holds along every run. -/
theorem Setting.invariant (hidle : ∀ i, db.txns i = none)
    (hothers : ∀ n, (x.others n).Only (SparesTransaction x.transaction))
    (hreach : Reach server (fun _ _ => True) (x.start db) c) :
    ∃ g, x.Inv (x.start db) c g ∧ ∀ i, (c.progs i).Obeys (x.watch i) (Setting.Ends i) (g i) := by
  let g₀ : (i : ℕ) → Watch i := fun
    | 0 => ⟨fun _ => none, .looking⟩
    | _ + 1 => ()
  have hprogs : ∀ i, ((x.start db).progs i).Obeys (x.watch i) (Setting.Ends i) (g₀ i) := by
    intro i
    cases i with
    | zero =>
      have huuid : uuidFromBytes x.transaction.bytes = .ok x.transaction :=
        dif_pos x.transaction.length_eq
      exact transactionProgram_obeys (fun u hu => Except.ok.inj (hu.symm.trans huuid)) x.reads
    | succ n =>
      have hobeys : (x.others n).Obeys (x.watch (n + 1)) (fun _ _ => True) () :=
        Prog.Only.obeys (I := fun _ => True) (fun _ q _ hq => ⟨hq, fun _ => trivial⟩)
          (hothers n) trivial
      exact hobeys
  have hinit : x.Inv (x.start db) (x.start db) g₀ := by
    refine ⟨.refl, .of_idle hidle, fun n => ?_, ⟨hidle 0, nofun⟩,
      nofun⟩
    rw [show (x.start db).state.txns (n + 1) = none from hidle (n + 1)]
    exact AList.notMem_empty _
  exact Reach.invariant x.watch Setting.Ends (x.Inv (x.start db)) hprogs hinit
    (fun c g i q k a db' _ _ hprog hallows hinv hstep => hinv.step hprog hallows hstep) hreach

/-- The call by which the commit ends is its `COMMIT`. -/
theorem TransactionAllows.marked_of_done {a : q.Answer} {row : TransactionRow} {seen : Seen}
    (hallows : TransactionAllows x.project x.transaction x.writes ⟨known, s⟩ q)
    (h : ReadHolds x.project x.transaction x.writes db known s) (hstep : server.step 0 q db a db')
    (hdone : (TransactionState.next ⟨known, s⟩ q a).commit = .done row seen) :
    s = .marked row seen ∧ (TransactionState.next ⟨known, s⟩ q a).known = known := by
  cases hallows with
  | clock | read | scan | record => cases hdone
  | commit known hcommit =>
    rw [(commit_embeds known s _ hcommit).2 a] at hdone ⊢
    refine ⟨?_, rfl⟩
    cases hstep with
    | @statement q a db db' hstatement =>
      obtain ⟨txn, batch, rfl, hmove⟩ := hcommit.moves h.aligned hstatement
      rw [show s.next (.sql q) a = .done row seen from hdone] at hmove
      exact hmove.marked_of_done
    | @other q a db hother =>
      have hunfinished := hcommit.unfinished
      rw [show s = .done row seen from (hcommit.next_other hother a).symm.trans hdone]
        at hunfinished
      exact hunfinished.elim

/-- What the commit verified for an entry of the read set. -/
theorem Verified.seen_of_known {project : ProjectId} {writes : List Write} {seen : Seen}
    (hverified : Verified project writes reads seen) (hknown : known.RecordedIn reads)
    (hproject : path.projectId = project) (hid : '/' ∉ path.documentId.toList)
    (hv : known (readKey path) = some version) :
    ∃ row, (path, row) ∈ seen ∧ row.map DocumentRow.version = version := by
  have hmem : (readKey path, version) ∈ reads.toList :=
    mem_toList_iff_getElem?_eq_some.mpr (hknown _ _ hv)
  have hread := hverified.read _ hmem path.collectionPath path.documentId
    (Text.rsplitOnce_append hid)
  subst hproject
  exact hread

/-- **The last reads are validated.** The step is the one by which the commit succeeds, and
`c` the state it finds. -/
theorem last_reads_validated {db : Db Key.Row} (hidle : ∀ i, db.txns i = none)
    (hothers : ∀ n, (x.others n).Only (SparesTransaction x.transaction))
    (hreach : Reach server (fun _ _ => True) (x.start db) c)
    (hstep : Machine.Step server 0 c c') {outcomes : List ReadOutcome}
    {results : List WriteResult} (hok : c'.progs 0 = .ok (outcomes, results))
    {path : DocumentPath} (hproject : path.projectId = x.project)
    (hid : '/' ∉ path.documentId.toList) :
    (∀ version, lastSeen outcomes (readKey path) = some (some version) →
      ∃ row, c.state.rows.lookup (.document path) = some row ∧
        DocumentRow.visible row = true ∧ DocumentRow.version row = version) ∧
      (lastSeen outcomes (readKey path) = some none → CheckedAbsent (x.start db) c path) := by
  obtain ⟨g, hinv, hprogs⟩ := Setting.invariant hidle hothers hreach
  have hobeys := hprogs 0
  cases hstep with
  | @call q k a db' hprog hmachine =>
    rw [hprog] at hobeys
    obtain ⟨hallows, hnext⟩ := hobeys
    have hk : k a = .ok (outcomes, results) :=
      (update_self (β := fun i => Adapter (HistoryResult i)) 0 (k a) c.progs).symm.trans hok
    have hend := hnext a
    rw [hk] at hend
    obtain ⟨⟨row, seen, hdone⟩, hle⟩ := hend outcomes results rfl
    obtain ⟨hs, hknown⟩ := hallows.marked_of_done hinv.holds hmachine hdone
    have hholds := hinv.holds
    have hmissed := hinv.missed
    rw [hs] at hholds hmissed
    obtain ⟨hrecorded, hverified, t, -, hheld⟩ := hholds
    refine ⟨fun version hlast => ?_, fun hlast => ?_⟩
    · obtain ⟨row', hmem, hversion⟩ := hverified.seen_of_known hrecorded hproject hid
        ((congrFun hknown _).symm.trans (hle _ _ hlast))
      obtain ⟨found, rfl, hfound⟩ := Option.map_eq_some_iff.mp hversion
      obtain ⟨-, hrow, hvisible⟩ := hheld path found hmem
      exact ⟨found, hrow, hvisible, hfound⟩
    · obtain ⟨row', hmem, hversion⟩ := hverified.seen_of_known hrecorded hproject hid
        ((congrFun hknown _).symm.trans (hle _ _ hlast))
      rw [Option.map_eq_none_iff.mp hversion] at hmem
      exact hmissed path hmem

end Runs

/-! ## Runs written out -/

/-- The read returned this version of the document. -/
def ReadOutcome.returned (path : DocumentPath) (version : Option Version) (outcome : ReadOutcome) :
    Bool :=
  match outcome.2 with
  | .ok observation => decide ((path, version) ∈ observation)
  | .error _ => false

/-- A document that is read and rewritten. -/
def ledger : DocumentPath := ⟨demo, "notes", "ledger"⟩

/-- An active transaction, and the document as it was first written. -/
def ledgerStore : Db Key.Row where
  rows := (AList.singleton (.document ledger) (DocumentRow.fresh ∅ ⟨0, 0⟩)).insert
    (.transaction (uuidOf 1)) (⟨demo, .active, ⟨0, 0⟩, ∅⟩ : TransactionRow)
  txns _ := none
  log := []

/-- A client that reads the document twice; the others write it. -/
def rereading : Setting where
  project := demo
  transaction := uuidOf 1
  reads := [.get ledger, .get ledger]
  writes := []
  others _ := do
    let _ ← updateDocument ledger ∅ none

theorem rereading_others (n : ℕ) :
    (rereading.others n).Only (SparesTransaction rereading.transaction) := by
  have hupsert (now : Timestamp) : SparesTransaction rereading.transaction
      (.sql (.upsert (.document ledger) (DocumentRow.fresh ∅ now.stored)
        (DocumentRow.overwrite ∅ now.stored))) := by
    rintro s ⟨⟩ ⟨⟩
  refine .bind ⟨nofun, fun now => ?_⟩ fun _ => trivial
  exact (sql_only (hupsert now)).bind fun row => ⟨nofun, fun _ => trivial⟩

/-- The client has committed, and what its reads returned passes the test. -/
def committedWith (c : History) (test : List ReadOutcome → Bool) : Bool :=
  match c.progs 0 with
  | .ok (outcomes, _) => test outcomes
  | _ => false

/-- The client commits alone: at its `COMMIT` the document has the version it read. -/
theorem last_reads_validated_ledger :
    ∃ b c' : History, Reach server (fun _ _ => True) (rereading.start ledgerStore) b ∧
      Machine.Step server 0 b c' ∧ ∃ row, b.state.rows.lookup (.document ledger) = some row ∧
        DocumentRow.visible row = true ∧ DocumentRow.version row = 1 := by
  have hrun : ((rereading.start ledgerStore).follow (fun _ _ => true) (serve .still 2)
      (List.replicate 12 0)).any (fun b =>
        (b.follow (fun _ _ => true) (serve .still 2) [0]).any fun c' => committedWith c' fun outcomes =>
          decide (lastSeen outcomes (readKey ledger) = some (some 1))) = true := by
    decide
  obtain ⟨b, c', hreach, hstep, hcheck⟩ := step_of_schedule (fun _ _ => rfl) hrun
  rw [committedWith] at hcheck
  split at hcheck
  · rename_i outcomes results hok
    exact ⟨b, c', hreach, hstep, (last_reads_validated (fun _ => rfl) rereading_others hreach hstep
      hok rfl (by decide)).1 1 (of_decide_eq_true hcheck)⟩
  · cases hcheck

/-- Between the two reads the document is rewritten. The commit compares only what the second
read returned, and succeeds. -/
theorem reread_hides_change :
    ∃ (b c' : History) (outcomes : List ReadOutcome) (results : List WriteResult) (row : DocumentRow),
      Reach server (fun _ _ => True) (rereading.start ledgerStore) b ∧
        Machine.Step server 0 b c' ∧ c'.progs 0 = .ok (outcomes, results) ∧
          (∃ outcome ∈ outcomes, outcome.returned ledger (some 1) = true) ∧
            b.state.rows.lookup (.document ledger) = some row ∧ row.version = 2 := by
  have hrun : ((rereading.start ledgerStore).follow (fun _ _ => true) (serve .still 2)
      ([0, 0, 0, 1, 1] ++ List.replicate 9 0)).any (fun b =>
        (b.follow (fun _ _ => true) (serve .still 2) [0]).any fun c' => committedWith c' fun outcomes =>
          outcomes.any (·.returned ledger (some 1)) &&
            (b.state.rows.lookup (.document ledger)).any fun row =>
              decide (DocumentRow.version row = 2)) = true := by
    decide
  obtain ⟨b, c', hreach, hstep, hcheck⟩ := step_of_schedule (fun _ _ => rfl) hrun
  rw [committedWith] at hcheck
  split at hcheck
  · rename_i outcomes results hok
    obtain ⟨hreturned, hversion⟩ := Bool.and_eq_true_iff.mp hcheck
    obtain ⟨row, hrow, hversion⟩ := (Option.any_eq_true ..).mp hversion
    exact ⟨b, c', outcomes, results, row, hreach, hstep, hok, List.any_eq_true.mp hreturned, hrow,
      of_decide_eq_true hversion⟩
  · cases hcheck

end Embyr
