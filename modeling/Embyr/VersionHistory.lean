import Embyr.World
import Embyr.Footprint

/-!
# Versions of a document

Clients that each send any list of requests to the storage adapter, their statements
interleaved on one database.

* `StorageRequest`, `clientProgram` — the requests, and a client that sends one after another.
* `reach_lookup` — along a run a committed row changes only as a relation allows that
  every statement respects.
* `versions_never_repeat` — each change gives the row of a document a version above all
  earlier ones, so a version determines the row.
-/

namespace Embyr

open Program ReadCommitted

/-! ## Clients -/

/-- A request to the storage adapter. -/
inductive StorageRequest where
  | create (path : DocumentPath) (fields : Fields)
  | update (path : DocumentPath) (fields : Fields) (precondition : Option WritePrecondition)
  | delete (path : DocumentPath) (precondition : Option WritePrecondition)
  | get (path : DocumentPath) (transaction : Option TransactionId)
  | query (engine : QueryEngine) (collection : CollectionPath) (structured : StructuredQuery)
      (transaction : Option TransactionId)
  | begin (project : ProjectId)
  | commit (project : ProjectId) (transaction : TransactionId) (writes : List Write)
  | rollback (project : ProjectId) (transaction : TransactionId)

/-- The function that serves a request; what it returns does not matter here. -/
def StorageRequest.program : StorageRequest → Adapter Unit
  | .create path fields => createDocument path fields >>= fun _ => .ok ()
  | .update path fields precondition =>
    updateDocument path fields precondition >>= fun _ => .ok ()
  | .delete path precondition => deleteDocument path precondition
  | .get path transaction => getDocument path transaction >>= fun _ => .ok ()
  | .query engine collection structured transaction =>
    runQuery engine collection structured transaction >>= fun _ => .ok ()
  | .begin project => beginTransaction project >>= fun _ => .ok ()
  | .commit project transaction writes =>
    commitTransaction project transaction writes >>= fun _ => .ok ()
  | .rollback project transaction => rollbackTransaction project transaction

/-- A client that sends its requests in order, whether or not they succeed. -/
def clientProgram (requests : List StorageRequest) : Adapter Unit :=
  Prog.forEach (fun request =>
    (request.program.attempt : Adapter (Except CoreError Unit)) >>= fun _ => .ok ()) requests

/-- The clients of the storage adapter. -/
abbrev Clients : Type :=
  Config Call.Answer (Db Key.Row) (fun _ => CoreError) fun _ => Unit

/-- No client has sent anything yet. -/
def Clients.start (requests : ℕ → List StorageRequest) (db : Db Key.Row) : Clients :=
  ⟨db, fun i => clientProgram (requests i)⟩

/-- Every document is in reach. -/
def anywhere : DocumentPath → Prop := fun _ => True

theorem StorageRequest.calls (request : StorageRequest) :
    request.program.Only (ServerCall anywhere) := by
  have hany : ∀ path, anywhere path := fun _ => trivial
  have hspans : ∀ project, Spans anywhere project := fun _ path _ => hany path
  have hdone : ∀ {R : Type} {p : Adapter R}, p.Only (ServerCall anywhere) →
      (p >>= fun _ => (.ok () : Adapter Unit)).Only (ServerCall anywhere) :=
    fun h => h.bind fun _ => trivial
  cases request with
  | create path fields => exact hdone (createDocument_calls (hany path) fields)
  | update path fields precondition =>
    exact hdone (updateDocument_calls (hany path) fields precondition)
  | delete path precondition => exact deleteDocument_calls (hany path) precondition
  | get path transaction => exact hdone (getDocument_calls (hany path) transaction)
  | query engine collection structured transaction =>
    exact hdone (runQuery_calls (hspans _) _ structured transaction)
  | begin project => exact hdone (beginTransaction_only served project)
  | commit project transaction writes =>
    exact hdone (commitTransaction_only served (hspans project) (fun write _ => hany write.path)
      transaction)
  | rollback project transaction => exact rollbackTransaction_calls project transaction

theorem clientProgram_calls (requests : List StorageRequest) :
    (clientProgram requests).Only (ServerCall anywhere) :=
  .forEach fun request _ => request.calls.attempt.bind fun _ => trivial

/-! ## Rows along a run -/

section Runs

variable {ε R : ℕ → Type} {guard : Config Call.Answer (Db Key.Row) ε R → ℕ → Prop}
  {Rel : (k : Key) → Option k.Row → k.Row → Prop} {P : Call → Prop}
  {c c' : Config Call.Answer (Db Key.Row) ε R}

/-- What sessions that ask only `P` keep. -/
structure Orderly (Rel : (k : Key) → Option k.Row → k.Row → Prop) (P : Call → Prop)
    (c : Config Call.Answer (Db Key.Row) ε R) : Prop where
  consistent : c.state.Consistent Rel
  calls : ∀ i, (c.progs i).Only P

variable (htrans : ∀ {k o v w}, Rel k o v → Rel k (some v) w → Rel k o w)
  (hrespects : ∀ q, P (.sql q) → q.Respects Rel)

include htrans hrespects

/-- One step keeps the sessions orderly and changes a row only as `Rel` allows. -/
theorem Orderly.step {i : ℕ} (h : Orderly Rel P c) (hstep : Machine.Step server i c c') :
    Orderly Rel P c' ∧ ∀ k, c'.state.rows.lookup k = c.state.rows.lookup k ∨
      ∃ v, c'.state.rows.lookup k = some v ∧ Rel k (c.state.rows.lookup k) v := by
  cases hstep with
  | @call q k a s' hprog hmachine =>
    have hcall : Prog.Only P (.call q k) := hprog ▸ h.calls i
    have hcalls : ∀ j, (Function.update c.progs i (k a) j).Only P := by
      intro j
      by_cases hj : j = i
      · subst hj
        rw [Function.update_self]
        exact hcall.2 a
      · rw [Function.update_of_ne hj]
        exact h.calls j
    generalize hdb : c.state = db at hmachine
    cases hmachine with
    | statement hstatement =>
      have hq := hrespects _ hcall.1
      have hc : db.Consistent Rel := hdb ▸ h.consistent
      exact ⟨⟨hc.step htrans hq hstatement, hcalls⟩, hc.lookup_step htrans hq hstatement⟩
    | other hother => exact ⟨⟨hdb ▸ h.consistent, hcalls⟩, fun k => .inl rfl⟩

theorem Orderly.reach (h : Orderly Rel P c) (hreach : Reach server guard c c') :
    Orderly Rel P c' := by
  induction hreach with
  | refl => exact h
  | tail _ hlast ih =>
    obtain ⟨i, -, hstep⟩ := hlast
    exact (ih.step htrans hrespects hstep).1

/-- Along a run a row changes only as `Rel` allows. -/
theorem reach_lookup (h : Orderly Rel P c) (hreach : Reach server guard c c') (k : Key) :
    c'.state.rows.lookup k = c.state.rows.lookup k ∨
      ∃ v, c'.state.rows.lookup k = some v ∧ Rel k (c.state.rows.lookup k) v := by
  induction hreach with
  | refl => exact .inl rfl
  | tail hreach hlast ih =>
    obtain ⟨i, -, hstep⟩ := hlast
    rcases ((h.reach htrans hrespects hreach).step htrans hrespects hstep).2 k with
      hsame | ⟨v, hv, hrel⟩
    · rw [hsame]
      exact ih
    · refine .inr ⟨v, hv, ?_⟩
      rcases ih with hsame | ⟨w, hw, hrel'⟩
      · rw [← hsame]
        exact hrel
      · rw [hw] at hrel
        exact htrans hrel' hrel

end Runs

/-! ## Versions -/

/-- A document's row is replaced only by one with a higher version. -/
def Rises : (k : Key) → Option k.Row → k.Row → Prop
  | .document _, old, new => ∀ row, old = some row → DocumentRow.version row < DocumentRow.version new
  | .transaction _, _, _ => True

theorem Rises.trans {k : Key} {old : Option k.Row} {mid new : k.Row} (h : Rises k old mid)
    (h' : Rises k (some mid) new) : Rises k old new := by
  cases k with
  | document path => exact fun row hrow => (h row hrow).trans (h' mid rfl)
  | transaction id => trivial

/-- Every statement of the server lets versions rise. -/
theorem ServerCall.rises {S : DocumentPath → Prop} {q : Stmt Key.Row}
    (h : ServerCall S (.sql q)) : q.Respects Rises := by
  have hnext : ∀ row : DocumentRow, row.version < row.version + 1 := fun row => lt_add_one _
  have hsucc : ∀ {old : DocumentRow} {row}, some old = some row → row.version < old.version + 1 :=
    fun h => Option.some.inj h ▸ hnext _
  cases h with
  | off h => cases h
  | select | lock | scan => trivial
  | insert h fields now => exact nofun
  | upsert h fields now => exact ⟨nofun, fun old row hrow => hsucc hrow⟩
  | overwrite | remove => exact fun old _ row hrow => hsucc hrow
  | selectTransaction | insertTransaction => trivial
  | updateTransaction id p f => exact fun _ _ => trivial
  | begin | commit | rollback => trivial

/-- The row of a document that a `SELECT` sees outside a transaction. -/
def committedRow (c : Clients) (path : DocumentPath) : Option DocumentRow :=
  c.state.rows.lookup (.document path)

section History

variable {requests : ℕ → List StorageRequest} {db : Db Key.Row}
  {guard : Clients → ℕ → Prop} {b c c' : Clients} {path : DocumentPath}

/-- Whatever the clients have sent so far. -/
theorem clients_orderly (hidle : ∀ i, db.txns i = none)
    (h : Reach server guard (Clients.start requests db) c) :
    Orderly Rises (ServerCall anywhere) c := by
  refine Orderly.reach Rises.trans (fun q hq => hq.rises) ⟨.of_idle hidle, fun i => ?_⟩ h
  exact clientProgram_calls (requests i)

/-- From one moment to a later one, a row stays or has a higher version. -/
theorem version_rises (hb : Orderly Rises (ServerCall anywhere) b) (hc : Reach server guard b c)
    {old : DocumentRow} (hold : committedRow b path = some old) :
    ∃ new, committedRow c path = some new ∧ (new = old ∨ old.version < new.version) := by
  rcases reach_lookup Rises.trans (fun q hq => hq.rises) hb hc (.document path) with
    hsame | ⟨new, hnew, hrises⟩
  · exact ⟨old, hsame.trans hold, .inl rfl⟩
  · exact ⟨new, hnew, .inr (hrises old hold)⟩

/-- **Versions never repeat.** `b` comes before `c` in a run of the clients: a step from
`c` that changes the row of a document gives it a version above the one it had in `b`, and
two reads, in `b` and in `c`, that find the same version find the same document. -/
theorem versions_never_repeat (hidle : ∀ i, db.txns i = none)
    (hb : Reach server (fun _ _ => True) (Clients.start requests db) b)
    (hc : Reach server (fun _ _ => True) b c) :
    (∀ i c', Machine.Step server i c c' → ∀ path old new,
      committedRow b path = some old → committedRow c' path = some new →
        committedRow c' path ≠ committedRow c path → old.version < new.version) ∧
      ∀ path row row',
        (exec b.state.rows none (.select (.document path))).1 = .ok (some row) →
        (exec c.state.rows none (.select (.document path))).1 = .ok (some row') →
          DocumentRow.version row = DocumentRow.version row' →
            DocumentRow.fields row = DocumentRow.fields row' ∧
              DocumentRow.deleted row = DocumentRow.deleted row' := by
  have horderly := clients_orderly hidle hb
  constructor
  · intro i c' hstep path old new hold hnew hchanged
    obtain ⟨mid, hmid, hrises⟩ := version_rises horderly hc hold
    have hlast : Reach server (fun _ _ => True) c c' := .single ⟨i, trivial, hstep⟩
    obtain ⟨new', hnew', hrises'⟩ :=
      version_rises (horderly.reach Rises.trans (fun q hq => hq.rises) hc) hlast hmid
    obtain rfl := Option.some.inj (hnew.symm.trans hnew')
    rcases hrises' with rfl | hlt
    · exact absurd (hnew.trans hmid.symm) hchanged
    · rcases hrises with rfl | hlt'
      · exact hlt
      · exact hlt'.trans hlt
  · intro path row row' hrow hrow' hversion
    have hold : committedRow b path = some row :=
      (lookup_view_none ..).symm.trans (Except.ok.inj hrow)
    have hnew : committedRow c path = some row' :=
      (lookup_view_none ..).symm.trans (Except.ok.inj hrow')
    obtain ⟨new, hnew', hrises⟩ := version_rises horderly hc hold
    obtain rfl := Option.some.inj (hnew.symm.trans hnew')
    rcases hrises with rfl | hlt
    · exact ⟨rfl, rfl⟩
    · exact absurd hversion hlt.ne

end History

/-- A document of the demo project. -/
def memo : DocumentPath := ⟨demo, "notes", "memo"⟩

/-- The document, written once. -/
def oneMemo : Db Key.Row where
  rows := AList.singleton (.document memo) (DocumentRow.fresh ∅ ⟨0, 0⟩)
  txns _ := none
  log := []

/-- A client that deletes the document and writes it again. -/
def rewriting : ℕ → List StorageRequest := fun _ => [.delete memo none, .update memo ∅ none]

/-- After the delete the row has its second version, and whatever changes it next leaves a
version above the first. -/
theorem versions_never_repeat_memo :
    ∃ c : Clients, Reach server (fun _ _ => True) (Clients.start rewriting oneMemo) c ∧
      (committedRow c memo).map DocumentRow.version = some 2 ∧
        ∀ i c', Machine.Step server i c c' → ∀ new, committedRow c' memo = some new →
          committedRow c' memo ≠ committedRow c memo → 1 < new.version := by
  have hrun : ((Clients.start rewriting oneMemo).follow (fun _ _ => true)
      (serve .still 1) (List.replicate 4 0)).any
        (fun c => decide ((committedRow c memo).map DocumentRow.version = some 2)) = true := by
    decide
  obtain ⟨c, hreach, hcheck⟩ := reach_of_schedule (fun _ => trivial) (fun _ _ => rfl) hrun
  refine ⟨c, hreach, of_decide_eq_true hcheck, fun i c' hstep new hnew hchanged => ?_⟩
  exact (versions_never_repeat (fun _ => rfl) .refl hreach).1 i c' hstep memo
    (DocumentRow.fresh ∅ ⟨0, 0⟩) new rfl hnew hchanged

end Embyr
