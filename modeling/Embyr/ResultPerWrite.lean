import Embyr.WriteHandlers
import Embyr.World

/-!
# One result per write

`commit_transaction` reports one result for each write it is given, in their order. The
messages of a request lose their place before that: `translate_writes_for_commit` leaves
out those without an operation.

* `commitTransaction_yields` — the storage adapter's results, write by write;
* `one_result_per_write_iff` — the results of `Commit` and of a message of the `Write` stream
  stand beside the request's writes exactly when each of these has an operation.
-/

namespace Embyr

open Program ReadCommitted List

/-! ## What a result tells -/

/-- The result is that of the write: at its time, the write had these values on some stored
document. -/
def Write.Reports (write : Write) (result : WriteResult) : Prop :=
  ∃ stored final, write.effect result.updateTime stored = .ok (final, result.transformResults)

/-- The message has an operation, and the result is that of the write it decodes to. -/
def ProtoWrite.Describes (message : ProtoWrite) (result : WriteResult) : Prop :=
  ∃ operation write proposed, message.operation = some operation ∧
    operation.decode message.currentDocument = .ok (write, proposed) ∧ write.Reports result

/-- One result per message, each describing the message at its place. -/
def Aligned (messages : List ProtoWrite) (results : List WriteResult) : Prop :=
  List.Forall₂ ProtoWrite.Describes messages results

/-- The messages that are not left out. -/
def ProtoWrite.hasOperation (message : ProtoWrite) : Bool := message.operation.isSome

/-! ## The storage adapter -/

theorem applyWrite_yields (now : Timestamp) (write : Write) (locked : Option Fields) :
    (applyWrite now write locked).Yields write.Reports := by
  refine .bind (.ofExcept fun effect heffect => heffect) fun effect heffect => ?_
  refine .bind (.of_forall (fun _ => trivial) _) fun _ _ => ?_
  exact ⟨locked.getD ∅, effect.1, heffect⟩

/-- The apply loop, over writes that are paired with what was locked for them. -/
theorem applyWrites_yields (now : Timestamp) {writes : List Write} {locked : List (Option Fields)}
    (hlength : writes.length = locked.length) :
    (Prog.mapEach (fun w => applyWrite now w.1 w.2) (writes.zip locked)).Yields
      fun results => Forall₂ Write.Reports writes results := by
  have hloop : (Prog.mapEach (fun w => applyWrite now w.1 w.2) (writes.zip locked)).Yields
      fun results => Forall₂ (fun w result => Write.Reports w.1 result) (writes.zip locked)
        results :=
    .mapEach_forall₂ fun w _ => applyWrite_yields now w.1 w.2
  have hfst : (writes.zip locked).map Prod.fst = writes :=
    map_fst_zip (Nat.le_of_eq hlength)
  refine hloop.mono fun results hresults => ?_
  rw [← hfst, forall₂_map_left_iff]
  exact hresults

theorem inTransaction_yields {R : Type} {post : R → Prop} {body : Adapter R}
    (h : body.Yields post) : (inTransaction body).Yields post := by
  refine .bind (.of_forall (fun _ => trivial) _) fun _ _ => ?_
  refine h.attempt.bind fun x hx => ?_
  rcases x with e | r
  · exact fun _ => trivial
  · exact .bind (.of_forall (fun _ => trivial) _) fun _ _ => hx r rfl

theorem performWrites_yields (uuid : Uuid) (writes : List Write) :
    (performWrites uuid writes).Yields fun results => Forall₂ Write.Reports writes results := by
  have hlocked : (Prog.mapEach lockField writes).Yields fun locked =>
      Forall₂ (fun _ _ => True) writes locked :=
    .mapEach_forall₂ fun write _ => .of_forall (fun _ => trivial) _
  refine hlocked.bind fun locked hlocked => ?_
  refine .bind (.of_forall (fun _ => trivial) _) fun now _ => ?_
  refine (applyWrites_yields now hlocked.length_eq).bind fun results hresults => ?_
  exact .bind (.of_forall (fun _ => trivial) _) fun _ _ => hresults

/-- Whatever the database answers, a commit that succeeds reports on its writes in order. -/
theorem commitTransaction_yields (project : ProjectId) (transactionId : TransactionId)
    (writes : List Write) :
    (commitTransaction project transactionId writes).Yields fun results =>
      Forall₂ Write.Reports writes results := by
  refine .bind (.of_forall (fun _ => trivial) _) fun uuid _ => ?_
  refine .bind (.of_forall (fun _ => trivial) _) fun row _ => ?_
  split
  · trivial
  · split
    · trivial
    · refine .bind (.of_forall (fun _ => trivial) _) fun now _ => ?_
      split
      · exact fun _ => trivial
      · refine inTransaction_yields ?_
        exact .bind (.of_forall (fun _ => trivial) _) fun _ _ =>
          performWrites_yields uuid writes

/-! ## The translation -/

/-- The write is the one the message decodes to. -/
def ProtoWrite.Becomes (message : ProtoWrite) (write : Write) : Prop :=
  ∃ operation proposed, message.operation = some operation ∧
    operation.decode message.currentDocument = .ok (write, proposed)

theorem translateOneWriteForCommit_yields (project : ProjectId) (identity : Option AuthContext)
    (message : ProtoWrite) :
    (translateOneWriteForCommit project identity message).Yields fun write? =>
      write?.isSome = message.hasOperation ∧ ∀ write ∈ write?, message.Becomes write := by
  rw [translateOneWriteForCommit, ProtoWrite.hasOperation]
  rcases hoperation : message.operation with _ | operation
  · exact ⟨rfl, nofun⟩
  · refine .bind (.ofExcept fun decoded hdecode => hdecode) fun decoded hdecode => ?_
    refine .bind (.of_forall (fun _ => trivial) _) fun _ _ => ⟨rfl, ?_⟩
    intro write hwrite
    cases hwrite
    exact ⟨operation, decoded.2, hoperation, hdecode⟩

/-- The writes that are left are those of the messages with an operation, in order. -/
theorem filterMap_becomes {messages : List ProtoWrite} {writes : List (Option Write)}
    (h : Forall₂ (fun message write? => Option.isSome write? = message.hasOperation ∧
      ∀ write ∈ write?, message.Becomes write) messages writes) :
    Forall₂ ProtoWrite.Becomes (messages.filter ProtoWrite.hasOperation)
      (writes.filterMap id) := by
  induction h with
  | nil => exact Forall₂.nil
  | @cons message write? messages writes hhead hrest ih =>
    obtain ⟨hsome, hbecomes⟩ := hhead
    rcases write? with _ | write
    · rw [filter_cons_of_neg (by simp [← hsome])]
      exact ih
    · rw [filter_cons_of_pos hsome.symm]
      exact Forall₂.cons (hbecomes write rfl) ih

theorem translateWritesForCommit_yields (project : ProjectId) (identity : Option AuthContext)
    (messages : List ProtoWrite) :
    (translateWritesForCommit project identity messages).Yields fun writes =>
      Forall₂ ProtoWrite.Becomes (messages.filter ProtoWrite.hasOperation) writes := by
  refine .bind (.mapEach_forall₂ fun message _ =>
    translateOneWriteForCommit_yields project identity message) fun writes hwrites => ?_
  exact filterMap_becomes hwrites

/-! ## Side by side with the request -/

/-- The results of the messages with an operation, in order. -/
theorem describes_of_becomes {messages : List ProtoWrite} {writes : List Write}
    {results : List WriteResult} (hwrites : Forall₂ ProtoWrite.Becomes messages writes)
    (hresults : Forall₂ Write.Reports writes results) : Aligned messages results := by
  induction hwrites generalizing results with
  | nil =>
    cases hresults
    exact Forall₂.nil
  | cons hhead hrest ih =>
    cases hresults with
    | cons hresult hresults =>
      obtain ⟨operation, proposed, hoperation, hdecode⟩ := hhead
      exact Forall₂.cons ⟨operation, _, proposed, hoperation, hdecode, hresult⟩ (ih hresults)

/-- The results of a request stand beside its writes if each has an operation; if not, there
are fewer results than writes. -/
structure OneEach (messages : List ProtoWrite) (results : List WriteResult) : Prop where
  aligned_iff : Aligned messages results ↔ ∀ message ∈ messages, message.hasOperation = true
  fewer : (∃ message ∈ messages, message.hasOperation = false) → results.length < messages.length

theorem OneEach.of_filter {messages : List ProtoWrite} {results : List WriteResult}
    (h : Aligned (messages.filter ProtoWrite.hasOperation) results) : OneEach messages results := by
  have hfewer : (∃ message ∈ messages, message.hasOperation = false) →
      results.length < messages.length := by
    rintro ⟨message, hmem, hnone⟩
    rw [← h.length_eq]
    exact length_filter_lt_length_iff_exists.mpr ⟨message, hmem, by simp [hnone]⟩
  refine ⟨⟨fun haligned => ?_, fun hall => ?_⟩, hfewer⟩
  · intro message hmem
    by_contra hnone
    have hlt := hfewer ⟨message, hmem, Bool.eq_false_iff.mpr hnone⟩
    exact absurd haligned.length_eq (Nat.ne_of_gt hlt)
  · rwa [filter_eq_self.mpr hall] at h

theorem handleCommit_yields (metadata : Metadata) (req : CommitRequest) :
    (handleCommit metadata req).Yields fun response => OneEach req.writes response.writeResults := by
  refine .bind (.of_forall (fun _ => trivial) _) fun project _ => ?_
  refine .bind (.of_forall (fun _ => trivial) _) fun identity _ => ?_
  refine (translateWritesForCommit_yields project identity req.writes).bind fun writes hwrites => ?_
  refine ((commitTransaction_yields project req.transaction writes).mapError _).bind
    fun results hresults => ?_
  exact .bind (.of_forall (fun _ => trivial) _) fun _ _ =>
    .of_filter (describes_of_becomes hwrites hresults)

theorem writeMessage_yields (project : ProjectId) (identity : Option AuthContext) (token : String)
    (message : WriteRequest) :
    (writeMessage project identity token message).Yields fun response =>
      OneEach message.writes response.2 := by
  intro _
  split
  · trivial
  · refine (translateWritesForCommit_yields project identity message.writes).bind
      fun writes hwrites => ?_
    refine .bind (.of_forall (fun _ => trivial) _) fun transactionId _ => ?_
    refine ((commitTransaction_yields project transactionId writes).mapError _).bind
      fun results hresults => ?_
    exact .bind (.of_forall (fun _ => trivial) _) fun _ _ =>
      .of_filter (describes_of_becomes hwrites hresults)

/-- `Commit` and each turn of the `Write` stream report once on each write of the request, in
its place, exactly when every write has an operation. -/
theorem one_result_per_write_iff (metadata : Metadata) (req : CommitRequest) (project : ProjectId)
    (identity : Option AuthContext) (token : String) (message : WriteRequest) :
    (handleCommit metadata req).Yields (fun response =>
      OneEach req.writes response.writeResults) ∧
    (writeMessage project identity token message).Yields (fun response =>
      OneEach message.writes response.2) :=
  ⟨handleCommit_yields metadata req, writeMessage_yields project identity token message⟩

/-- A write without operation before one that deletes a document. -/
def emptyThenDelete : List ProtoWrite :=
  [⟨none, none⟩, ⟨some (.delete "projects/demo/databases/(default)/documents/notes/n"), none⟩]

/-- Two writes, one result: the delete's stands at the place of the write before it. -/
theorem result_of_empty_write_missing :
    let w := World.holding .still (AList.singleton (Key.transaction (uuidOf 1))
      ⟨demo, .active, ⟨0, 0⟩, ∅⟩)
    let metadata : Metadata := ⟨some (some "Bearer key"), none⟩
    (w.run (handleCommit metadata ⟨"projects/demo/databases/(default)", (uuidOf 1).bytes,
      emptyThenDelete⟩)).1.toOption.map (fun response => response.writeResults.length) = some 1 ∧
    (w.run (writeMessage demo none "token" ⟨"", "", "token", emptyThenDelete⟩)).1.toOption.map
      (fun response => response.2.length) = some 1 := by
  decide

end Embyr
