import Embyr.WriteHandlers
import Embyr.GateAgreement
import Embyr.CommitSequence

/-!
# The document a rule judges and the document that is stored

A write of a batch is judged while it is translated and stored by the commit that
follows. The rule is given the field map of the update, or the stored document for a
write that only transforms; the transforms run in the storage adapter.

* `Write.effect_frame` — a write's effect and its proposal differ in transformed fields only.
* `judged_eq_persisted_off_transforms` — so do the document the rule judged and the one
  that is persisted.
-/

namespace Embyr

open Program ReadCommitted

/-! ## What a write changes -/

variable {stored : Fields} {field : String}

theorem seedField_frame {fields : Fields} {fieldPath : String}
    (hne : field ≠ fieldPath) : (seedField stored fields fieldPath)[field]? = fields[field]? := by
  rw [seedField]
  split
  · rfl
  · split
    · rw [Std.ExtTreeMap.getElem?_insert, if_neg (by simpa using hne.symm)]
    · rfl

variable {now : Timestamp}

theorem applySeededTransforms_frame {fields fields' : Fields} {ts : List FieldTransform}
    {values : List FieldValue}
    (h : applySeededTransforms now stored fields ts = .ok (fields', values))
    (hne : ∀ t ∈ ts, field ≠ t.fieldPath) : fields'[field]? = fields[field]? := by
  induction ts generalizing fields values with
  | nil =>
    cases h
    rfl
  | cons t ts ih =>
    rw [applySeededTransforms] at h
    obtain ⟨⟨fields₁, value⟩, hfirst, h⟩ := bind_eq_ok h
    obtain ⟨⟨fields₂, values₂⟩, hrest, h⟩ := bind_eq_ok h
    cases h
    have ht := hne t List.mem_cons_self
    rw [ih hrest (List.forall_mem_cons.mp hne).2,
      applyFieldTransform_frame hfirst ht, seedField_frame ht]

/-- The document that a decoded operation proposes to the rule. -/
def proposal (stored : Fields) (proposed : Option Fields) : Fields := proposed.getD stored

variable {write : Write}

/-- What an operation leaves behind differs from its proposal in the fields that it
transforms, and in no other. -/
theorem effect_frame {operation : Operation} {precondition : Option WritePrecondition}
    {proposed : Option Fields} {persisted : Fields} {values : List FieldValue}
    (hdecode : operation.decode precondition = .ok (write, proposed))
    (heffect : write.effect now stored = .ok (some persisted, values))
    (hfield : ∀ t ∈ write.transforms, field ≠ t.fieldPath) :
    persisted[field]? = (proposal stored proposed)[field]? := by
  obtain ⟨path, -, ⟨_, _, hupdate⟩ | hdelete | ⟨_, htransform⟩⟩ := Operation.decode_eq_ok hdecode
  · cases hupdate
    obtain ⟨⟨final, values'⟩, hseeded, heq⟩ := map_eq_ok heffect
    obtain ⟨hfinal, -⟩ := Prod.mk.inj heq
    cases hfinal
    exact applySeededTransforms_frame hseeded hfield
  · cases hdelete
    exact nomatch (Prod.mk.inj (Except.ok.inj heffect)).1
  · cases htransform
    obtain ⟨⟨final, values'⟩, htransforms, heq⟩ := map_eq_ok heffect
    obtain ⟨hfinal, -⟩ := Prod.mk.inj heq
    cases hfinal
    exact applyFieldTransforms_frame htransforms hfield

/-! ## What a batch leaves of one write -/

variable {values : List (List FieldValue)}

/-- A document that no write of the batch names stays as it is. -/
theorem applyAll_other {snapshot docs docs' : Documents} {writes : List Write}
    (h : applyAll now snapshot docs writes = .ok (docs', values)) {path : DocumentPath}
    (hpath : ∀ write ∈ writes, write.path ≠ path) : docs' path = docs path := by
  induction writes generalizing docs values with
  | nil =>
    cases h
    rfl
  | cons write writes ih =>
    obtain ⟨final, vs, rest, -, hrest, rfl⟩ := applyAll_cons_ok h
    rw [ih hrest (List.forall_mem_cons.mp hpath).2,
      Function.update_of_ne (hpath write List.mem_cons_self).symm]

/-- A document that one write of the batch names is what that write makes of it. -/
theorem applyAll_alone {snapshot docs docs' : Documents} {before after : List Write}
    (h : applyAll now snapshot docs (before ++ write :: after) = .ok (docs', values))
    (hafter : ∀ other ∈ after, other.path ≠ write.path) :
    ∃ vs, write.effect now (snapshot.stored write.path) = .ok (docs' write.path, vs) := by
  induction before generalizing docs values with
  | nil =>
    obtain ⟨final, vs, rest, heffect, hrest, rfl⟩ := applyAll_cons_ok h
    rw [applyAll_other hrest hafter, Function.update_self]
    exact ⟨vs, heffect⟩
  | cons first before ih =>
    obtain ⟨final, vs, rest, -, hrest, rfl⟩ := applyAll_cons_ok h
    exact ih hrest

/-! ## Judged and persisted -/

/-- The document a gate proposes to its rule. -/
theorem gateContext_requestResourceFields (w : World) (path : DocumentPath)
    (identity : Option AuthContext) (proposed : Option Fields) (condition : Condition) :
    (w.gateContext (commitContext path identity proposed) condition).requestResourceFields =
      proposal (Documents.stored w.document path) proposed := rfl

theorem translate_eq_some {w : World} {project : ProjectId} {identity : Option AuthContext}
    {message : ProtoWrite}
    (h : (w.run (translateOneWriteForCommit project identity message)).1 = .ok (some write)) :
    ∃ operation proposed, message.operation = some operation ∧
      operation.decode message.currentDocument = .ok (write, proposed) := by
  rw [translateOneWriteForCommit] at h
  rcases hoperation : message.operation with _ | operation
  · rw [hoperation] at h
    cases h
  rw [hoperation] at h
  obtain ⟨⟨write', proposed⟩, hdecode, h⟩ := World.run_ofExcept_bind_eq_ok (Prod.ext h rfl)
  obtain ⟨⟨⟩, w₂, -, h⟩ := World.run_bind_eq_ok h
  obtain ⟨hwrite, -⟩ := Prod.mk.inj h
  obtain rfl := Option.some.inj (Except.ok.inj hwrite)
  exact ⟨operation, proposed, rfl, hdecode⟩

/-- A write is accepted in `w` and committed from `w₁`, with no other write to its document
in between: the document its rule was given and the one that is persisted agree on every
field that the write does not transform. -/
theorem judged_eq_persisted_off_transforms {w w₁ w' : World} {project : ProjectId}
    {identity : Option AuthContext} {message : ProtoWrite} {write : Write}
    {transactionId : TransactionId} {before after : List Write} {reported : List WriteResult}
    {persisted : Fields}
    (htranslate : (w.run (translateOneWriteForCommit project identity message)).1 =
      .ok (some write))
    (hidle : w₁.txn = none) (hsame : w₁.document write.path = w.document write.path)
    (hafter : ∀ other ∈ after, other.path ≠ write.path)
    (hcommit : w₁.run (commitTransaction project transactionId (before ++ write :: after)) =
      (.ok reported, w'))
    (hpersisted : w'.document write.path = some persisted) :
    ∃ operation proposed, message.operation = some operation ∧
      operation.decode message.currentDocument = .ok (write, proposed) ∧
      ∀ condition,
        (∀ field, (∀ t ∈ write.transforms, field ≠ t.fieldPath) →
          (w.gateContext (commitContext write.path identity proposed)
            condition).requestResourceFields[field]? = persisted[field]?) ∧
        (write.transforms = [] →
          (w.gateContext (commitContext write.path identity proposed)
            condition).requestResourceFields = persisted) := by
  obtain ⟨operation, proposed, hoperation, hdecode⟩ := translate_eq_some htranslate
  obtain ⟨docs, values, hall, -, hdocs⟩ := World.run_commitTransaction_applyAll hidle hcommit
  obtain ⟨vs, heffect⟩ := applyAll_alone hall hafter
  rw [← hdocs, hpersisted, show Documents.stored w₁.document write.path =
    Documents.stored w.document write.path from congrArg (Option.getD · ∅) hsame] at heffect
  have hagree : ∀ field, (∀ t ∈ write.transforms, field ≠ t.fieldPath) →
      (proposal (Documents.stored w.document write.path) proposed)[field]? = persisted[field]? :=
    fun field hfield => (effect_frame hdecode heffect hfield).symm
  refine ⟨operation, proposed, hoperation, hdecode, fun condition => ⟨hagree, fun hnone => ?_⟩⟩
  rw [gateContext_requestResourceFields]
  refine Std.ExtTreeMap.ext_getElem? fun field => hagree field ?_
  rw [hnone]
  exact nofun

section Counter

/-- A counter at five and one open transaction, in a project whose counters everybody may
write. -/
def counterAtFive : World :=
  let row : TransactionRow := ⟨demo, .active, ⟨0, 0⟩, ∅⟩
  let counter : DocumentRow := .fresh ((∅ : Fields).insert "n" (.integer 5)) ⟨0, 0⟩
  .holding
    { Environment.still with
      rules := fun _ => ⟨∅, (∅ : StrMap String).insert "counters" "true", []⟩ }
    (((∅ : AList Key.Row).insert (.transaction (uuidOf 1)) row).insert
      (.document ⟨demo, "counters", "a"⟩) counter)

/-- The message that adds one to the counter. -/
def addOneMessage : ProtoWrite :=
  ⟨some (.transform "projects/demo/databases/(default)/documents/counters/a"
    (.ok [.increment "n" (.integer 1)])), none⟩

theorem addOneMessage_accepted :
    (counterAtFive.run (translateOneWriteForCommit demo none addOneMessage)).1 =
      .ok (some (addOne ⟨demo, "counters", "a"⟩)) := rfl

theorem run_addOne :
    (counterAtFive.run (commitTransaction demo (uuidOf 1).bytes
      ([] ++ addOne ⟨demo, "counters", "a"⟩ :: []))).1 =
        .ok [⟨⟨0, 0⟩, none, [.integer 6]⟩] := rfl

/-- The incremented counter agrees with the judged one in every field but `n`. -/
theorem judged_eq_persisted_counter :
    ∃ operation proposed, addOneMessage.operation = some operation ∧
      operation.decode none = .ok (addOne ⟨demo, "counters", "a"⟩, proposed) ∧
      ∀ condition field, field ≠ "n" →
        (counterAtFive.gateContext (commitContext ⟨demo, "counters", "a"⟩ none proposed)
          condition).requestResourceFields[field]? =
          ((∅ : Fields).insert "n" (.integer 6))[field]? := by
  have hafter : ∀ other ∈ ([] : List Write),
      other.path ≠ (addOne ⟨demo, "counters", "a"⟩).path := nofun
  have hpersisted : (counterAtFive.run (commitTransaction demo (uuidOf 1).bytes
      ([] ++ addOne ⟨demo, "counters", "a"⟩ :: []))).2.document ⟨demo, "counters", "a"⟩ =
        some ((∅ : Fields).insert "n" (.integer 6)) := rfl
  obtain ⟨operation, proposed, hoperation, hdecode, hagree⟩ :=
    judged_eq_persisted_off_transforms addOneMessage_accepted rfl rfl hafter
      (Prod.ext run_addOne rfl) hpersisted
  refine ⟨operation, proposed, hoperation, hdecode, fun condition field hfield => ?_⟩
  refine (hagree condition).1 field fun t ht => ?_
  obtain rfl := List.mem_singleton.mp ht
  exact hfield

/-- The rule is given five, six is persisted. -/
theorem judged_ne_persisted_of_transform :
    let path : DocumentPath := ⟨demo, "counters", "a"⟩
    let committed := counterAtFive.run (commitTransaction demo (uuidOf 1).bytes [addOne path])
    (counterAtFive.run (translateOneWriteForCommit demo none addOneMessage)).1 =
        .ok (some (addOne path)) ∧
      (addOneMessage.operation.map (·.decode none)) = some (.ok (addOne path, none)) ∧
      (counterAtFive.gateContext (commitContext path none none)
        (.literal true)).requestResourceFields["n"]? = some (.integer 5) ∧
      committed.1 = .ok [⟨⟨0, 0⟩, none, [.integer 6]⟩] ∧
      committed.2.counter path = some (.integer 6) :=
  ⟨rfl, rfl, rfl, rfl, rfl⟩

end Counter

end Embyr
