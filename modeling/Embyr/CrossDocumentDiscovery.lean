import Embyr.InformationOrder

/-!
# Discovery finds every lookup

`discoverCrossDocumentPaths` and `evalBool` walk a condition separately: one before the other
documents are fetched, ignoring truth values, the other with short circuits. An evaluation looks
at no document that was not discovered.

* `resolveFieldValue_withReads`, `compareOperands_withReads` — operands look up what their own walk
  lists.
* `evalBool_withReads` — conditions.
* `discovery_complete` — what was fetched besides the discovered documents makes no difference.
-/

namespace Embyr

/-- The context with other pre-fetched documents. -/
def EvalContext.withReads (ctx : EvalContext) (reads : StrMap (Option FirestoreDocument)) :
    EvalContext :=
  { ctx with crossDocumentReads := reads }

/-- The two maps hold the same under each of the paths. -/
def AgreeOn (paths : List String) (reads reads' : StrMap (Option FirestoreDocument)) : Prop :=
  ∀ path ∈ paths, reads[path]? = reads'[path]?

theorem AgreeOn.append_left {paths paths' : List String}
    {reads reads' : StrMap (Option FirestoreDocument)}
    (h : AgreeOn (paths ++ paths') reads reads') : AgreeOn paths reads reads' :=
  fun path hpath => h path (List.mem_append_left _ hpath)

theorem AgreeOn.append_right {paths paths' : List String}
    {reads reads' : StrMap (Option FirestoreDocument)}
    (h : AgreeOn (paths ++ paths') reads reads') : AgreeOn paths' reads reads' :=
  fun path hpath => h path (List.mem_append_right _ hpath)

section WithReads

variable {ctx : EvalContext} {reads : StrMap (Option FirestoreDocument)}

/-- A template that resolves has been discovered, so its document is the same. -/
theorem crossDocument_withReads {template : PathTemplate} {path : String}
    (h : AgreeOn (ctx.resolveTemplate template).toList ctx.crossDocumentReads reads)
    (hpath : ctx.resolveTemplate template = some path) :
    (ctx.withReads reads).crossDocument path = ctx.crossDocument path := by
  have hmem : path ∈ (ctx.resolveTemplate template).toList := by
    rw [hpath]
    exact List.mem_singleton_self path
  rw [EvalContext.crossDocument, EvalContext.crossDocument, h path hmem]
  rfl

theorem resolveFieldValue_withReads {operand : Operand}
    (h : AgreeOn (operandCrossDocumentPaths ctx.resolveTemplate operand)
      ctx.crossDocumentReads reads) :
    resolveFieldValue (ctx.withReads reads) operand = resolveFieldValue ctx operand := by
  cases operand with
  | arithmetic left op right =>
    rw [operandCrossDocumentPaths] at h
    rw [resolveFieldValue, resolveFieldValue, resolveFieldValue_withReads h.append_left,
      resolveFieldValue_withReads h.append_right]
  | crossDocumentExists template =>
    rw [operandCrossDocumentPaths] at h
    rw [resolveFieldValue, resolveFieldValue]
    refine Option.bind_congr fun path hpath => ?_
    rw [crossDocument_withReads h hpath]
  | crossDocumentGet template field =>
    rw [operandCrossDocumentPaths] at h
    rw [resolveFieldValue, resolveFieldValue]
    refine Option.bind_congr fun path hpath => ?_
    rw [crossDocument_withReads h hpath]
  | _ => rfl

/-- Only the general form resolves operands; the special forms look at the caller and the two
documents of the request. -/
theorem compareOperands_withReads {left right : Operand}
    (hleft : AgreeOn (operandCrossDocumentPaths ctx.resolveTemplate left)
      ctx.crossDocumentReads reads)
    (hright : AgreeOn (operandCrossDocumentPaths ctx.resolveTemplate right)
      ctx.crossDocumentReads reads) :
    compareOperands (ctx.withReads reads) left right = compareOperands ctx left right := by
  fun_cases compareOperands ctx left right
  case case9 h₁ h₂ h₃ h₄ h₅ h₆ h₇ h₈ =>
    rw [compareOperands.eq_9 _ _ _ h₁ h₂ h₃ h₄ h₅ h₆ h₇ h₈, resolveFieldValue_withReads hleft,
      resolveFieldValue_withReads hright]
  all_goals rfl

/-- The walk over a list literal visits each item. -/
theorem AgreeOn.item {items : List Operand}
    (h : AgreeOn (itemsCrossDocumentPaths ctx.resolveTemplate items) ctx.crossDocumentReads reads)
    {item : Operand} (hitem : item ∈ items) :
    AgreeOn (operandCrossDocumentPaths ctx.resolveTemplate item) ctx.crossDocumentReads reads := by
  induction items with
  | nil => cases hitem
  | cons first items ih =>
    rw [itemsCrossDocumentPaths] at h
    rcases List.mem_cons.mp hitem with rfl | hitem
    · exact h.append_left
    · exact ih h.append_right hitem

theorem any_itemMatches_withReads {items : List Operand} (value : FieldValue)
    (h : AgreeOn (itemsCrossDocumentPaths ctx.resolveTemplate items)
      ctx.crossDocumentReads reads) :
    items.any (itemMatches (ctx.withReads reads) value) = items.any (itemMatches ctx value) := by
  rw [Bool.eq_iff_iff, List.any_eq_true, List.any_eq_true]
  refine exists_congr fun item => and_congr_right fun hitem => ?_
  rw [itemMatches, itemMatches, resolveFieldValue_withReads (h.item hitem)]

/-- Short circuits only leave lookups out. -/
theorem evalBool_withReads {condition : Condition}
    (h : AgreeOn (conditionCrossDocumentPaths ctx.resolveTemplate condition)
      ctx.crossDocumentReads reads) :
    evalBool (ctx.withReads reads) condition = evalBool ctx condition := by
  induction condition with
  | literal b => rfl
  | not inner ih => rw [evalBool, evalBool, ih h]
  | and left right ihl ihr =>
    rw [conditionCrossDocumentPaths] at h
    rw [evalBool, evalBool, ihl h.append_left, ihr h.append_right]
  | or left right ihl ihr =>
    rw [conditionCrossDocumentPaths] at h
    rw [evalBool, evalBool, ihl h.append_left, ihr h.append_right]
  | compare left op right =>
    rw [conditionCrossDocumentPaths] at h
    cases op with
    | eq => exact compareOperands_withReads h.append_left h.append_right
    | ne => rw [evalBool, evalBool, compareOperands_withReads h.append_left h.append_right]
    | _ =>
      simp only [evalBool, resolveFieldValue_withReads h.append_left,
        resolveFieldValue_withReads h.append_right]
  | isIn left list =>
    rw [conditionCrossDocumentPaths] at h
    rw [evalBool, evalBool, resolveFieldValue_withReads h.append_left]
    refine Option.bind_congr fun value _ => ?_
    cases list with
    | listLiteral items =>
      have hitems := h.append_right
      rw [operandCrossDocumentPaths] at hitems
      exact congrArg some (any_itemMatches_withReads value hitems)
    | _ => rfl

end WithReads

/-- Two evaluations that differ only in the pre-fetched documents, and hold the same under the
discovered paths, agree. -/
theorem discovery_complete {condition : Condition} {ctx : EvalContext}
    {reads : StrMap (Option FirestoreDocument)}
    (h : AgreeOn (discoverCrossDocumentPaths condition ctx.auth ctx.pathVariableValue
      ctx.ancestorPathVariableValues) ctx.crossDocumentReads reads) :
    evaluate condition (ctx.withReads reads) = evaluate condition ctx := by
  rw [evaluate, evaluate, evalBool_withReads h]

/-! ## A rule that names its caller's organisation -/

/-- `exists(/databases/$(database)/documents/members/$(request.auth.uid))`. -/
def memberRule : Condition :=
  .compare (.crossDocumentExists ⟨[.literal "members", .authUid]⟩) .eq (.boolLiteral true)

/-- A caller with a path and nothing fetched. -/
def memberContext : EvalContext where
  auth := some ⟨"ann", ∅⟩
  resourceFields := ∅
  requestResourceFields := ∅
  pathVariableValue := none
  ancestorPathVariableValues := ∅
  requestTime := none
  crossDocumentReads := (∅ : StrMap _).insert "members/ann" none

/-- A document that was fetched and not discovered is not looked at. -/
theorem discovery_complete_memberRule :
    AgreeOn (discoverCrossDocumentPaths memberRule memberContext.auth
        memberContext.pathVariableValue memberContext.ancestorPathVariableValues)
      memberContext.crossDocumentReads
      (memberContext.crossDocumentReads.insert "members/ben" none) ∧
    evaluate memberRule (memberContext.withReads
        (memberContext.crossDocumentReads.insert "members/ben" none)) =
      evaluate memberRule memberContext := by
  have hagree : AgreeOn (discoverCrossDocumentPaths memberRule memberContext.auth
        memberContext.pathVariableValue memberContext.ancestorPathVariableValues)
      memberContext.crossDocumentReads
      (memberContext.crossDocumentReads.insert "members/ben" none) := by
    intro path hpath
    obtain rfl : path = "members/ann" := List.mem_singleton.mp hpath
    simp [Std.ExtTreeMap.getElem?_insert]
  exact ⟨hagree, discovery_complete hagree⟩

end Embyr
