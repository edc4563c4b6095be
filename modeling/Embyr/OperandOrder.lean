import Embyr.Condition

/-!
# The order of operands

`||` waits for both sides and a definite `true` wins; `&&` stops at the first side that settles it,
or at the first missing field. So the order of `||` never shows, and that of `&&` shows in one
case: one side is false and the other names something missing. The two orders are then a definite
`false` and a missing value. Both deny, until a negation turns the definite one into a grant.

* `Surroundings` — a condition with a hole.
* `evalBool_fill`, `evaluate_fill` — what may be put into a hole.
* `Clash` — the one case.
* `operand_order` — where operands may be swapped.
-/

namespace Embyr

/-! ## Conditions with a hole -/

/-- A condition with a hole in the place of one subcondition. -/
inductive Surroundings where
  | hole
  | not (inner : Surroundings)
  | andLeft (left : Surroundings) (right : Condition)
  | andRight (left : Condition) (right : Surroundings)
  | orLeft (left : Surroundings) (right : Condition)
  | orRight (left : Condition) (right : Surroundings)

namespace Surroundings

def fill (condition : Condition) : Surroundings → Condition
  | hole => condition
  | not inner => .not (inner.fill condition)
  | andLeft left right => .and (left.fill condition) right
  | andRight left right => .and left (right.fill condition)
  | orLeft left right => .or (left.fill condition) right
  | orRight left right => .or left (right.fill condition)

/-- No negation encloses the hole. -/
def positive : Surroundings → Bool
  | hole => true
  | not _ => false
  | andLeft left _ | orLeft left _ => left.positive
  | andRight _ right | orRight _ right => right.positive

end Surroundings

section Fill

variable {ctx : EvalContext} {a b : Condition}

/-- Conditions with the same value may replace each other anywhere. -/
theorem evalBool_fill (h : evalBool ctx a = evalBool ctx b) (s : Surroundings) :
    evalBool ctx (s.fill a) = evalBool ctx (s.fill b) := by
  induction s with
  | hole => exact h
  | not inner ih => rw [Surroundings.fill, Surroundings.fill, evalBool, evalBool, ih]
  | andLeft left right ih => rw [Surroundings.fill, Surroundings.fill, evalBool, evalBool, ih]
  | andRight left right ih => rw [Surroundings.fill, Surroundings.fill, evalBool, evalBool, ih]
  | orLeft left right ih => rw [Surroundings.fill, Surroundings.fill, evalBool, evalBool, ih]
  | orRight left right ih => rw [Surroundings.fill, Surroundings.fill, evalBool, evalBool, ih]

theorem evalBool_or_eq_true {left right : Condition} :
    evalBool ctx (.or left right) = some true ↔
      evalBool ctx left = some true ∨ evalBool ctx right = some true := by
  rcases hl : evalBool ctx left with _ | _ | _ <;>
    rcases hr : evalBool ctx right with _ | _ | _ <;>
    simp [evalBool, orElseMissing, hl, hr]

/-- Where no negation encloses the hole, only being true counts. -/
theorem evalBool_fill_eq_true (h : evalBool ctx a = some true ↔ evalBool ctx b = some true)
    {s : Surroundings} (hs : s.positive = true) :
    evalBool ctx (s.fill a) = some true ↔ evalBool ctx (s.fill b) = some true := by
  induction s with
  | hole => exact h
  | not inner ih => cases hs
  | andLeft left right ih =>
    rw [Surroundings.fill, Surroundings.fill, evalBool_and_eq_true, evalBool_and_eq_true, ih hs]
  | andRight left right ih =>
    rw [Surroundings.fill, Surroundings.fill, evalBool_and_eq_true, evalBool_and_eq_true, ih hs]
  | orLeft left right ih =>
    rw [Surroundings.fill, Surroundings.fill, evalBool_or_eq_true, evalBool_or_eq_true, ih hs]
  | orRight left right ih =>
    rw [Surroundings.fill, Surroundings.fill, evalBool_or_eq_true, evalBool_or_eq_true, ih hs]

theorem evaluate_eq_iff {c d : Condition} :
    evaluate c ctx = evaluate d ctx ↔
      (evalBool ctx c = some true ↔ evalBool ctx d = some true) := by
  rw [← evaluate_eq_allow_iff, ← evaluate_eq_allow_iff]
  cases evaluate c ctx <;> cases evaluate d ctx <;> simp

theorem evaluate_fill (h : evalBool ctx a = evalBool ctx b) (s : Surroundings) :
    evaluate (s.fill a) ctx = evaluate (s.fill b) ctx := by
  rw [evaluate_eq_iff, evalBool_fill h s]

/-! ## Swapping -/

/-- One side is false and the other names something missing. -/
def Clash (ctx : EvalContext) (a b : Condition) : Prop :=
  (evalBool ctx a = none ∧ evalBool ctx b = some false) ∨
    (evalBool ctx a = some false ∧ evalBool ctx b = none)

theorem evalBool_or_comm (ctx : EvalContext) (a b : Condition) :
    evalBool ctx (.or a b) = evalBool ctx (.or b a) := by
  rw [evalBool, evalBool]
  rcases evalBool ctx a with _ | _ | _ <;> rcases evalBool ctx b with _ | _ | _ <;> rfl

theorem evalBool_and_comm_iff :
    evalBool ctx (.and a b) = evalBool ctx (.and b a) ↔ ¬Clash ctx a b := by
  rw [evalBool, evalBool, Clash]
  rcases evalBool ctx a with _ | _ | _ <;> rcases evalBool ctx b with _ | _ | _ <;> simp

/-- A clash shows under a negation. -/
theorem evaluate_not_and_ne (h : Clash ctx a b) :
    evaluate (.not (.and a b)) ctx ≠ evaluate (.not (.and b a)) ctx := by
  rw [Ne, evaluate_eq_iff]
  rcases h with ⟨ha, hb⟩ | ⟨ha, hb⟩
  · simp [evalBool, ha, hb]
  · simp [evalBool, ha, hb]

end Fill

/-- The operands of `||` may be swapped anywhere. Those of `&&` may be swapped where no negation
encloses them; they may be swapped wherever they stand exactly if they do not clash. -/
theorem operand_order (ctx : EvalContext) (a b : Condition) :
    (∀ s : Surroundings, evaluate (s.fill (.or a b)) ctx = evaluate (s.fill (.or b a)) ctx) ∧
    ((∀ s : Surroundings, evaluate (s.fill (.and a b)) ctx = evaluate (s.fill (.and b a)) ctx) ↔
      ¬Clash ctx a b) ∧
    ∀ s : Surroundings, s.positive = true →
      evaluate (s.fill (.and a b)) ctx = evaluate (s.fill (.and b a)) ctx := by
  refine ⟨evaluate_fill (evalBool_or_comm ctx a b), ⟨fun h hclash => ?_, fun h => ?_⟩, ?_⟩
  · exact evaluate_not_and_ne hclash (h (.not .hole))
  · exact evaluate_fill (evalBool_and_comm_iff.mpr h)
  · intro s hs
    refine evaluate_eq_iff.mpr (evalBool_fill_eq_true ?_ hs)
    rw [evalBool_and_eq_true, evalBool_and_eq_true, and_comm]

/-! ## A rule about a field that need not be there -/

/-- `resource.data.locked == true`. -/
def isLocked : Condition := .compare (.resourceField "locked") .eq (.boolLiteral true)

/-- A caller nobody knows, and an empty document. -/
def emptyContext : EvalContext where
  auth := none
  resourceFields := ∅
  requestResourceFields := ∅
  pathVariableValue := none
  ancestorPathVariableValues := ∅
  requestTime := none
  crossDocumentReads := ∅

theorem evalBool_isLocked : evalBool emptyContext isLocked = none := by
  simp [isLocked, evalBool, compareOperands, resolveFieldValue, emptyContext]

/-- Without a negation the order makes no difference, even when the field is missing. -/
theorem operand_order_isLocked :
    Surroundings.positive (.orLeft .hole (.literal false)) = true ∧
    evaluate (.or (.and isLocked (.literal false)) (.literal false)) emptyContext =
      evaluate (.or (.and (.literal false) isLocked) (.literal false)) emptyContext :=
  ⟨rfl, (operand_order emptyContext isLocked (.literal false)).2.2
    (.orLeft .hole (.literal false)) rfl⟩

/-- `!(resource.data.locked == true && false)` denies and `!(false && resource.data.locked == true)`
allows. -/
theorem swapped_operands_grant :
    evaluate (.not (.and isLocked (.literal false))) emptyContext = .deny ∧
    evaluate (.not (.and (.literal false) isLocked)) emptyContext = .allow := by
  simp [evaluate, evalBool, evalBool_isLocked]

end Embyr
