import Embyr.ConditionGrammar

/-!
# Arithmetic that leaves the 64-bit range

The evaluator adds, subtracts and multiplies with Rust's plain operators: a result outside `i64`
panics in a build with overflow checks and wraps in one without. `evalBool` is the second; here is
the first.

* `checkedFieldValue`, `checkedBool`, `checkedEvaluate` — the evaluator with overflow checks.
* `Operand.Fits`, `Condition.Fits` — the sums that an evaluation reaches stay in range.
* `Settled` — a checked computation that returns a given value, or panics, as a condition says.
* `evaluation_in_range_iff` — for an accepted source the two evaluators agree exactly when it fits.
-/

namespace Embyr

open Binary64 Int64

/-! ## The evaluator with overflow checks -/

inductive ArithmeticPanic where
  | overflow
  deriving DecidableEq

/-- Computations that may panic. -/
abbrev Checked (α : Type) : Type := Except ArithmeticPanic α

/-- The values of an `i64`. -/
def InRange (n : ℤ) : Prop := -2 ^ 63 ≤ n ∧ n < 2 ^ 63

instance (n : ℤ) : Decidable (InRange n) := inferInstanceAs (Decidable (_ ∧ _))

/-- An integer operation with exact result `n`. -/
def checkedInt (n : ℤ) : Checked Int64 :=
  if InRange n then .ok (.ofInt n) else .error .overflow

/-- The exact sum or difference. -/
def ArithmeticOp.exact : ArithmeticOp → ℤ → ℤ → ℤ
  | .add, l, r => l + r
  | .sub, l, r => l - r

/-- What `as_seconds` multiplies by. -/
def DurationUnit.factor : DurationUnit → ℤ
  | .seconds => 1
  | .minutes => 60
  | .hours => 3600
  | .days => 86400

/-- `+` and `-` on two resolved values. -/
def checkedArithmeticValue (op : ArithmeticOp) :
    FieldValue → FieldValue → Checked (Option FieldValue)
  | .integer l, .integer r => do
    let result ← checkedInt (op.exact l.toInt r.toInt)
    return some (.integer result)
  | left, right => .ok (arithmeticValue op left right)

/-- A timestamp moved by a duration. -/
def checkedShift (op : ArithmeticOp) (secs : Int64) (nanos : Int32) (amount : Int64)
    (unit : DurationUnit) : Checked (Option FieldValue) := do
  let offset ← checkedInt (amount.toInt * unit.factor)
  let secs ← checkedInt (op.exact secs.toInt offset.toInt)
  return some (.timestamp secs nanos)

/-- The value of a sum or difference; the right operand of a duration is not resolved. -/
def checkedArithmeticResult (op : ArithmeticOp) (leftValue : FieldValue) (right : Operand)
    (rightResult : Checked (Option FieldValue)) : Checked (Option FieldValue) :=
  match leftValue, right with
  | .timestamp secs nanos, .durationLiteral amount unit => checkedShift op secs nanos amount unit
  | leftValue, _ => do
    match ← rightResult with
    | none => return none
    | some rightValue => checkedArithmeticValue op leftValue rightValue

/-- `resolve_field_value`; only sums and differences can panic. -/
def checkedFieldValue (ctx : EvalContext) : Operand → Checked (Option FieldValue)
  | .arithmetic left op right => do
    match ← checkedFieldValue ctx left with
    | none => return none
    | some leftValue => checkedArithmeticResult op leftValue right (checkedFieldValue ctx right)
  | operand => .ok (resolveFieldValue ctx operand)

/-- Two operands resolved one after the other, and put together. -/
def checkedPair (ctx : EvalContext) (left right : Operand) (f : FieldValue → FieldValue → Bool) :
    Checked (Option Bool) := do
  match ← checkedFieldValue ctx left with
  | none => return none
  | some leftValue =>
    match ← checkedFieldValue ctx right with
    | none => return none
    | some rightValue => return some (f leftValue rightValue)

/-- `compare_operands`; the pairings with a meaning of their own have no arithmetic. -/
def checkedCompareOperands (ctx : EvalContext) : Operand → Operand → Checked (Option Bool)
  | left@(.arithmetic ..), right | left, right@(.arithmetic ..) =>
    checkedPair ctx left right FieldValue.eqv
  | left, right => .ok (compareOperands ctx left right)

/-- Does a list item match? -/
def checkedItemMatches (ctx : EvalContext) (value : FieldValue) (item : Operand) :
    Checked Bool := do
  match ← checkedFieldValue ctx item with
  | some v => return v.eqv value
  | none => return false

/-- The items of a list, up to the first match. -/
def checkedAny (ctx : EvalContext) (value : FieldValue) : List Operand → Checked Bool
  | [] => .ok false
  | item :: items => do
    if ← checkedItemMatches ctx value item then return true
    else checkedAny ctx value items

/-- `eval_bool`, with its short circuits. -/
def checkedBool (ctx : EvalContext) : Condition → Checked (Option Bool)
  | .literal b => .ok (some b)
  | .not inner => do return (← checkedBool ctx inner).map (!·)
  | .and left right => do
    match ← checkedBool ctx left with
    | some true => checkedBool ctx right
    | other => return other
  | .or left right => do
    match ← checkedBool ctx left with
    | some true => return some true
    | other => return orElseMissing other (← checkedBool ctx right)
  | .compare left .eq right => checkedCompareOperands ctx left right
  | .compare left .ne right => do return (← checkedCompareOperands ctx left right).map (!·)
  | .compare left op right => checkedPair ctx left right (compareRelational op)
  | .isIn left list => do
    match ← checkedFieldValue ctx left, list with
    | none, _ => return none
    | some value, .listLiteral items => return some (← checkedAny ctx value items)
    | some _, _ => return some false

/-- `evaluate`. -/
def checkedEvaluate (condition : Condition) (ctx : EvalContext) : Checked EvaluationOutcome := do
  match ← checkedBool ctx condition with
  | some true => return .allow
  | _ => return .deny

/-! ## The sums that an evaluation reaches -/

/-- The result of a sum or difference is in range: of two integers, or of a timestamp and a
duration, whose seconds are in range too. -/
def ResultFits (op : ArithmeticOp) (leftValue : Option FieldValue) (right : Operand)
    (rightValue : Option FieldValue) : Prop :=
  match leftValue, right with
  | some (.timestamp secs _), .durationLiteral amount unit =>
    InRange (amount.toInt * unit.factor) ∧
      InRange (op.exact secs.toInt (amount.toInt * unit.factor))
  | some (.integer l), _ => ∀ r, rightValue = some (.integer r) →
    InRange (op.exact l.toInt r.toInt)
  | _, _ => True

def Operand.Fits (ctx : EvalContext) : Operand → Prop
  | .arithmetic left op right =>
    ResultFits op (resolveFieldValue ctx left) right (resolveFieldValue ctx right)
  | _ => True

/-- The items fit, up to the first that matches. -/
def ItemsFit (ctx : EvalContext) (value : FieldValue) : List Operand → Prop
  | [] => True
  | item :: items => item.Fits ctx ∧ (itemMatches ctx value item = false → ItemsFit ctx value items)

/-- Every operand that the evaluation reaches fits. -/
def Condition.Fits (ctx : EvalContext) : Condition → Prop
  | .literal _ => True
  | .not inner => inner.Fits ctx
  | .and left right => left.Fits ctx ∧ (evalBool ctx left = some true → right.Fits ctx)
  | .or left right => left.Fits ctx ∧ (evalBool ctx left ≠ some true → right.Fits ctx)
  | .compare left _ right =>
    left.Fits ctx ∧ ((resolveFieldValue ctx left).isSome → right.Fits ctx)
  | .isIn left list => left.Fits ctx ∧ ∀ value items, resolveFieldValue ctx left = some value →
    list = .listLiteral items → ItemsFit ctx value items

/-! ## Checked computations -/

/-- `x` returns `v` where `fits` holds, and panics where it does not. -/
structure Settled {α : Type} (x : Checked α) (fits : Prop) (v : α) : Prop where
  returns : fits → x = .ok v
  panics : ¬fits → x = .error .overflow

section Settled

variable {α β : Type} {x : Checked α} {P Q : Prop} {v : α} {w : β}

theorem Settled.ok (v : α) : Settled (.ok v) True v := ⟨fun _ => rfl, fun h => absurd trivial h⟩

theorem Settled.congr (h : Settled x P v) (hiff : P ↔ Q) : Settled x Q v :=
  ⟨fun hQ => h.returns (hiff.mpr hQ), fun hQ => h.panics fun hP => hQ (hiff.mp hP)⟩

/-- The second computation matters only where the first one returns. -/
theorem Settled.bind {f : α → Checked β} (hx : Settled x P v) (hf : P → Settled (f v) Q w) :
    Settled (x >>= f) (P ∧ Q) w := by
  constructor
  · rintro ⟨hP, hQ⟩
    rw [hx.returns hP]
    exact (hf hP).returns hQ
  · intro h
    by_cases hP : P
    · rw [hx.returns hP]
      exact (hf hP).panics fun hQ => h ⟨hP, hQ⟩
    · rw [hx.panics hP]
      rfl

/-- A computation followed by one that cannot panic. -/
theorem Settled.bind_ok {f : α → Checked β} (hx : Settled x P v) (hf : f v = .ok w) :
    Settled (x >>= f) P w :=
  (hx.bind fun _ => hf ▸ Settled.ok w).congr (and_iff_left trivial)

theorem Settled.eq_ok_iff (h : Settled x P v) : x = .ok v ↔ P := by
  constructor
  · intro hx
    by_contra hP
    rw [h.panics hP] at hx
    cases hx
  · exact h.returns

end Settled

theorem checkedInt_settled (n : ℤ) : Settled (checkedInt n) (InRange n) (.ofInt n) :=
  ⟨fun h => if_pos h, fun h => if_neg h⟩

/-! ## Operands -/

theorem toInt_ofInt_of_inRange {n : ℤ} (h : InRange n) : (ofInt n).toInt = n :=
  toInt_ofInt_of_le h.1 h.2

theorem ofInt_exact (op : ArithmeticOp) (l r : Int64) :
    ofInt (op.exact l.toInt r.toInt) = match op with | .add => l + r | .sub => l - r := by
  cases op
  · rw [ArithmeticOp.exact, ofInt_add, ofInt_toInt, ofInt_toInt]
  · rw [ArithmeticOp.exact, ofInt_sub, ofInt_toInt, ofInt_toInt]

theorem ofInt_factor (amount : Int64) (unit : DurationUnit) :
    ofInt (amount.toInt * unit.factor) = unit.asSeconds amount := by
  rw [ofInt_mul, ofInt_toInt]
  cases unit
  · exact mul_one amount
  all_goals rfl

theorem checkedShift_settled (op : ArithmeticOp) (secs : Int64) (nanos : Int32) (amount : Int64)
    (unit : DurationUnit) :
    Settled (checkedShift op secs nanos amount unit)
      (InRange (amount.toInt * unit.factor) ∧
        InRange (op.exact secs.toInt (amount.toInt * unit.factor)))
      (some (shiftTimestamp op secs nanos (unit.asSeconds amount))) := by
  refine (checkedInt_settled _).bind fun hoffset => ?_
  rw [toInt_ofInt_of_inRange hoffset]
  refine (checkedInt_settled _).bind_ok ?_
  rw [← toInt_ofInt_of_inRange hoffset, ofInt_exact, ofInt_factor]
  rfl

theorem checkedArithmeticValue_settled (op : ArithmeticOp) (left right : FieldValue) :
    Settled (checkedArithmeticValue op left right)
      (∀ l r, left = .integer l → right = .integer r → InRange (op.exact l.toInt r.toInt))
      (arithmeticValue op left right) := by
  rw [checkedArithmeticValue.eq_def]
  split
  · rename_i l r
    refine ((checkedInt_settled _).bind_ok ?_).congr (by simp)
    rw [ofInt_exact]
    rfl
  · rename_i hne
    exact (Settled.ok _).congr (by simpa using fun l r hl hr => (hne l r hl hr).elim)

/-- An operand of one token does no arithmetic. -/
theorem IsBase.checked {t : Token} {o : Operand} (h : IsBase t o) (ctx : EvalContext) :
    checkedFieldValue ctx o = .ok (resolveFieldValue ctx o) := by
  cases h.isLeaf with
  | word hword => cases hword <;> rfl
  | _ => rfl

theorem checkedArithmeticResult_settled (op : ArithmeticOp) (leftValue : FieldValue)
    (right : Operand) (rightValue : Option FieldValue) :
    Settled (checkedArithmeticResult op leftValue right (.ok rightValue))
      (ResultFits op (some leftValue) right rightValue)
      (arithmeticResult op leftValue right rightValue) := by
  have hnumbers : Settled (do
        match ← (.ok rightValue : Checked (Option FieldValue)) with
        | none => return none
        | some rightValue => checkedArithmeticValue op leftValue rightValue)
      (∀ l r, leftValue = .integer l → rightValue = some (.integer r) →
        InRange (op.exact l.toInt r.toInt))
      (rightValue.bind (arithmeticValue op leftValue)) := by
    rcases rightValue with _ | rightValue
    · exact (Settled.ok none).congr (by simp)
    · exact (checkedArithmeticValue_settled op leftValue rightValue).congr (by simp)
  cases leftValue with
  | timestamp secs nanos =>
    cases right with
    | durationLiteral amount unit => exact checkedShift_settled op secs nanos amount unit
    | _ => exact hnumbers.congr (by simp [ResultFits])
  | integer i =>
    refine hnumbers.congr ⟨fun h r hr => h i r rfl hr, fun h l r hl hr => ?_⟩
    cases hl
    exact h r hr
  | _ => exact hnumbers.congr (by simp [ResultFits])

theorem IsOperand.checked {ts : List Token} {o : Operand} (h : IsOperand ts o)
    (ctx : EvalContext) :
    Settled (checkedFieldValue ctx o) (o.Fits ctx) (resolveFieldValue ctx o) := by
  -- the operands of a sum do no arithmetic themselves
  have harithmetic : ∀ {l r : Operand} (op : ArithmeticOp),
      checkedFieldValue ctx l = .ok (resolveFieldValue ctx l) →
      checkedFieldValue ctx r = .ok (resolveFieldValue ctx r) →
      Settled (checkedFieldValue ctx (.arithmetic l op r)) ((Operand.arithmetic l op r).Fits ctx)
        (resolveFieldValue ctx (.arithmetic l op r)) := by
    intro l r op hl hr
    rw [checkedFieldValue, hl, hr, Operand.Fits, resolveFieldValue]
    rcases resolveFieldValue ctx l with _ | leftValue
    · exact Settled.ok none
    · exact checkedArithmeticResult_settled op leftValue r _
  cases h with
  | base hbase =>
    rw [hbase.checked ctx]
    refine (Settled.ok _).congr ?_
    cases hbase.isLeaf with
    | word hword => cases hword <;> rfl
    | _ => rfl
  | arithmetic op hbase hbase' => exact harithmetic op (hbase.checked ctx) (hbase'.checked ctx)
  | shifted op amount unit hbase => exact harithmetic op (hbase.checked ctx) rfl

/-! ## Conditions -/

section Conditions

variable {ctx : EvalContext} {l r : Operand}

theorem checkedPair_settled (hl : Settled (checkedFieldValue ctx l) (l.Fits ctx) (resolveFieldValue ctx l))
    (hr : Settled (checkedFieldValue ctx r) (r.Fits ctx) (resolveFieldValue ctx r))
    (f : FieldValue → FieldValue → Bool) :
    Settled (checkedPair ctx l r f)
      (l.Fits ctx ∧ ((resolveFieldValue ctx l).isSome → r.Fits ctx))
      (do return f (← resolveFieldValue ctx l) (← resolveFieldValue ctx r)) := by
  refine hl.bind fun _ => ?_
  rcases resolveFieldValue ctx l with _ | leftValue
  · exact (Settled.ok none).congr (by simp)
  · refine (hr.bind_ok ?_).congr (by simp)
    rcases resolveFieldValue ctx r with _ | rightValue <;> rfl

theorem compareOperands_arithmetic
    (h : (∃ l₁ op l₂, l = .arithmetic l₁ op l₂) ∨ ∃ r₁ op r₂, r = .arithmetic r₁ op r₂) :
    compareOperands ctx l r =
      do return (← resolveFieldValue ctx l).eqv (← resolveFieldValue ctx r) := by
  rcases h with ⟨l₁, op, l₂, rfl⟩ | ⟨r₁, op, r₂, rfl⟩
  · rfl
  · cases l <;> rfl

theorem checkedCompareOperands_settled
    (hl : Settled (checkedFieldValue ctx l) (l.Fits ctx) (resolveFieldValue ctx l))
    (hr : Settled (checkedFieldValue ctx r) (r.Fits ctx) (resolveFieldValue ctx r)) :
    Settled (checkedCompareOperands ctx l r)
      (l.Fits ctx ∧ ((resolveFieldValue ctx l).isSome → r.Fits ctx))
      (compareOperands ctx l r) := by
  rw [checkedCompareOperands.eq_def]
  split
  · rw [compareOperands_arithmetic (.inl ⟨_, _, _, rfl⟩)]
    exact checkedPair_settled hl hr FieldValue.eqv
  · rw [compareOperands_arithmetic (.inr ⟨_, _, _, rfl⟩)]
    exact checkedPair_settled hl hr FieldValue.eqv
  · rename_i hleft hright
    have hfits : ∀ o : Operand, (∀ o₁ op o₂, o ≠ .arithmetic o₁ op o₂) → o.Fits ctx := by
      intro o ho
      cases o with
      | arithmetic o₁ op o₂ => exact absurd rfl (ho o₁ op o₂)
      | _ => trivial
    refine (Settled.ok _).congr (iff_of_true trivial ⟨hfits l ?_, fun _ => hfits r ?_⟩)
    · exact fun o₁ op o₂ heq => hleft o₁ op o₂ heq
    · exact fun o₁ op o₂ heq => hright o₁ op o₂ heq

theorem checkedItemMatches_settled (value : FieldValue)
    (hl : Settled (checkedFieldValue ctx l) (l.Fits ctx) (resolveFieldValue ctx l)) :
    Settled (checkedItemMatches ctx value l) (l.Fits ctx) (itemMatches ctx value l) := by
  refine hl.bind_ok ?_
  rw [itemMatches]
  rcases resolveFieldValue ctx l with _ | v <;> rfl

theorem checkedAny_settled (value : FieldValue) {items : List Operand}
    (hitems : ∀ item ∈ items,
      Settled (checkedFieldValue ctx item) (item.Fits ctx) (resolveFieldValue ctx item)) :
    Settled (checkedAny ctx value items) (ItemsFit ctx value items)
      (items.any (itemMatches ctx value)) := by
  induction items with
  | nil => exact Settled.ok false
  | cons item items ih =>
    have hitem := checkedItemMatches_settled value (hitems item List.mem_cons_self)
    refine hitem.bind fun _ => ?_
    rw [List.any_cons]
    rcases itemMatches ctx value item with _ | _
    · exact (ih (List.forall_mem_cons.mp hitems).2).congr (by simp)
    · exact (Settled.ok true).congr (by simp)

theorem IsItems.checked {ts : List Token} {items : List Operand} (h : IsItems ts items)
    (ctx : EvalContext) : ∀ item ∈ items,
      Settled (checkedFieldValue ctx item) (item.Fits ctx) (resolveFieldValue ctx item) := by
  induction h with
  | last ho =>
    intro item hitem
    obtain rfl := List.mem_singleton.mp hitem
    exact ho.checked ctx
  | cons ho _ ih =>
    intro item hitem
    rcases List.mem_cons.mp hitem with rfl | hitem
    · exact ho.checked ctx
    · exact ih item hitem

theorem Derives.checked {level : Level} {ts : List Token} {c : Condition}
    (h : Derives level ts c) (ctx : EvalContext) :
    Settled (checkedBool ctx c) (c.Fits ctx) (evalBool ctx c) := by
  induction h with
  | @or _ _ l r _ _ hl hr =>
    refine hl.bind fun _ => ?_
    rw [evalBool]
    rcases evalBool ctx l with _ | _ | _
    · refine (hr.bind_ok ?_).congr (by simp)
      rfl
    · refine (hr.bind_ok ?_).congr (by simp)
      rfl
    · exact (Settled.ok _).congr (by simp)
  | ofAnd _ ih | ofUnary _ ih | ofPrimary _ ih | paren _ ih => exact ih
  | @and _ _ l r _ _ hl hr =>
    refine hl.bind fun _ => ?_
    rw [evalBool]
    rcases evalBool ctx l with _ | _ | _
    · exact (Settled.ok _).congr (by simp)
    · exact (Settled.ok _).congr (by simp)
    · exact hr.congr (by simp)
  | not _ ih => exact ih.bind_ok rfl
  | literal b => exact Settled.ok _
  | bareExists hbase =>
    have htrue : IsOperand [.word "true"] (.boolLiteral true) := .base rfl
    exact checkedCompareOperands_settled ((IsOperand.base hbase).checked ctx) (htrue.checked ctx)
  | @compare _ _ l r op hl _ hr =>
    have hequal := checkedCompareOperands_settled (hl.checked ctx) (hr.checked ctx)
    have hpair := checkedPair_settled (hl.checked ctx) (hr.checked ctx) (compareRelational op)
    cases op with
    | eq => exact hequal
    | ne => exact hequal.bind_ok rfl
    | _ => exact hpair
  | @isIn _ _ l items hl _ hlist =>
    have hitems : ∀ item ∈ items,
        Settled (checkedFieldValue ctx item) (item.Fits ctx) (resolveFieldValue ctx item) := by
      rcases hlist with ⟨-, rfl⟩ | hlist
      · simp
      · exact hlist.checked ctx
    refine (hl.checked ctx).bind fun _ => ?_
    rw [evalBool]
    rcases resolveFieldValue ctx l with _ | value
    · exact (Settled.ok none).congr (by simp)
    · refine ((checkedAny_settled value hitems).bind_ok ?_).congr (by simp)
      rfl

end Conditions

/-- `resource.data.n + 1 < 0`. -/
def belowZero : Condition :=
  .compare (.arithmetic (.resourceField "n") .add (.intLiteral 1)) .lt (.intLiteral 0)

/-- A stored document with one integer. -/
def counterContext (n : Int64) : EvalContext where
  auth := none
  resourceFields := (∅ : Fields).insert "n" (.integer n)
  requestResourceFields := ∅
  pathVariableValue := none
  ancestorPathVariableValues := ∅
  requestTime := none
  crossDocumentReads := ∅

theorem isBase_n : IsBase (.word "resource.data.n") (.resourceField "n") := by
  have hclaim : Text.stripPrefix "request.auth.token." "resource.data.n" = none := by decide
  have hvariable : Text.stripPrefix "request.path." "resource.data.n" = none := by decide
  have hrequest : Text.stripPrefix "request.resource.data." "resource.data.n" = none := by
    decide
  have hfield : Text.stripPrefix "resource.data." "resource.data.n" = some "n" := by decide
  simp [IsBase, parseBaseOperand, wordToOperand, dottedOperand, hclaim, hvariable, hrequest,
    hfield]

theorem parseCondition_belowZero : parseCondition "resource.data.n + 1 < 0" = .ok belowZero := by
  refine parseCondition_eq_ok_iff.mpr ⟨by decide,
    [.word "resource.data.n", .plus, .intLiteral 1, .lt, .intLiteral 0], by decide, ?_⟩
  have hsum : IsOperand [.word "resource.data.n", .plus, .intLiteral 1]
      (.arithmetic (.resourceField "n") .add (.intLiteral 1)) := .arithmetic .add isBase_n rfl
  have hcompare := Derives.compare .lt hsum ⟨by decide, by decide⟩ (.base (t := .intLiteral 0) rfl)
  exact .ofAnd (.ofUnary (.ofPrimary hcompare))

theorem resolveFieldValue_counter (n : Int64) :
    resolveFieldValue (counterContext n) (.resourceField "n") = some (.integer n) := by
  simp [resolveFieldValue, counterContext]

end Embyr
