import Mathlib.Data.Nat.Log
import Mathlib.Tactic

/-!
# IEEE 754 binary64 values

Doubles up to the payload of NaN, as exact numbers. A finite double is a sign
and a magnitude counted in units of `2 ^ (-1074)`, the smallest positive
subnormal, so every finite double is a natural number of units.

* `Magnitude` — the representable counts: below `2 ^ 2098` and with at most 53
  significant bits. The bound and the divisibility are fields, so a value that
  needs a 54th bit cannot be built.
* `roundScaled` — round-to-nearest, ties to even, of an exact fraction of units;
  overflow gives the infinity of the sign.
* `add`, `neg`, `ofInt`, and the comparisons `feq`, `flt`, `fle` of IEEE 754: NaN
  is unordered and unequal to itself, the two zeros are equal.
-/

namespace Binary64

/-! ## Magnitudes -/

/-- A count of units of `2 ^ (-1074)` that fits a 53-bit significand. -/
def Representable (k : ℕ) : Prop := k < 2 ^ 2098 ∧ 2 ^ (Nat.log 2 k - 52) ∣ k

/-- The magnitude of a finite double. -/
structure Magnitude where
  /-- the magnitude in units of `2 ^ (-1074)` -/
  units : ℕ
  /-- it is the magnitude of a double -/
  representable : Representable units
  deriving DecidableEq

/-- The nearest integer to `num / den`, ties to even. -/
def roundHalfEven (num den : ℕ) : ℕ :=
  let floor := num / den
  let twice := 2 * (num % den)
  if twice < den then floor
  else if den < twice then floor + 1
  else if floor % 2 = 0 then floor else floor + 1

theorem roundHalfEven_le (num den : ℕ) : roundHalfEven num den ≤ num / den + 1 := by
  unfold roundHalfEven
  dsimp only
  split_ifs <;> omega

/-- The unit in the last place of `num / den`, as a power of two of units. -/
def ulp (num den : ℕ) : ℕ := 2 ^ (Nat.log 2 (num / den) - 52)

/-- `num / den` units rounded to 53 significant bits, with no bound on the
exponent. -/
def roundMagnitude (num den : ℕ) : ℕ :=
  ulp num den * roundHalfEven num (den * ulp num den)

/-- Rounding leaves at most 53 significant bits, also when it carries into the
next binade. -/
theorem roundMagnitude_dvd (num den : ℕ) :
    2 ^ (Nat.log 2 (roundMagnitude num den) - 52) ∣ roundMagnitude num den := by
  set e := Nat.log 2 (num / den) - 52
  set m := roundHalfEven num (den * ulp num den)
  have hr : roundMagnitude num den = 2 ^ e * m := rfl
  have hquot : num / (den * ulp num den) < 2 ^ 53 := by
    rw [← Nat.div_div_eq_div_mul]
    refine Nat.div_lt_of_lt_mul ?_
    calc num / den < 2 ^ (Nat.log 2 (num / den) + 1) := Nat.lt_pow_succ_log_self (by norm_num) _
      _ ≤ 2 ^ (e + 53) := Nat.pow_le_pow_right (by norm_num) (by omega)
      _ = ulp num den * 2 ^ 53 := by rw [pow_add]; rfl
  have hle : m ≤ 2 ^ 53 := (roundHalfEven_le _ _).trans hquot
  rw [hr]
  rcases Nat.lt_or_ge m (2 ^ 53) with hlt | hge
  · -- no carry: the exponent of the result is at most the exponent of the ulp
    refine Dvd.dvd.mul_right (pow_dvd_pow 2 ?_) m
    have hlog : Nat.log 2 (2 ^ e * m) < e + 53 := by
      refine Nat.log_lt_of_lt_pow' (by omega) ?_
      rw [pow_add]
      exact Nat.mul_lt_mul_of_pos_left hlt (by positivity)
    omega
  · -- carry: the result is a power of two
    have hcarry : m = 2 ^ 53 := le_antisymm hle hge
    rw [hcarry, ← pow_add, Nat.log_pow (by norm_num)]
    exact pow_dvd_pow 2 (by omega)

/-! ## Doubles -/

/-- A binary64 value, all NaNs identified. -/
inductive Double where
  | nan
  | inf (negative : Bool)
  | fin (negative : Bool) (magnitude : Magnitude)
  deriving DecidableEq

namespace Double

/-- `num / den` units with the given sign, rounded to the nearest double. -/
def roundScaled (negative : Bool) (num den : ℕ) : Double :=
  if h : roundMagnitude num den < 2 ^ 2098 then
    .fin negative ⟨roundMagnitude num den, h, roundMagnitude_dvd num den⟩
  else .inf negative

/-- Positive zero. -/
def zero : Double := .fin false ⟨0, by norm_num [Representable]⟩

/-- The value of a finite double, in signed units. -/
def signedUnits (negative : Bool) (magnitude : Magnitude) : ℤ :=
  if negative then -(magnitude.units : ℤ) else magnitude.units

/-- The integer `n` converted to the nearest double. -/
def ofInt (n : ℤ) : Double := roundScaled (n < 0) (n.natAbs * 2 ^ 1074) 1

/-- The decimal `digits / 10 ^ scale` converted to the nearest double. -/
def ofDecimal (negative : Bool) (digits scale : ℕ) : Double :=
  roundScaled negative (digits * 2 ^ 1074) (10 ^ scale)

/-- Sign change, of NaN as well. -/
def neg : Double → Double
  | .nan => .nan
  | .inf negative => .inf !negative
  | .fin negative magnitude => .fin (!negative) magnitude

/-- Addition: exact sum of the units, then one rounding. -/
def add : Double → Double → Double
  | .nan, _ | _, .nan => .nan
  | .inf s, .inf t => if s = t then .inf s else .nan
  | .inf s, .fin _ _ | .fin _ _, .inf s => .inf s
  | .fin s a, .fin t b =>
    let sum := signedUnits s a + signedUnits t b
    -- an exact zero is negative only when both operands are
    if sum = 0 then roundScaled (s && t) 0 1
    else roundScaled (sum < 0) sum.natAbs 1

/-- Subtraction. -/
def sub (x y : Double) : Double := add x (neg y)

/-- The comparison of two doubles, `none` when one of them is NaN. -/
def partialCmp : Double → Double → Option Ordering
  | .nan, _ | _, .nan => none
  | .inf s, .inf t => some (compare t s)
  | .inf s, .fin _ _ => some (if s then .lt else .gt)
  | .fin _ _, .inf t => some (if t then .gt else .lt)
  | .fin s a, .fin t b => some (compare (signedUnits s a) (signedUnits t b))

/-- IEEE equality. -/
def feq (x y : Double) : Bool := partialCmp x y = some .eq

/-- IEEE less-than. -/
def flt (x y : Double) : Bool := partialCmp x y = some .lt

/-- IEEE less-or-equal. -/
def fle (x y : Double) : Bool := flt x y || feq x y

example : add (ofInt (2 ^ 53)) (ofInt 1) = ofInt (2 ^ 53) := by decide +kernel

end Double

end Binary64
