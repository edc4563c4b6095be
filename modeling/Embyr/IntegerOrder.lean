import Embyr.Lib.Rounding
import Embyr.Condition
import Embyr.FieldTransform

/-!
# The order of two integers

Rules and transforms compare two stored integers through their doubles.

* `CompareOp.OnIntegers`, `Extremum.ofIntegers` — what the operators and the transforms are for.
* `ComparedExactly` — they do that on a pair of integers.
* `compared_exactly_iff` — exactly on the pairs that do not round together.
-/

namespace Embyr

open Binary64 CompareOp Double

/-- What a relational operator says of two integers. -/
def CompareOp.OnIntegers : CompareOp → ℤ → ℤ → Prop
  | .lt, a, b => a < b
  | .le, a, b => a ≤ b
  | .gt, a, b => b < a
  | .ge, a, b => b ≤ a
  | .eq, a, b => a = b
  | .ne, a, b => a ≠ b

/-- The integer that `maximum` or `minimum` is to store. -/
def Extremum.ofIntegers : Extremum → Int64 → Int64 → Int64
  | .maximum, a, b => if b.toInt ≤ a.toInt then a else b
  | .minimum, a, b => if a.toInt ≤ b.toInt then a else b

/-- `<`, `<=`, `>` and `>=`, the operators that reach `compare_relational`. -/
def CompareOp.relational : List CompareOp := [.lt, .le, .gt, .ge]

/-- The rule operators on `a` and `b`, and the two transforms of a stored `a` with a given
`b`, follow the order of the integers. -/
structure ComparedExactly (a b : Int64) : Prop where
  operators : ∀ op ∈ CompareOp.relational,
    (compareRelational op (.integer a) (.integer b) = true ↔ op.OnIntegers a.toInt b.toInt)
  transforms : ∀ which : Extremum, computeExtremum (some (.integer a)) (.integer b) which =
    .ok (.integer (which.ofIntegers a b))

/-! ## Through the doubles -/

theorem natAbs_toInt_le (a : Int64) : a.toInt.natAbs ≤ 2 ^ 63 := by
  have hle := a.le_toInt
  have hlt := a.toInt_lt
  omega

theorem compareRelational_integer (op : CompareOp) (a b : Int64) :
    compareRelational op (.integer a) (.integer b) =
      op.holds ((ofInt a.toInt).partialCmp (ofInt b.toInt)) := rfl

theorem computeExtremum_integer (a b : Int64) (which : Extremum) :
    computeExtremum (some (.integer a)) (.integer b) which =
      .ok (pickExtremum (.integer a) (.integer b) which) := rfl

theorem holds_compare_iff {op : CompareOp} (hop : op ∈ relational) (a b : ℤ) :
    op.holds (some (compare a b)) = true ↔ op.OnIntegers a b := by
  have hlt : compare a b = .lt ↔ a < b := compare_lt_iff_lt
  have heq : compare a b = .eq ↔ a = b := compare_eq_iff_eq
  have hgt : compare a b = .gt ↔ b < a := compare_gt_iff_gt
  simp only [relational, List.mem_cons, List.not_mem_nil, or_false] at hop
  rcases hop with rfl | rfl | rfl | rfl <;>
    simp only [holds, CompareOp.OnIntegers, Option.some.injEq, Bool.or_eq_true,
      decide_eq_true_eq, hlt, heq, hgt] <;> omega

theorem fle_ofInt_of_ne {m n : ℤ} (hm : m.natAbs ≤ 2 ^ 63) (hn : n.natAbs ≤ 2 ^ 63)
    (h : ¬(ofInt m).feq (ofInt n)) :
    (ofInt m).fle (ofInt n) = true ↔ m ≤ n := by
  rw [fle, flt, feq, partialCmp_ofInt_of_ne hm hn h]
  simp only [Option.some.injEq, Bool.or_eq_true, decide_eq_true_eq, compare_lt_iff_lt,
    compare_eq_iff_eq]
  omega

theorem ComparedExactly.of_ne {a b : Int64}
    (h : ¬(ofInt a.toInt).feq (ofInt b.toInt)) : ComparedExactly a b where
  operators op hop := by
    rw [compareRelational_integer,
      partialCmp_ofInt_of_ne (natAbs_toInt_le a) (natAbs_toInt_le b) h]
    exact holds_compare_iff hop _ _
  transforms which := by
    have h' : ¬(ofInt b.toInt).feq (ofInt a.toInt) := by rwa [feq_comm]
    have hle := fle_ofInt_of_ne (natAbs_toInt_le a) (natAbs_toInt_le b) h
    have hge := fle_ofInt_of_ne (natAbs_toInt_le b) (natAbs_toInt_le a) h'
    rw [computeExtremum_integer]
    cases which with
    | maximum => simp only [pickExtremum, asF64, Extremum.ofIntegers, hge]; split_ifs <;> rfl
    | minimum => simp only [pickExtremum, asF64, Extremum.ofIntegers, hle]; split_ifs <;> rfl

/-- Equal integers tie, and a tie keeps the stored one. -/
theorem ComparedExactly.refl (a : Int64) : ComparedExactly a a where
  operators op hop := by
    rw [compareRelational_integer, partialCmp_ofInt (natAbs_toInt_le a) (natAbs_toInt_le a),
      holds_compare_iff hop]
    simp only [relational, List.mem_cons, List.not_mem_nil, or_false] at hop
    rcases hop with rfl | rfl | rfl | rfl <;> simp [CompareOp.OnIntegers]
  transforms which := by
    cases which <;> simp [computeExtremum_integer, pickExtremum, Extremum.ofIntegers]

/-- Integers that round together tie, so neither is found less. -/
theorem ComparedExactly.eq_of_feq {a b : Int64} (h : ComparedExactly a b)
    (hround : (ofInt a.toInt).feq (ofInt b.toInt)) : a = b := by
  rw [feq, decide_eq_true_eq] at hround
  have hlt := h.operators .lt (by decide)
  have hgt := h.operators .gt (by decide)
  rw [compareRelational_integer, hround] at hlt hgt
  simp only [holds, CompareOp.OnIntegers] at hlt hgt
  refine Int64.toInt_inj.mp ?_
  simp at hlt hgt
  omega

/-- **Exact on the pairs that do not round together.** -/
theorem compared_exactly_iff (a b : Int64) :
    ComparedExactly a b ↔ ((Double.ofInt a.toInt).feq (Double.ofInt b.toInt) → a = b) := by
  constructor
  · intro h hround
    exact h.eq_of_feq hround
  · intro h
    by_cases hround : (ofInt a.toInt).feq (ofInt b.toInt) = true
    · obtain rfl := h hround
      exact ComparedExactly.refl a
    · exact ComparedExactly.of_ne hround

/-- `2^53 + 1` rounds to `2^53`: the smaller is not found less, and it stays the maximum. -/
theorem rounded_together :
    (2 ^ 53 : Int64).toInt < (2 ^ 53 + 1 : Int64).toInt ∧
      compareRelational .lt (.integer (2 ^ 53)) (.integer (2 ^ 53 + 1)) = false ∧
      computeExtremum (some (.integer (2 ^ 53))) (.integer (2 ^ 53 + 1)) .maximum =
        .ok (.integer (2 ^ 53)) := by
  decide +kernel

end Embyr
