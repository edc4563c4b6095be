import Embyr.Lib.Binary64

/-!
# Rounding is monotone

The conversion of integers to doubles keeps the order, though not strictly.

* `roundHalfEven_mono` — with one denominator.
* `pow_le_roundMagnitude`, `roundMagnitude_le_pow` — rounding stays in the binade, its upper end
  included; so `roundMagnitude_mono`, across binades.
* `intUnits`, `partialCmp_ofInt` — integers of 64 bits are compared by their rounded units.
* `compare_intUnits` — so their comparison is the one of the integers, or a tie.
-/

namespace Binary64

open Double

/-! ## Magnitudes -/

theorem le_roundHalfEven (num den : ℕ) : num / den ≤ roundHalfEven num den := by
  rw [roundHalfEven]
  split_ifs <;> omega

theorem roundHalfEven_mono {num num' den : ℕ} (h : num ≤ num') :
    roundHalfEven num den ≤ roundHalfEven num' den := by
  have hfloor : num / den ≤ num' / den := Nat.div_le_div_right h
  rcases hfloor.lt_or_eq with hlt | heq
  · calc roundHalfEven num den ≤ num / den + 1 := roundHalfEven_le num den
      _ ≤ num' / den := hlt
      _ ≤ roundHalfEven num' den := le_roundHalfEven num' den
  · -- the same floor, so the remainders are in order
    have hmod : num % den ≤ num' % den := by
      have hnum := Nat.div_add_mod num den
      have hnum' := Nat.div_add_mod num' den
      rw [heq] at hnum
      omega
    rw [roundHalfEven, roundHalfEven, heq]
    split_ifs <;> omega

theorem ulp_dvd_pow {num den e : ℕ} (h : Nat.log 2 (num / den) ≤ e) : ulp num den ∣ 2 ^ e := by
  rw [ulp]
  exact pow_dvd_pow 2 (by omega)

theorem ulp_pos (num den : ℕ) : 0 < ulp num den := Nat.pow_pos (by norm_num)

theorem pow_le_roundMagnitude {num den : ℕ} (h : num / den ≠ 0) :
    2 ^ Nat.log 2 (num / den) ≤ roundMagnitude num den := by
  rw [roundMagnitude]
  calc 2 ^ Nat.log 2 (num / den) = ulp num den * (2 ^ Nat.log 2 (num / den) / ulp num den) :=
        (Nat.mul_div_cancel' (ulp_dvd_pow le_rfl)).symm
    _ ≤ ulp num den * (num / den / ulp num den) :=
        Nat.mul_le_mul_left _ (Nat.div_le_div_right (Nat.pow_log_le_self 2 h))
    _ = ulp num den * (num / (den * ulp num den)) := by rw [Nat.div_div_eq_div_mul]
    _ ≤ ulp num den * roundHalfEven num (den * ulp num den) :=
        Nat.mul_le_mul_left _ (le_roundHalfEven ..)

theorem roundMagnitude_le_pow (num den : ℕ) :
    roundMagnitude num den ≤ 2 ^ (Nat.log 2 (num / den) + 1) := by
  have hdvd : ulp num den ∣ 2 ^ (Nat.log 2 (num / den) + 1) := ulp_dvd_pow (Nat.le_succ _)
  have hquot : num / (den * ulp num den) < 2 ^ (Nat.log 2 (num / den) + 1) / ulp num den := by
    rw [← Nat.div_div_eq_div_mul]
    refine Nat.div_lt_of_lt_mul ?_
    rw [Nat.mul_div_cancel' hdvd]
    exact Nat.lt_pow_succ_log_self (by norm_num) _
  rw [roundMagnitude]
  calc ulp num den * roundHalfEven num (den * ulp num den)
      ≤ ulp num den * (num / (den * ulp num den) + 1) :=
        Nat.mul_le_mul_left _ (roundHalfEven_le ..)
    _ ≤ ulp num den * (2 ^ (Nat.log 2 (num / den) + 1) / ulp num den) :=
        Nat.mul_le_mul_left _ hquot
    _ = 2 ^ (Nat.log 2 (num / den) + 1) := Nat.mul_div_cancel' hdvd

/-- What a double can hold is not rounded. -/
theorem roundMagnitude_exact {k den : ℕ} (hden : 0 < den) (hk : Representable k) :
    roundMagnitude (k * den) den = k := by
  have hquot : k * den / den = k := Nat.mul_div_cancel k hden
  have hdvd : ulp (k * den) den ∣ k := by
    rw [ulp, hquot]
    exact hk.2
  have hpos : 0 < den * ulp (k * den) den := Nat.mul_pos hden (ulp_pos _ _)
  have hwhole : k * den = den * ulp (k * den) den * (k / ulp (k * den) den) := by
    rw [Nat.mul_assoc, Nat.mul_div_cancel' hdvd, Nat.mul_comm]
  have hround : roundHalfEven (k * den) (den * ulp (k * den) den) = k / ulp (k * den) den := by
    rw [roundHalfEven, ← Nat.div_div_eq_div_mul, hquot]
    have hmod : k * den % (den * ulp (k * den) den) = 0 :=
      Nat.mod_eq_zero_of_dvd (Dvd.intro _ hwhole.symm)
    simp [hmod, hpos]
  rw [roundMagnitude, hround, Nat.mul_div_cancel' hdvd]

@[simp] theorem roundMagnitude_zero : roundMagnitude 0 1 = 0 := by
  simp [roundMagnitude, roundHalfEven, ulp]

theorem roundMagnitude_mono {m n : ℕ} (h : m ≤ n) : roundMagnitude m 1 ≤ roundMagnitude n 1 := by
  rcases eq_or_ne m 0 with rfl | hm
  · rw [roundMagnitude_zero]
    exact Nat.zero_le _
  rcases (Nat.log_mono_right (b := 2) h).lt_or_eq with hlt | heq
  · calc roundMagnitude m 1 ≤ 2 ^ (Nat.log 2 (m / 1) + 1) := roundMagnitude_le_pow m 1
      _ ≤ 2 ^ Nat.log 2 (n / 1) := by
          rw [Nat.div_one, Nat.div_one]
          exact Nat.pow_le_pow_right (by norm_num) hlt
      _ ≤ roundMagnitude n 1 := pow_le_roundMagnitude (by rw [Nat.div_one]; omega)
  · have hulp : ulp m 1 = ulp n 1 := by rw [ulp, ulp, Nat.div_one, Nat.div_one, heq]
    rw [roundMagnitude, roundMagnitude, hulp]
    exact Nat.mul_le_mul_left _ (roundHalfEven_mono h)

/-! ## Integers -/

/-- The units of the double nearest to an integer. -/
def intUnits (n : ℤ) : ℤ :=
  if n < 0 then -(roundMagnitude (n.natAbs * 2 ^ 1074) 1 : ℤ)
  else roundMagnitude (n.natAbs * 2 ^ 1074) 1

theorem intUnits_mono {m n : ℤ} (h : m ≤ n) : intUnits m ≤ intUnits n := by
  rw [intUnits, intUnits]
  split_ifs with hm hn
  · have hle : n.natAbs ≤ m.natAbs := by omega
    have hround := roundMagnitude_mono (Nat.mul_le_mul_right (2 ^ 1074) hle)
    omega
  · exact (neg_nonpos.mpr (Int.natCast_nonneg _)).trans (Int.natCast_nonneg _)
  · omega
  · have hle : m.natAbs ≤ n.natAbs := by omega
    have hround := roundMagnitude_mono (Nat.mul_le_mul_right (2 ^ 1074) hle)
    omega

/-- An integer of 64 bits is far from the infinities. -/
theorem roundMagnitude_int_lt {n : ℕ} (h : n ≤ 2 ^ 63) :
    roundMagnitude (n * 2 ^ 1074) 1 < 2 ^ 2098 := by
  have hle : n * 2 ^ 1074 ≤ 2 ^ 1137 := by
    calc n * 2 ^ 1074 ≤ 2 ^ 63 * 2 ^ 1074 := Nat.mul_le_mul_right _ h
      _ = 2 ^ 1137 := by rw [← pow_add]
  have hlog : Nat.log 2 (2 ^ 1137 / 1) + 1 < 2098 := by
    rw [Nat.div_one, Nat.log_pow (by norm_num)]
    norm_num
  calc roundMagnitude (n * 2 ^ 1074) 1 ≤ roundMagnitude (2 ^ 1137) 1 := roundMagnitude_mono hle
    _ ≤ 2 ^ (Nat.log 2 (2 ^ 1137 / 1) + 1) := roundMagnitude_le_pow _ _
    _ < 2 ^ 2098 := Nat.pow_lt_pow_right (by norm_num) hlog

theorem ofInt_eq {n : ℤ} (h : n.natAbs ≤ 2 ^ 63) :
    ∃ magnitude : Magnitude, ofInt n = .fin (n < 0) magnitude ∧
      signedUnits (n < 0) magnitude = intUnits n := by
  have hlt := roundMagnitude_int_lt h
  refine ⟨⟨_, hlt, roundMagnitude_dvd _ _⟩, ?_, ?_⟩
  · rw [ofInt, roundScaled, dif_pos hlt]
  · rw [signedUnits, intUnits]
    simp only [decide_eq_true_eq]

theorem partialCmp_ofInt {m n : ℤ} (hm : m.natAbs ≤ 2 ^ 63) (hn : n.natAbs ≤ 2 ^ 63) :
    (ofInt m).partialCmp (ofInt n) = some (compare (intUnits m) (intUnits n)) := by
  obtain ⟨magnitude, hmeq, hmunits⟩ := ofInt_eq hm
  obtain ⟨magnitude', hneq, hnunits⟩ := ofInt_eq hn
  rw [hmeq, hneq, partialCmp, hmunits, hnunits]

/-- Rounding may make two integers equal, but never swaps them. -/
theorem compare_intUnits (m n : ℤ) :
    compare (intUnits m) (intUnits n) = if intUnits m = intUnits n then .eq else compare m n := by
  split_ifs with h
  · rw [h]
    exact compare_eq_iff_eq.mpr rfl
  rcases lt_trichotomy m n with hlt | rfl | hgt
  · rw [compare_lt_iff_lt.mpr hlt]
    exact compare_lt_iff_lt.mpr (lt_of_le_of_ne (intUnits_mono hlt.le) h)
  · exact absurd rfl h
  · rw [compare_gt_iff_gt.mpr hgt]
    exact compare_gt_iff_gt.mpr (lt_of_le_of_ne (intUnits_mono hgt.le) (Ne.symm h))

theorem Double.feq_comm (x y : Double) : x.feq y = y.feq x := by
  rw [feq, feq, decide_eq_decide]
  rcases x with _ | s | ⟨s, a⟩ <;> rcases y with _ | t | ⟨t, b⟩ <;>
    simp only [partialCmp, Option.some.injEq, reduceCtorEq, compare_eq_iff_eq]
  · exact eq_comm
  · split_ifs <;> simp
  · split_ifs <;> simp
  · exact eq_comm

theorem partialCmp_ofInt_of_ne {m n : ℤ} (hm : m.natAbs ≤ 2 ^ 63) (hn : n.natAbs ≤ 2 ^ 63)
    (h : ¬(ofInt m).feq (ofInt n)) :
    (ofInt m).partialCmp (ofInt n) = some (compare m n) := by
  rw [feq, partialCmp_ofInt hm hn, decide_eq_true_eq, Option.some.injEq,
    compare_eq_iff_eq] at h
  rw [partialCmp_ofInt hm hn, compare_intUnits, if_neg h]

end Binary64
