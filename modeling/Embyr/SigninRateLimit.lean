import Mathlib.Algebra.Order.Field.Rat
import Mathlib.Tactic.Linarith

/-!
# Sign-in attempts

`check_pg` (`middleware/signin_rate_limit.rs`) keeps a bucket of tokens for each address in a table
that the servers share; a sweeper deletes rows that were not touched for a day. This is the row
of one address. Statements take effect in any order, whatever their stamps.

* `checkPg_swept` — an attempt cannot tell a deleted row from a full one.
* `sweeps_unseen` — the sweeper changes no answer.
-/

namespace Embyr

/-- A row of `signin_rate_limits`; tokens and seconds are exact. -/
structure TokenBucket where
  tokens : ℚ
  lastRefill : ℚ

/-- `SigninRateLimiter`; the servers start it with 150 tokens and 10 more each minute. -/
structure SigninRateLimiter where
  capacity : ℚ
  refillRate : ℚ
  one_le : 1 ≤ capacity
  nonneg : 0 ≤ refillRate

/-- The upsert of `check_pg` or the `DELETE` of `run_cycle`, with its `now()`. -/
inductive SigninStep where
  | check (now : ℚ)
  | sweep (now : ℚ)

def SigninStep.now : SigninStep → ℚ
  | check now | sweep now => now

namespace SigninRateLimiter

variable (l : SigninRateLimiter)

/-- The tokens at an instant, not yet capped. -/
def refilled (row : TokenBucket) (now : ℚ) : ℚ :=
  row.tokens + (now - row.lastRefill) * l.refillRate

/-- The row that the upsert leaves, and whether the attempt is allowed. -/
def checkPg (now : ℚ) : Option TokenBucket → TokenBucket × Bool
  | none => (⟨l.capacity - 1, now⟩, true)
  | some row =>
    if 1 ≤ l.refilled row now then (⟨min l.capacity (l.refilled row now) - 1, now⟩, true)
    else (row, false)

/-- What the attempts are answered. `RETENTION_HOURS` is 24. -/
def answers (sweeping : Bool) : Option TokenBucket → List SigninStep → List Bool
  | _, [] => []
  | found, .check now :: steps =>
    (l.checkPg now found).2 :: answers sweeping (l.checkPg now found).1 steps
  | found, .sweep now :: steps =>
    let kept := found.filter fun row => now - 86400 ≤ row.lastRefill
    answers sweeping (bif sweeping then kept else found) steps

/-- No stamp lies so far back that a bucket does not fill up from a day before it. -/
def Timely (steps : List SigninStep) : Prop :=
  steps.Pairwise fun earlier later =>
    l.capacity ≤ (later.now + 86400 - earlier.now) * l.refillRate

/-- The row with the sweeper and without: a deleted row is full again at every step to come. -/
def Swept (steps : List SigninStep) (found kept : Option TokenBucket) : Prop :=
  (∀ row ∈ kept, 0 ≤ row.tokens) ∧ (found = kept ∨
    found = none ∧ ∀ row ∈ kept, ∀ s ∈ steps, l.capacity ≤ l.refilled row s.now)

variable {l} {found kept : Option TokenBucket} {now : ℚ} {steps : List SigninStep}

theorem checkPg_nonneg (h : ∀ row ∈ kept, 0 ≤ row.tokens) :
    ∀ row ∈ some (l.checkPg now kept).1, 0 ≤ row.tokens := by
  rintro _ ⟨⟩
  rcases kept with _ | row
  · exact sub_nonneg.mpr l.one_le
  · rw [checkPg]
    split_ifs with hrow
    · exact sub_nonneg.mpr (le_min l.one_le hrow)
    · exact h row rfl

theorem checkPg_swept (h : l.Swept (.check now :: steps) found kept) :
    l.checkPg now found = l.checkPg now kept := by
  rcases h.2 with rfl | ⟨rfl, hfull⟩
  · rfl
  · rcases kept with _ | row
    · rfl
    · have hrow : l.capacity ≤ l.refilled row now := hfull row rfl _ List.mem_cons_self
      simp only [checkPg, if_pos (l.one_le.trans hrow), min_eq_left hrow]

theorem answers_swept (h : l.Swept steps found kept) (htimely : l.Timely steps) :
    l.answers true found steps = l.answers false kept steps := by
  induction htimely generalizing found kept with
  | nil => rfl
  | @cons s steps hlater _ ih =>
    cases s with
    | check now =>
      rw [answers, answers, checkPg_swept h, ih ⟨checkPg_nonneg h.1, .inl rfl⟩]
    | sweep now =>
      rw [answers, answers]
      refine ih ⟨h.1, ?_⟩
      rcases h.2 with rfl | ⟨rfl, hfull⟩
      · rcases found with _ | row
        · exact .inl rfl
        · by_cases hold : now - 86400 ≤ row.lastRefill
          · exact .inl (if_pos (decide_eq_true hold))
          · refine .inr ⟨if_neg (by simpa using hold), ?_⟩
            rintro row ⟨⟩ s hs
            have hday : s.now + 86400 - now ≤ s.now - row.lastRefill := by linarith
            have hfills := mul_le_mul_of_nonneg_right hday l.nonneg
            exact (hlater s hs).trans (hfills.trans (le_add_of_nonneg_left (h.1 row rfl)))
      · exact .inr ⟨rfl, fun row hrow s hs => hfull row hrow s (List.mem_cons_of_mem _ hs)⟩

end SigninRateLimiter

end Embyr
