import Mathlib.Logic.Relation
import Mathlib.Logic.Function.Basic
import Mathlib.Data.Nat.Notation
import Mathlib.Tactic.SplitIfs
import Mathlib.Data.List.Forall2

/-!
# Programs that call an outside world

A program computes, and from time to time asks the outside world something and goes on
with the answer. `Prog A ε R` is the tree of everything it may do: `Q` are the
questions, `A q` the answers to `q`.

One program has several meanings.

* `Prog.run` — alone, against a world that answers deterministically.
* `Prog.Only` — against any world at all: the questions it may ask.
* `Prog.Obeys` — against any world at all, watched by a `Monitor` that says which
  question is allowed next. `obeys_bind` is its sequencing rule.
* `Machine.Ends` — one program on a machine that may answer in several ways.
* `Machine.Step`, `Reach` — many programs, one per session, taking turns on one machine.
  `Reach.invariant` is the rule for invariants: each session obeys its own monitor, so
  only allowed questions have to be considered. `Config.follow` executes a schedule, and
  `Config.reach_of_follow` makes its outcome a run.
* `Machine.traced` — a machine that writes down its answers, for properties of the past.
-/

namespace Program

open Function List

/-- A program with questions `Q`, answers `A`, errors `ε` and results `R`. -/
inductive Prog {Q : Type} (A : Q → Type) (ε R : Type) where
  | ok (r : R)
  | error (e : ε)
  | call (q : Q) (k : A q → Prog A ε R)

variable {Q : Type} {A : Q → Type} {ε ε' R R' : Type}

variable {α : Type} {xs : List α} {r : R} {g : ε → ε'}

namespace Prog

variable {p : Prog A ε R} {f : R → Prog A ε R'}

/-! ## Building programs -/

/-- Sequencing; an error skips the rest. -/
protected def bind : Prog A ε R → (R → Prog A ε R') → Prog A ε R'
  | ok r, f => f r
  | error e, _ => error e
  | call q k, f => call q fun a => (k a).bind f

instance : Monad (Prog A ε) where
  pure := ok
  bind := Prog.bind

/-- Ask one question. -/
def ask (q : Q) : Prog A ε (A q) := call q ok

/-- A computation that asks nothing. -/
def ofExcept : Except ε R → Prog A ε R
  | .ok r => ok r
  | .error e => error e

/-- Change the errors, not the results. -/
def mapError (f : ε → ε') : Prog A ε R → Prog A ε' R
  | ok r => ok r
  | error e => error (f e)
  | call q k => call q fun a => (k a).mapError f

/-- Catch the errors. -/
def attempt : Prog A ε R → Prog A ε' (Except ε R)
  | ok r => ok (.ok r)
  | error e => ok (.error e)
  | call q k => call q fun a => (k a).attempt

/-- Do `f` for each element. -/
def forEach {α : Type} (f : α → Prog A ε Unit) : List α → Prog A ε Unit
  | [] => ok ()
  | x :: xs => do
    f x
    forEach f xs

/-- A loop whose turns do nothing does nothing. -/
theorem forEach_eq_ok {f : α → Prog A ε Unit}
    (h : ∀ x ∈ xs, f x = ok ()) : forEach f xs = ok () := by
  induction xs with
  | nil => rfl
  | cons x xs ih =>
    rw [forEach, h x mem_cons_self]
    exact ih (forall_mem_cons.mp h).2

/-- Do `f` for each element and list the results. -/
def mapEach {α β : Type} (f : α → Prog A ε β) : List α → Prog A ε (List β)
  | [] => ok []
  | x :: xs => do
    let y ← f x
    let ys ← mapEach f xs
    return y :: ys

/-- The program has ended with a result. -/
def isOk : Prog A ε R → Bool
  | ok _ => true
  | error _ | call _ _ => false

theorem isOk_iff : p.isOk = true ↔ ∃ r, p = ok r := by
  cases p with
  | ok r => exact ⟨fun _ => ⟨r, rfl⟩, fun _ => rfl⟩
  | error | call => exact ⟨nofun, fun ⟨r, hr⟩ => nomatch hr⟩

@[simp] theorem pure_eq (r : R) : (pure r : Prog A ε R) = ok r := rfl

@[simp] theorem ok_bind (r : R) (f : R → Prog A ε R') : (ok r : Prog A ε R) >>= f = f r := rfl

@[simp] theorem error_bind (e : ε) (f : R → Prog A ε R') :
    (error e : Prog A ε R) >>= f = error e := rfl

@[simp] theorem call_bind (q : Q) (k : A q → Prog A ε R) (f : R → Prog A ε R') :
    call q k >>= f = call q fun a => k a >>= f := rfl

@[simp] theorem ask_bind (q : Q) (f : A q → Prog A ε R') : ask q >>= f = call q f := rfl

/-! ## Running alone -/

section Run

variable {W : Type} (answer : (q : Q) → W → A q × W) {w w' : W}

/-- The result and the world left behind. -/
def run : Prog A ε R → W → Except ε R × W
  | ok r, w => (.ok r, w)
  | error e, w => (.error e, w)
  | call q k, w => (k (answer q w).1).run (answer q w).2

@[simp] theorem run_ok (r : R) (w : W) : (ok r : Prog A ε R).run answer w = (.ok r, w) := rfl

@[simp] theorem run_error (e : ε) (w : W) :
    (error e : Prog A ε R).run answer w = (.error e, w) := rfl

@[simp] theorem run_call (q : Q) (k : A q → Prog A ε R) (w : W) :
    (call q k).run answer w = (k (answer q w).1).run answer (answer q w).2 := rfl

theorem run_bind (p : Prog A ε R) (f : R → Prog A ε R') (w : W) :
    (p >>= f).run answer w =
      match p.run answer w with
      | (.ok r, w') => (f r).run answer w'
      | (.error e, w') => (.error e, w') := by
  induction p generalizing w with
  | ok | error => rfl
  | call q k ih => exact ih (answer q w).1 (answer q w).2

theorem run_bind_ok (h : p.run answer w = (.ok r, w')) : (p >>= f).run answer w = (f r).run answer w' := by
  rw [run_bind, h]

theorem run_bind_error {e : ε} (h : p.run answer w = (.error e, w')) :
    (p >>= f).run answer w = (.error e, w') := by
  rw [run_bind, h]

theorem run_bind_eq_ok {r : R'} (h : (p >>= f).run answer w = (.ok r, w')) :
    ∃ x w₁, p.run answer w = (.ok x, w₁) ∧ (f x).run answer w₁ = (.ok r, w') := by
  rw [run_bind] at h
  rcases hp : p.run answer w with ⟨e | x, w₁⟩
  · rw [hp] at h
    cases h
  · rw [hp] at h
    exact ⟨x, w₁, rfl, h⟩

@[simp] theorem run_ofExcept (x : Except ε R) (w : W) :
    (ofExcept x : Prog A ε R).run answer w = (x, w) := by
  cases x <;> rfl

theorem run_mapError (g : ε → ε') (p : Prog A ε R) (w : W) :
    (p.mapError g).run answer w = ((p.run answer w).1.mapError g, (p.run answer w).2) := by
  induction p generalizing w with
  | ok | error => rfl
  | call q k ih => exact ih (answer q w).1 (answer q w).2

theorem run_attempt (p : Prog A ε R) (w : W) :
    (p.attempt : Prog A ε' (Except ε R)).run answer w =
      (.ok (p.run answer w).1, (p.run answer w).2) := by
  induction p generalizing w with
  | ok | error => rfl
  | call q k ih => exact ih (answer q w).1 (answer q w).2

theorem run_mapError_eq_ok (h : (p.mapError g).run answer w = (.ok r, w')) : p.run answer w = (.ok r, w') := by
  rw [run_mapError] at h
  obtain ⟨hresult, rfl⟩ := Prod.mk.inj h
  rcases hp : (p.run answer w).1 with e | x
  · rw [hp] at hresult
    cases hresult
  · rw [hp] at hresult
    cases hresult
    exact Prod.ext hp rfl

/-- The questions of a run, each with the world it was asked in. -/
def asked : Prog A ε R → W → List (Q × W)
  | ok _, _ | error _, _ => []
  | call q k, w => (q, w) :: (k (answer q w).1).asked (answer q w).2

theorem asked_bind_ok (h : p.run answer w = (.ok r, w')) :
    (p >>= f).asked answer w = p.asked answer w ++ (f r).asked answer w' := by
  induction p generalizing w with
  | ok x =>
    obtain ⟨hx, rfl⟩ := Prod.mk.inj h
    cases hx
    rfl
  | error e => cases h
  | call q k ih => exact congrArg (_ :: ·) (ih _ h)

theorem asked_mapError (g : ε → ε') (p : Prog A ε R) (w : W) :
    (p.mapError g).asked answer w = p.asked answer w := by
  induction p generalizing w with
  | ok | error => rfl
  | call q k ih => exact congrArg (_ :: ·) (ih (answer q w).1 (answer q w).2)

end Run

end Prog

/-! ## Asking only certain questions -/

variable {W : Type} {answer : (q : Q) → W → A q × W} {w w' : W}

variable {x : Except ε R}

namespace Prog

variable {p : Prog A ε R} {f : R → Prog A ε R'}

/-- Whatever the answers, `p` asks only questions in `P`. -/
def Only (P : Q → Prop) : Prog A ε R → Prop
  | ok _ => True
  | error _ => True
  | call q k => P q ∧ ∀ a, Only P (k a)

variable {P : Q → Prop}

theorem Only.bind (hp : p.Only P) (hf : ∀ r, (f r).Only P) : (p >>= f).Only P := by
  induction p with
  | ok r => exact hf r
  | error e => trivial
  | call q k ih => exact ⟨hp.1, fun a => ih a (hp.2 a)⟩

theorem Only.ask {q : Q} {f : A q → Prog A ε R} (h : P q) (hf : ∀ a, (f a).Only P) :
    (Prog.ask q >>= f).Only P :=
  ⟨h, hf⟩

theorem Only.ofExcept (x : Except ε R) : (Prog.ofExcept x : Prog A ε R).Only P := by
  cases x <;> trivial

theorem Only.mapError (hp : p.Only P) (g : ε → ε') :
    (p.mapError g).Only P := by
  induction p with
  | ok | error => trivial
  | call q k ih => exact ⟨hp.1, fun a => ih a (hp.2 a)⟩

theorem Only.attempt (hp : p.Only P) :
    (p.attempt : Prog A ε' (Except ε R)).Only P := by
  induction p with
  | ok | error => trivial
  | call q k ih => exact ⟨hp.1, fun a => ih a (hp.2 a)⟩

theorem Only.forEach {f : α → Prog A ε Unit}
    (hf : ∀ x ∈ xs, (f x).Only P) : (Prog.forEach f xs).Only P := by
  induction xs with
  | nil => trivial
  | cons x xs ih =>
    refine (hf x mem_cons_self).bind fun _ => ?_
    exact ih (forall_mem_cons.mp hf).2

variable {β : Type}

theorem Only.mapEach {f : α → Prog A ε β}
    (hf : ∀ x ∈ xs, (f x).Only P) : (Prog.mapEach f xs).Only P := by
  induction xs with
  | nil => trivial
  | cons x xs ih =>
    refine (hf x mem_cons_self).bind fun _ => Only.bind ?_ fun _ => trivial
    exact ih (forall_mem_cons.mp hf).2

theorem Only.mono {P' : Q → Prop} (h : ∀ q, P q → P' q) (hp : p.Only P) :
    p.Only P' := by
  induction p with
  | ok | error => trivial
  | call q k ih => exact ⟨h q hp.1, fun a => ih a (hp.2 a)⟩

/-- The first part of a sequence asks only what the sequence asks. -/
theorem Only.left (h : (p >>= f).Only P) : p.Only P := by
  induction p with
  | ok | error => trivial
  | call q k ih => exact ⟨h.1, fun a => ih a (h.2 a)⟩

/-- Whatever the answers, a result of `p` satisfies `post`. -/
def Yields (post : R → Prop) : Prog A ε R → Prop
  | ok r => post r
  | error _ => True
  | call _ k => ∀ a, Yields post (k a)

theorem Yields.run {post : R → Prop} (h : p.Yields post)
    (hrun : p.run answer w = (.ok r, w')) : post r := by
  induction p generalizing w with
  | ok x =>
    obtain rfl := Except.ok.inj (Prod.mk.inj hrun).1
    exact h
  | error e => cases hrun
  | call q k ih => exact ih _ (h _) hrun

theorem Yields.of_forall {post : R → Prop} (h : ∀ r, post r) (p : Prog A ε R) : p.Yields post := by
  induction p with
  | ok r => exact h r
  | error e => trivial
  | call q k ih => exact fun a => ih a

theorem Yields.mono {post post' : R → Prop} (h : ∀ r, post r → post' r)
    (hp : p.Yields post) : p.Yields post' := by
  induction p with
  | ok r => exact h r hp
  | error e => trivial
  | call q k ih => exact fun a => ih a (hp a)

variable {mid : R → Prop}

theorem Yields.bind {post : R' → Prop}
    (hp : p.Yields mid) (hf : ∀ r, mid r → (f r).Yields post) : (p >>= f).Yields post := by
  induction p with
  | ok r => exact hf r hp
  | error e => trivial
  | call q k ih => exact fun a => ih a (hp a)

theorem Yields.ofExcept {post : R → Prop} (h : ∀ r, x = .ok r → post r) :
    (Prog.ofExcept x : Prog A ε R).Yields post := by
  cases x with
  | ok r => exact h r rfl
  | error e => trivial

theorem Yields.attempt {post : R → Prop} (h : p.Yields post) :
    (p.attempt : Prog A ε' (Except ε R)).Yields fun x => ∀ r, x = .ok r → post r := by
  induction p with
  | ok r =>
    intro r' hr
    cases hr
    exact h
  | error e => exact nofun
  | call q k ih => exact fun a => ih a (h a)

theorem Yields.mapEach {f : α → Prog A ε β} {post : β → Prop}
    (hf : ∀ x ∈ xs, (f x).Yields post) : (Prog.mapEach f xs).Yields fun ys => ∀ y ∈ ys, post y := by
  induction xs with
  | nil => exact nofun
  | cons x xs ih =>
    refine (hf x mem_cons_self).bind fun y hy => ?_
    have hrest := ih (forall_mem_cons.mp hf).2
    refine hrest.bind fun ys hys z hz => ?_
    rcases mem_cons.mp hz with rfl | hz
    · exact hy
    · exact hys z hz

/-- A loop that maps yields one result per turn. -/
theorem Yields.mapEach_forall₂ {f : α → Prog A ε β} {post : α → β → Prop}
    (hf : ∀ x ∈ xs, (f x).Yields (post x)) :
    (Prog.mapEach f xs).Yields fun ys => Forall₂ post xs ys := by
  induction xs with
  | nil => exact Forall₂.nil
  | cons x xs ih =>
    refine (hf x mem_cons_self).bind fun y hy => ?_
    have hrest := ih (forall_mem_cons.mp hf).2
    exact hrest.bind fun ys hys => Forall₂.cons hy hys

theorem Yields.mapError {post : R → Prop} (h : p.Yields post) (g : ε → ε') :
    (p.mapError g).Yields post := by
  induction p with
  | ok r => exact h
  | error e => trivial
  | call q k ih => exact fun a => ih a (h a)

/-- Whatever the answers, an error of `p` satisfies `P`. -/
def Fails (P : ε → Prop) : Prog A ε R → Prop
  | ok _ => True
  | error e => P e
  | call _ k => ∀ a, Fails P (k a)

theorem Fails.run {P : ε → Prop}
    {e : ε} (h : p.Fails P) (hrun : p.run answer w = (.error e, w')) : P e := by
  induction p generalizing w with
  | ok r => cases hrun
  | error x =>
    obtain rfl := Except.error.inj (Prod.mk.inj hrun).1
    exact h
  | call q k ih => exact ih _ (h _) hrun

theorem Fails.bind {P : ε → Prop} (hp : p.Fails P)
    (hf : ∀ r, (f r).Fails P) : (p >>= f).Fails P := by
  induction p with
  | ok r => exact hf r
  | error e => exact hp
  | call q k ih => exact fun a => ih a (hp a)

theorem Fails.ofExcept {P : ε → Prop} (h : ∀ e, x = .error e → P e) :
    (Prog.ofExcept x : Prog A ε R).Fails P := by
  cases x with
  | ok r => trivial
  | error e => exact h e rfl

/-- Sequencing, where the second part relies on the result of the first. -/
theorem Only.then (hp : p.Only P)
    (hmid : p.Yields mid) (hf : ∀ r, mid r → (f r).Only P) : (p >>= f).Only P := by
  induction p with
  | ok r => exact hf r hmid
  | error e => trivial
  | call q k ih => exact ⟨hp.1, fun a => ih a (hp.2 a) (hmid a)⟩

/-- Some answers lead `p` to the result `r`. -/
def Returns (r : R) : Prog A ε R → Prop
  | ok r' => r' = r
  | error _ => False
  | call _ k => ∃ a, Returns r (k a)

/-- What follows a result that can be returned asks only what the sequence asks. -/
theorem Only.right (h : (p >>= f).Only P) (hr : p.Returns r) : (f r).Only P := by
  induction p with
  | ok r' =>
    obtain rfl := hr
    exact h
  | error e => cases hr
  | call q k ih =>
    obtain ⟨a, ha⟩ := hr
    exact ih a (h.2 a) ha

theorem Only.of_mapError (h : (p.mapError g).Only P) :
    p.Only P := by
  induction p with
  | ok | error => trivial
  | call q k ih => exact ⟨h.1, fun a => ih a (h.2 a)⟩

theorem Only.of_attempt (h : (p.attempt : Prog A ε' (Except ε R)).Only P) : p.Only P := by
  induction p with
  | ok | error => trivial
  | call q k ih => exact ⟨h.1, fun a => ih a (h.2 a)⟩

theorem Returns.bind {r' : R'} (hp : p.Returns r)
    (hf : (f r).Returns r') : (p >>= f).Returns r' := by
  induction p with
  | ok x =>
    obtain rfl := hp
    exact hf
  | error e => cases hp
  | call q k ih =>
    obtain ⟨a, ha⟩ := hp
    exact ⟨a, ih a ha⟩

/-- What every allowed question keeps, the whole run keeps. -/
theorem Only.run {I : W → Prop} (hstep : ∀ w q, I w → P q → I (answer q w).2) (h : p.Only P)
    (hw : I w) : I (p.run answer w).2 := by
  induction p generalizing w with
  | ok | error => exact hw
  | call q k ih => exact ih _ (h.2 _) (hstep w q hw h.1)

/-- A run asks only what the program asks. -/
theorem Only.asked (h : p.Only P) : ∀ x ∈ p.asked answer w, P x.1 := by
  induction p generalizing w with
  | ok | error => exact nofun
  | call q k ih =>
    intro x hx
    rcases mem_cons.mp hx with rfl | hx
    · exact h.1
    · exact ih _ (h.2 _) x hx

end Prog

/-! ## Obeying a monitor -/

/-- What may be asked in each state of the monitor, and where each answer leads. -/
structure Monitor (A : Q → Type) (σ : Type) where
  allows : σ → Q → Prop
  next : σ → (q : Q) → A q → σ

namespace Prog

variable {p : Prog A ε R} {f : R → Prog A ε R'}

variable {σ : Type} {M : Monitor A σ}

/-- Whatever the answers, `p` asks only what the monitor allows, and ends with `post`. -/
def Obeys (M : Monitor A σ) (post : σ → Except ε R → Prop) : σ → Prog A ε R → Prop
  | s, ok r => post s (.ok r)
  | s, error e => post s (.error e)
  | s, call q k => M.allows s q ∧ ∀ a, Obeys M post (M.next s q a) (k a)

variable {s : σ}

theorem Obeys.mono {post post' : σ → Except ε R → Prop}
    (h : p.Obeys M post s) (hpost : ∀ s r, post s r → post' s r) : p.Obeys M post' s := by
  induction p generalizing s with
  | ok | error => exact hpost _ _ h
  | call q k ih => exact ⟨h.1, fun a => ih a (h.2 a)⟩

/-- The rule for sequencing. -/
theorem obeys_bind {post : σ → Except ε R' → Prop} :
    (p >>= f).Obeys M post s ↔
      p.Obeys M
        (fun s' x => match x with
          | .ok r => (f r).Obeys M post s'
          | .error e => post s' (.error e)) s := by
  induction p generalizing s with
  | ok | error => rfl
  | call q k ih => exact and_congr_right fun _ => forall_congr' fun a => ih a

/-- Sequencing in the direction a proof uses it. -/
theorem Obeys.bind {mid : σ → Except ε R → Prop} {post : σ → Except ε R' → Prop}
    (hp : p.Obeys M mid s) (hok : ∀ s' r, mid s' (.ok r) → (f r).Obeys M post s')
    (herror : ∀ s' e, mid s' (.error e) → post s' (.error e)) :
    (p >>= f).Obeys M post s := by
  refine obeys_bind.mpr (hp.mono fun s' x hx => ?_)
  cases x with
  | ok r => exact hok s' r hx
  | error e => exact herror s' e hx

theorem Obeys.ask {post : σ → Except ε R → Prop} {q : Q} {f : A q → Prog A ε R} (h : M.allows s q)
    (hf : ∀ a, (f a).Obeys M post (M.next s q a)) :
    (Prog.ask q >>= f).Obeys M post s :=
  ⟨h, hf⟩

theorem obeys_mapError {post : σ → Except ε' R → Prop} :
    (p.mapError g).Obeys M post s ↔ p.Obeys M (fun s' x => post s' (x.mapError g)) s := by
  induction p generalizing s with
  | ok | error => rfl
  | call q k ih => exact and_congr_right fun _ => forall_congr' fun a => ih a

theorem obeys_attempt {post : σ → Except ε' (Except ε R) → Prop} :
    (p.attempt : Prog A ε' (Except ε R)).Obeys M post s ↔
      p.Obeys M (fun s' x => post s' (.ok x)) s := by
  induction p generalizing s with
  | ok | error => rfl
  | call q k ih => exact and_congr_right fun _ => forall_congr' fun a => ih a

/-- A program that obeys a monitor obeys every monitor that contains it. -/
theorem Obeys.embed {σ' : Type} {M' : Monitor A σ'} {e : σ → σ'}
    (he : ∀ s q, M.allows s q → M'.allows (e s) q ∧ ∀ a, M'.next (e s) q a = e (M.next s q a))
    {post : σ → Except ε R → Prop} {post' : σ' → Except ε R → Prop}
    (hpost : ∀ s r, post s r → post' (e s) r) (h : p.Obeys M post s) :
    p.Obeys M' post' (e s) := by
  induction p generalizing s with
  | ok | error => exact hpost s _ h
  | call q k ih =>
    obtain ⟨hallows, hnext⟩ := he s q h.1
    refine ⟨hallows, fun a => ?_⟩
    rw [hnext a]
    exact ih a (h.2 a)

/-- A program that asks only what is allowed while `I` holds, and whose questions keep
`I`, obeys. -/
theorem Only.obeys {P : Q → Prop} {I : σ → Prop}
    (hallows : ∀ s q, I s → P q → M.allows s q ∧ ∀ a, I (M.next s q a))
    (h : p.Only P) (hs : I s) : p.Obeys M (fun s' _ => I s') s := by
  induction p generalizing s with
  | ok | error => exact hs
  | call q k ih =>
    obtain ⟨hq, hnext⟩ := hallows s q hs h.1
    exact ⟨hq, fun a => ih a (h.2 a) (hnext a)⟩

end Prog

/-! ## Taking turns on one machine -/

/-- A machine answers the questions of its sessions, possibly in several ways. -/
structure Machine (A : Q → Type) (S : Type) where
  step : ℕ → (q : Q) → S → A q → S → Prop

/-- The machine and what is left of each session's program. -/
structure Config (A : Q → Type) (S : Type) (ε R : ℕ → Type) where
  state : S
  progs : (i : ℕ) → Prog A (ε i) (R i)

section System

variable {S : Type} {ε R : ℕ → Type}

/-- Session `i` asks its next question. -/
inductive Machine.Step (M : Machine A S) (i : ℕ) : Config A S ε R → Config A S ε R → Prop
  | call {c : Config A S ε R} {q : Q} {k : A q → Prog A (ε i) (R i)} {a : A q} {s' : S}
      (hprog : c.progs i = .call q k) (hstep : M.step i q c.state a s') :
      M.Step i c ⟨s', Function.update c.progs i (k a)⟩

/-- Runs in which every step meets `guard`. -/
def Reach (M : Machine A S) (guard : Config A S ε R → ℕ → Prop) :
    Config A S ε R → Config A S ε R → Prop :=
  Relation.ReflTransGen fun c c' => ∃ i, guard c i ∧ M.Step i c c'

variable {M : Machine A S} {guard : Config A S ε R → ℕ → Prop} {c : Config A S ε R}

/-- The rule for invariants. Each session obeys its monitor, whose state is `g i`; a step
that the monitor allows and the guard admits keeps `Inv`. -/
theorem Reach.invariant {σ : ℕ → Type} (monitor : (i : ℕ) → Monitor A (σ i))
    (post : (i : ℕ) → σ i → Except (ε i) (R i) → Prop)
    (Inv : Config A S ε R → ((i : ℕ) → σ i) → Prop) {c₀ : Config A S ε R} {g₀ : (i : ℕ) → σ i}
    (hprogs : ∀ i, (c₀.progs i).Obeys (monitor i) (post i) (g₀ i)) (hinit : Inv c₀ g₀)
    (hstep : ∀ c g i q k a s', Reach M guard c₀ c → guard c i → c.progs i = .call q k →
      (monitor i).allows (g i) q → Inv c g → M.step i q c.state a s' →
      Inv ⟨s', update c.progs i (k a)⟩
        (update g i ((monitor i).next (g i) q a)))
    (hreach : Reach M guard c₀ c) :
    ∃ g, Inv c g ∧ ∀ i, (c.progs i).Obeys (monitor i) (post i) (g i) := by
  induction hreach with
  | refl => exact ⟨g₀, hinit, hprogs⟩
  | @tail c c' hreach hlast ih =>
    obtain ⟨g, hinv, hobeys⟩ := ih
    obtain ⟨i, hguard, hstep'⟩ := hlast
    cases hstep' with
    | @call q k a s' hprog hmachine =>
      have hcall : Prog.Obeys (monitor i) (post i) (g i) (.call q k) := hprog ▸ hobeys i
      refine ⟨_, hstep c g i q k a s' hreach hguard hprog hcall.1 hinv hmachine, fun j => ?_⟩
      by_cases hj : j = i
      · subst hj
        simp only [update_self]
        exact hcall.2 a
      · simp only [update_of_ne hj]
        exact hobeys j

/-- The rule for invariants that follow one session: only its own monitor is looked at, and the
others may ask what the guard admits. -/
theorem Reach.invariant_of {σ : Type} (j : ℕ) (monitor : Monitor A σ)
    (post : σ → Except (ε j) (R j) → Prop) (Inv : Config A S ε R → σ → Prop) {c₀ : Config A S ε R}
    {g₀ : σ} (hprog : (c₀.progs j).Obeys monitor post g₀) (hinit : Inv c₀ g₀)
    (hown : ∀ c g q k a s', guard c j → c.progs j = .call q k → monitor.allows g q → Inv c g →
      M.step j q c.state a s' → Inv ⟨s', update c.progs j (k a)⟩ (monitor.next g q a))
    (hother : ∀ c g i q k a s', i ≠ j → guard c i → c.progs i = .call q k → Inv c g →
      M.step i q c.state a s' → Inv ⟨s', update c.progs i (k a)⟩ g)
    (hreach : Reach M guard c₀ c) :
    ∃ g, Inv c g ∧ (c.progs j).Obeys monitor post g := by
  induction hreach with
  | refl => exact ⟨g₀, hinit, hprog⟩
  | @tail c c' hreach hlast ih =>
    obtain ⟨g, hinv, hobeys⟩ := ih
    obtain ⟨i, hguard, hstep'⟩ := hlast
    cases hstep' with
    | @call q k a s' hasks hmachine =>
      by_cases hi : i = j
      · subst hi
        have hcall : Prog.Obeys monitor post g (.call q k) := hasks ▸ hobeys
        refine ⟨_, hown c g q k a s' hguard hasks hcall.1 hinv hmachine, ?_⟩
        simp only [update_self]
        exact hcall.2 a
      · refine ⟨g, hother c g i q k a s' hi hguard hasks hinv hmachine, ?_⟩
        simp only [update_of_ne (Ne.symm hi)]
        exact hobeys

/-! ## Writing down the answers -/

/-- Who asked what, and what was answered. -/
abbrev Trace (A : Q → Type) : Type := List (ℕ × Σ q, A q)

/-- What one session has asked. -/
def Trace.of (t : Trace A) (i : ℕ) : List (Σ q, A q) :=
  t.filterMap fun x => if x.1 = i then some x.2 else none

theorem Trace.of_append_self (t : Trace A) (i : ℕ) (x : Σ q, A q) :
    Trace.of (t ++ [(i, x)]) i = Trace.of t i ++ [x] := by
  simp [Trace.of]

variable {i : ℕ}

theorem Trace.of_append_ne (t : Trace A) {j : ℕ} (x : Σ q, A q) (h : j ≠ i) :
    Trace.of (t ++ [(i, x)]) j = Trace.of t j := by
  simp [Trace.of, Ne.symm h]

theorem Trace.mem_of {t : Trace A} {x : Σ q, A q} : x ∈ Trace.of t i ↔ (i, x) ∈ t := by
  simp [Trace.of, mem_filterMap]

/-- The machine with a trace of its sessions. -/
def Machine.traced (M : Machine A S) : Machine A (S × Trace A) where
  step i q s a s' := M.step i q s.1 a s'.1 ∧ s'.2 = s.2 ++ [(i, ⟨q, a⟩)]

/-- The monitor that allows everything and remembers it. -/
def Monitor.history (A : Q → Type) : Monitor A (List (Σ q, A q)) where
  allows _ _ := True
  next h q a := h ++ [⟨q, a⟩]

/-- Each session has got as far as its part of the trace says. -/
theorem Reach.history {guard : Config A (S × Trace A) ε R → ℕ → Prop}
    (post : (i : ℕ) → List (Σ q, A q) → Except (ε i) (R i) → Prop)
    {c₀ c : Config A (S × Trace A) ε R} (hstart : c₀.state.2 = [])
    (hprogs : ∀ i, (c₀.progs i).Obeys (.history A) (post i) []) (h : Reach M.traced guard c₀ c)
    (i : ℕ) : (c.progs i).Obeys (.history A) (post i) (Trace.of c.state.2 i) := by
  obtain ⟨g, hg, hobeys⟩ := Reach.invariant (fun _ => .history A) post
    (fun c g => ∀ i, g i = Trace.of c.state.2 i) hprogs
    (fun i => by rw [hstart]; rfl)
    (by
      intro c g i q k a s' _ _ _ _ hg hstep j
      rw [hstep.2]
      by_cases hj : j = i
      · subst hj
        rw [update_self, Trace.of_append_self, hg]
        rfl
      · rw [update_of_ne hj, Trace.of_append_ne _ _ hj, hg]) h
  exact hg i ▸ hobeys i

/-! ## One session on its own -/

/-- Session `i` runs the program to its end while nobody else moves. -/
inductive Machine.Ends {ε R : Type} (M : Machine A S) (i : ℕ) :
    Prog A ε R → S → Except ε R → S → Prop
  | ok (r : R) (s : S) : M.Ends i (.ok r) s (.ok r) s
  | error (e : ε) (s : S) : M.Ends i (.error e) s (.error e) s
  | call {q : Q} {k : A q → Prog A ε R} {a : A q} {s s' s'' : S} {x : Except ε R}
      (hstep : M.step i q s a s') (hrest : M.Ends i (k a) s' x s'') :
      M.Ends i (.call q k) s x s''

namespace Machine.Ends

variable {M M' : Machine A S} {i : ℕ} {ε ε' R R' : Type} {s s' : S}

/-- A machine that can do more ends in more ways. -/
theorem mono {p : Prog A ε R} {x : Except ε R}
    (hM : ∀ {q s a s'}, M.step i q s a s' → M'.step i q s a s') (h : M.Ends i p s x s') :
    M'.Ends i p s x s' := by
  induction h with
  | ok r s => exact .ok r s
  | error e s => exact .error e s
  | call hstep hrest ih => exact .call (hM hstep) ih

/-- The rule for sequencing. -/
theorem bind_ok {p : Prog A ε R} {f : R → Prog A ε R'} {r : R'}
    (h : M.Ends i (p >>= f) s (.ok r) s') :
    ∃ x t, M.Ends i p s (.ok x) t ∧ M.Ends i (f x) t (.ok r) s' := by
  induction p generalizing s with
  | ok x => exact ⟨x, s, .ok x s, h⟩
  | error e => cases h
  | call q k ih =>
    cases h with
    | call hstep hrest =>
      obtain ⟨x, t, hp, hf⟩ := ih _ hrest
      exact ⟨x, t, .call hstep hp, hf⟩

theorem of_ofExcept {x y : Except ε R}
    (h : M.Ends i (Prog.ofExcept x : Prog A ε R) s y s') : x = y ∧ s = s' := by
  rcases x with e | r <;> cases h <;> exact ⟨rfl, rfl⟩

/-- An attempt ends as the program does. -/
theorem of_attempt {p : Prog A ε R} {x : Except ε R}
    (h : M.Ends i (p.attempt : Prog A ε' (Except ε R)) s (.ok x) s') : M.Ends i p s x s' := by
  induction p generalizing s with
  | ok r =>
    cases h
    exact .ok r _
  | error e =>
    cases h
    exact .error e _
  | call q k ih =>
    cases h with
    | call hstep hrest => exact .call hstep (ih _ hrest)

/-- The rule for invariants of a program that obeys a monitor. -/
theorem invariant {σ : Type} {N : Monitor A σ} {post : σ → Except ε R → Prop} {I : σ → S → Prop}
    (hkeep : ∀ {g q s a s'}, N.allows g q → I g s → M.step i q s a s' → I (N.next g q a) s')
    {p : Prog A ε R} {x : Except ε R} {g : σ} (hp : p.Obeys N post g) (hI : I g s)
    (h : M.Ends i p s x s') : ∃ g', I g' s' ∧ post g' x := by
  induction h generalizing g with
  | ok | error => exact ⟨g, hI, hp⟩
  | call hstep hrest ih => exact ih (hp.2 _) (hkeep hp.1 hI hstep)

/-- On questions that a world answers as the machine does, a program runs in the world as
it ends on the machine. -/
theorem run {P : Q → Prop} {f : S → W}
    (hanswer : ∀ {q s a s'}, P q → M.step i q s a s' → answer q (f s) = (a, f s')) {p : Prog A ε R}
    {x : Except ε R} (hp : p.Only P) (h : M.Ends i p s x s') :
    p.run answer (f s) = (x, f s') := by
  induction h with
  | ok | error => rfl
  | @call q k a s s' s'' x hstep hrest ih =>
    have hrun : (Prog.call q k).run answer (f s) =
        (k (answer q (f s)).1).run answer (answer q (f s)).2 := rfl
    rw [hrun, hanswer hp.1 hstep]
    exact ih (hp.2 a)

end Machine.Ends

/-! ## Following a schedule -/

/-- Let the sessions take turns in the given order, as long as `admits` holds. `serve` is
one way the machine may answer, `none` where the session has to wait. -/
def Config.follow (admits : Config A S ε R → ℕ → Bool)
    (serve : ℕ → (q : Q) → S → Option (A q × S)) :
    List ℕ → Config A S ε R → Option (Config A S ε R)
  | [], c => some c
  | i :: is, c =>
    match c.progs i with
    | .call q k =>
      if admits c i then
        (serve i q c.state).bind fun x =>
          Config.follow admits serve is ⟨x.2, Function.update c.progs i (k x.1)⟩
      else none
    | .ok _ | .error _ => none

variable {admits : Config A S ε R → ℕ → Bool} {serve : ℕ → (q : Q) → S → Option (A q × S)}
  {c' : Config A S ε R}

/-- What a schedule leads to is reached. -/
theorem Config.reach_of_follow {I : S → Prop} (hguard : ∀ {c i}, admits c i = true → guard c i)
    (hserve : ∀ {i q s a s'}, I s → serve i q s = some (a, s') → M.step i q s a s' ∧ I s')
    {schedule : List ℕ} (hI : I c.state)
    (h : c.follow admits serve schedule = some c') : Reach M guard c c' ∧ I c'.state := by
  induction schedule generalizing c with
  | nil =>
    cases h
    exact ⟨.refl, hI⟩
  | cons i is ih =>
    rw [follow] at h
    split at h
    · rename_i q k hprog
      split_ifs at h with hadmits
      obtain ⟨⟨a, s'⟩, hanswer, hrest⟩ := Option.bind_eq_some_iff.mp h
      obtain ⟨hstep, hI'⟩ := hserve hI hanswer
      obtain ⟨hreach, hlast⟩ := ih hI' hrest
      exact ⟨.head ⟨i, hguard hadmits, .call hprog hstep⟩ hreach, hlast⟩
    · cases h
    · cases h

/-- A session without a turn stays where it is. -/
theorem Config.progs_of_follow {schedule : List ℕ} (h : c.follow admits serve schedule = some c')
    {j : ℕ} (hj : j ∉ schedule) :
    c'.progs j = c.progs j := by
  induction schedule generalizing c with
  | nil =>
    cases h
    rfl
  | cons i is ih =>
    rw [mem_cons, not_or] at hj
    obtain ⟨hne, hrest⟩ := hj
    rw [follow] at h
    split at h
    · split_ifs at h
      obtain ⟨⟨a, s'⟩, -, hfollow⟩ := Option.bind_eq_some_iff.mp h
      exact (ih hfollow hrest).trans (update_of_ne hne ..)
    · cases h
    · cases h

/-- A schedule of one turn is a step. -/
theorem Config.step_of_follow {I : S → Prop}
    (hserve : ∀ {i q s a s'}, I s → serve i q s = some (a, s') → M.step i q s a s' ∧ I s')
    (hI : I c.state)
    (h : c.follow admits serve [i] = some c') : M.Step i c c' := by
  rw [follow] at h
  split at h
  · rename_i q k hprog
    split_ifs at h
    obtain ⟨⟨a, s'⟩, hanswer, hrest⟩ := Option.bind_eq_some_iff.mp h
    cases hrest
    exact .call hprog (hserve hI hanswer).1
  · cases h
  · cases h

end System

end Program
