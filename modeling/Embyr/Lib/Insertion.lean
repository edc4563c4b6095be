import Mathlib.Data.List.Infix
import Mathlib.Tactic.Ring

/-!
# Marks inserted into a text

A pass over a text puts a mark in front of some of its elements. Some elements join
with their neighbours into words; a mark is never put between two elements of a word,
and a whole-word occurrence of the word the pass is looking for is always marked.

* `Inserts` — the result of one pass, with the number of marks put.
* `Inserts.length`, `Inserts.countP` — what a pass adds.
* `Traced` — a text several passes have gone over, along the text they started from
  and the one in which each of the given words has one mark.
* `Traced.pass`, `Passes.sublist` — each pass keeps the trace; in the end the marked
  text is part of the result.
-/

namespace Insertion

open List

variable {α : Type}

/-- The element in front of what follows `l`. -/
def lastOf (before : Option α) (l : List α) : Option α := l.getLast?.or before

@[simp] theorem lastOf_nil (before : Option α) : lastOf before [] = before := rfl

@[simp] theorem lastOf_cons (before : Option α) (a : α) (l : List α) :
    lastOf before (a :: l) = lastOf (some a) l := by
  rw [lastOf, lastOf, getLast?_cons]
  cases l.getLast? <;> rfl

variable (mark : List α) (joins : α → Bool)

/-- `word` stands at the front of `text`, and joins with nothing on either side. -/
structure WholeWord (word : List α) (before : Option α) (text : List α) : Prop where
  joined : ∀ a ∈ word, joins a = true
  occurs : word <+: text
  starts : before.any joins = false
  stops : (text.drop word.length).head?.any joins = false

/-- A pass that looks for `word`. -/
inductive Inserts (word : List α) : Option α → List α → List α → ℕ → Prop
  | nil {before : Option α} : Inserts word before [] [] 0
  | keep {before : Option α} {a : α} {text out : List α} {k : ℕ} :
    ¬ WholeWord joins word before (a :: text) → Inserts word (some a) text out k →
    Inserts word before (a :: text) (a :: out) k
  | insert {before : Option α} {a : α} {text out : List α} {k : ℕ} :
    before.any joins = false → Inserts word (some a) text out k →
    Inserts word before (a :: text) (mark ++ a :: out) (k + 1)

section Inserts

variable {mark joins} {word : List α} {before : Option α} {text out : List α} {k : ℕ}

theorem Inserts.length (h : Inserts mark joins word before text out k) :
    out.length = text.length + mark.length * k := by
  induction h with
  | nil => rfl
  | keep _ _ ih =>
    rw [length_cons, ih, length_cons]
    ring
  | insert _ _ ih =>
    rw [length_append, length_cons, ih, length_cons]
    ring

theorem Inserts.countP (h : Inserts mark joins word before text out k) (p : α → Bool) :
    out.countP p = text.countP p + mark.countP p * k := by
  induction h with
  | nil => rfl
  | keep _ _ ih =>
    rw [countP_cons, ih, countP_cons]
    ring
  | insert _ _ ih =>
    rw [countP_append, countP_cons, ih, countP_cons]
    ring

/-- The first element of the text, and the mark in front of it if there is one. -/
theorem Inserts.cons {a : α} (h : Inserts mark joins word before (a :: text) out k) :
    ∃ marked out' k', out = marked ++ a :: out' ∧ Inserts mark joins word (some a) text out' k' ∧
      (marked = mark ∧ before.any joins = false ∨
        marked = [] ∧ ¬ WholeWord joins word before (a :: text)) := by
  cases h with
  | keep hnot h => exact ⟨[], _, _, rfl, h, .inr ⟨rfl, hnot⟩⟩
  | insert hbefore h => exact ⟨mark, _, _, rfl, h, .inl ⟨rfl, hbefore⟩⟩

/-- A pass over a text goes over its first part and then over the rest. -/
theorem Inserts.append {l : List α} (h : Inserts mark joins word before (l ++ text) out k) :
    ∃ l' out' k', out = l' ++ out' ∧ l.Sublist l' ∧ (l = [] → l' = []) ∧
      Inserts mark joins word (lastOf before l) text out' k' := by
  induction l generalizing before out k with
  | nil => exact ⟨[], out, k, rfl, .slnil, fun _ => rfl, h⟩
  | cons a l ih =>
    obtain ⟨marked, out', k', rfl, hrest, -⟩ := h.cons
    obtain ⟨l', out'', k'', rfl, hsub, -, hout⟩ := ih hrest
    refine ⟨marked ++ a :: l', out'', k'', by simp, ?_, nofun, by rwa [lastOf_cons]⟩
    exact (hsub.cons_cons a).trans (sublist_append_right _ _)

/-- Inside a word nothing is inserted. -/
theorem Inserts.joined {l : List α} (hl : ∀ a ∈ l, joins a = true) (hbefore : before.any joins = true)
    (h : Inserts mark joins word before (l ++ text) out k) :
    ∃ out' k', out = l ++ out' ∧ Inserts mark joins word (lastOf before l) text out' k' := by
  induction l generalizing before out k with
  | nil => exact ⟨out, k, rfl, h⟩
  | cons a l ih =>
    obtain ⟨ha, hl⟩ := forall_mem_cons.mp hl
    obtain ⟨marked, out', k', rfl, hrest, hmarked⟩ := h.cons
    obtain ⟨-, hfalse⟩ | ⟨rfl, -⟩ := hmarked
    · rw [hbefore] at hfalse
      cases hfalse
    · obtain ⟨out'', k'', rfl, hout⟩ := ih hl (by simpa using ha) hrest
      exact ⟨out'', k'', by simp, by rwa [lastOf_cons]⟩

end Inserts

/-! ## Several passes -/

/-- `text` is what passes for the words in `done` have made of `raw`; in `marked` some
occurrences of the given words have their one mark. -/
inductive Traced (words done : List (List α)) : Option α → List α → List α → List α → Prop
  | nil {before : Option α} : Traced words done before [] [] []
  | element {before : Option α} {a : α} {inserted raw marked text : List α} :
    (before.any joins = true → inserted = []) → Traced words done (some a) raw marked text →
    Traced words done before (a :: raw) (a :: marked) (inserted ++ a :: text)
  | word {before : Option α} {a : α} {w inserted raw marked text : List α} :
    a :: w ∈ words → (∀ x ∈ a :: w, joins x = true) → before.any joins = false →
    raw.head?.any joins = false →
    (inserted = [] ∧ a :: w ∉ done ∨ mark.Sublist inserted) →
    Traced words done (lastOf (some a) w) raw marked text →
    Traced words done before (a :: w ++ raw) (mark ++ (a :: w ++ marked)) (inserted ++ (a :: w ++ text))

section Traced

variable {mark joins} {words done : List (List α)} {before : Option α}
  {raw marked text out : List α} {k : ℕ}

theorem any_lastOf {a : α} {w : List α} (h : ∀ x ∈ a :: w, joins x = true) :
    (lastOf (some a) w).any joins = true := by
  induction w generalizing a with
  | nil => simpa using h
  | cons b w ih =>
    rw [lastOf_cons]
    exact ih (forall_mem_cons.mp h).2

/-- Directly after a joining element nothing has been inserted. -/
theorem Traced.head (h : Traced mark joins words done before raw marked text)
    (hbefore : before.any joins = true) : text.head? = raw.head? := by
  cases h with
  | nil => rfl
  | element hinserted _ =>
    rw [hinserted hbefore]
    rfl
  | word _ _ hfalse _ _ _ =>
    rw [hbefore] at hfalse
    cases hfalse

/-- Elements nothing was inserted into. -/
theorem Traced.elements (l : List α) (h : Traced mark joins words done (lastOf before l) raw marked text) :
    Traced mark joins words done before (l ++ raw) (l ++ marked) (l ++ text) := by
  induction l generalizing before with
  | nil => exact h
  | cons a l ih =>
    rw [lastOf_cons] at h
    exact .element (fun _ => rfl) (ih h)

theorem Traced.pass {word : List α} (htraced : Traced mark joins words done before raw marked text)
    (h : Inserts mark joins word before text out k) :
    Traced mark joins words (word :: done) before raw marked out := by
  induction htraced generalizing out k with
  | nil =>
    cases h
    exact .nil
  | @element before a inserted raw marked text hinserted _ ih =>
    obtain ⟨inserted', out', k', rfl, -, hnil, hrest⟩ := h.append
    obtain ⟨front, out'', k'', rfl, hrest, hfront⟩ := hrest.cons
    rw [← append_assoc]
    refine .element (fun hbefore => ?_) (ih hrest)
    have hempty := hinserted hbefore
    rw [hnil hempty]
    obtain ⟨-, hfalse⟩ | ⟨rfl, -⟩ := hfront
    · rw [hempty, lastOf_nil, hbefore] at hfalse
      cases hfalse
    · rfl
  | @word before a w inserted raw marked text hword hjoined hbefore hnext hinserted htext ih =>
    obtain ⟨inserted', out', k', rfl, hsub, hnil, hrest⟩ := h.append
    obtain ⟨front, out'', k'', rfl, hw, hfront⟩ := hrest.cons
    obtain ⟨ha, hjoins⟩ := forall_mem_cons.mp hjoined
    obtain ⟨out₃, k₃, rfl, hlast⟩ := hw.joined hjoins (by simpa using ha)
    have hout : inserted' ++ (front ++ a :: (w ++ out₃)) =
        (inserted' ++ front) ++ (a :: w ++ out₃) := by simp
    rw [hout]
    refine .word hword hjoined hbefore hnext ?_ (ih hlast)
    obtain ⟨rfl, hdone⟩ | hmark := hinserted
    · obtain ⟨rfl, -⟩ | ⟨rfl, hnot⟩ := hfront
      · exact .inr (sublist_append_right _ _)
      · refine .inl ⟨by rw [hnil rfl]; rfl, fun hmem => ?_⟩
        obtain rfl | hmem := mem_cons.mp hmem
        · -- the pass for this very word has to mark it
          have hdrop : (a :: (w ++ text)).drop (a :: w).length = text := drop_left
          have hstops : text.head?.any joins = false := by
            rw [htext.head (any_lastOf hjoined)]
            exact hnext
          exact hnot ⟨hjoined, prefix_append _ _, hbefore, by rwa [← hdrop] at hstops⟩
        · exact hdone hmem
    · exact .inr ((hmark.trans hsub).trans (sublist_append_left _ _))

/-- Once all words have had their pass, the marked text is part of the result. -/
theorem Traced.sublist (h : Traced mark joins words done before raw marked text)
    (hdone : ∀ w ∈ words, w ∈ done) : marked.Sublist text := by
  induction h with
  | nil => exact .slnil
  | element _ _ ih => exact (ih.cons_cons _).trans (sublist_append_right _ _)
  | word hword _ _ _ hinserted _ ih =>
    obtain ⟨-, hnot⟩ | hmark := hinserted
    · exact absurd (hdone _ hword) hnot
    · exact hmark.append ((Sublist.refl _).append ih)

end Traced

/-- The passes for several words, one after the other. -/
inductive Passes : List (List α) → List α → List α → ℕ → Prop
  | nil {text : List α} : Passes [] text text 0
  | cons {word : List α} {words : List (List α)} {text next out : List α} {k l : ℕ} :
    Inserts mark joins word none text next k → Passes words next out l →
    Passes (word :: words) text out (k + l)

section Passes

variable {mark joins} {words : List (List α)} {text out : List α} {k : ℕ}

theorem Passes.length (h : Passes mark joins words text out k) :
    out.length = text.length + mark.length * k := by
  induction h with
  | nil => rfl
  | cons hpass _ ih =>
    rw [ih, hpass.length]
    ring

theorem Passes.countP (h : Passes mark joins words text out k) (p : α → Bool) :
    out.countP p = text.countP p + mark.countP p * k := by
  induction h with
  | nil => rfl
  | cons hpass _ ih =>
    rw [ih, hpass.countP]
    ring

/-- A text in which each whole-word occurrence has its one mark is part of what the
passes make of the text. -/
theorem Passes.sublist {raw marked : List α} (h : Passes mark joins words raw out k)
    (htraced : Traced mark joins words [] none raw marked raw) : marked.Sublist out := by
  have hall : ∀ {words' done : List (List α)} {text : List α} {l : ℕ},
      Passes mark joins words' text out l → Traced mark joins words done none raw marked text →
      (∀ w ∈ words, w ∈ words' ∨ w ∈ done) → marked.Sublist out := by
    intro words' done text l hpasses
    induction hpasses generalizing done with
    | nil =>
      intro htraced hdone
      exact htraced.sublist fun w hw => (hdone w hw).resolve_left (not_mem_nil)
    | @cons word words' _ _ _ _ _ hpass _ ih =>
      intro htraced hdone
      refine ih h (htraced.pass hpass) fun w hw => ?_
      have hcases := hdone w hw
      rw [mem_cons] at hcases ⊢
      tauto
  exact hall h htraced fun w hw => .inl hw

end Passes

end Insertion
