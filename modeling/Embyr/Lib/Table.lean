import Mathlib

/-!
# Rows with a key

A table kept as the list of its rows, in no particular order, with an upsert by
key and the rule that carries a pairwise relation between rows through an upsert
(`pairwise_upsertBy`).
-/

namespace Table

open List

variable {R K : Type*} [DecidableEq K] (key : R → K)

/-- `INSERT … ON CONFLICT (key) DO UPDATE`. -/
def upsertBy (row : R) : List R → List R
  | [] => [row]
  | r :: rows => if key r = key row then row :: rows else r :: upsertBy row rows

variable {key}

theorem mem_upsertBy {row r : R} {rows : List R} (h : r ∈ upsertBy key row rows) :
    r = row ∨ r ∈ rows := by
  induction rows with
  | nil => exact .inl (mem_singleton.mp h)
  | cons x rows ih =>
    unfold upsertBy at h
    split_ifs at h with hkey
    · rcases mem_cons.mp h with rfl | hmem
      · exact .inl rfl
      · exact .inr (mem_cons_of_mem _ hmem)
    · rcases mem_cons.mp h with rfl | hmem
      · exact .inr mem_cons_self
      · rcases ih hmem with rfl | hr
        · exact .inl rfl
        · exact .inr (mem_cons_of_mem _ hr)

/-- Upserting keeps a relation pairwise, if the new row has it with every row of
another key and takes over the relations of the row it replaces. -/
theorem pairwise_upsertBy {S : R → R → Prop} {row : R} {rows : List R} (hrows : rows.Pairwise S)
    (hother : ∀ r ∈ rows, key r ≠ key row → S r row)
    (hsame : ∀ r ∈ rows, key r = key row → ∀ x ∈ rows, S r x → S row x) :
    (upsertBy key row rows).Pairwise S := by
  induction rows with
  | nil => exact pairwise_singleton ..
  | cons r rows ih =>
    obtain ⟨hr, hrows'⟩ := pairwise_cons.mp hrows
    unfold upsertBy
    split_ifs with hkey
    · refine pairwise_cons.mpr ⟨fun x hx => ?_, hrows'⟩
      exact hsame r mem_cons_self hkey x (mem_cons_of_mem _ hx) (hr x hx)
    · refine pairwise_cons.mpr ⟨fun x hx => ?_, ?_⟩
      · rcases mem_upsertBy hx with rfl | hx
        · exact hother r mem_cons_self hkey
        · exact hr x hx
      · exact ih hrows' (forall_mem_cons.mp hother).2
          fun x hx hkey y hy => hsame x (mem_cons_of_mem _ hx) hkey y (mem_cons_of_mem _ hy)

/-- A relation that is pairwise on both parts of a list, and holds across them, is
pairwise on the list. -/
theorem pairwise_of_partition {S : R → R → Prop} (p : R → Bool) {rows : List R}
    (hp : (rows.filter p).Pairwise S) (hn : (rows.filter fun r => !p r).Pairwise S)
    (hacross : ∀ a ∈ rows, ∀ b ∈ rows, p a = true → p b = false → S a b ∧ S b a) :
    rows.Pairwise S := by
  induction rows with
  | nil => exact Pairwise.nil
  | cons r rows ih =>
    have hacross' : ∀ a ∈ rows, ∀ b ∈ rows, p a = true → p b = false → S a b ∧ S b a :=
      fun a ha b hb => hacross a (mem_cons_of_mem _ ha) b (mem_cons_of_mem _ hb)
    rcases hr : p r with _ | _
    · rw [filter_cons_of_neg (by simp [hr])] at hp
      rw [filter_cons_of_pos (by simp [hr]), pairwise_cons] at hn
      refine pairwise_cons.mpr ⟨fun x hx => ?_, ih hp hn.2 hacross'⟩
      rcases hx' : p x with _ | _
      · exact hn.1 x (mem_filter.mpr ⟨hx, by simp [hx']⟩)
      · exact (hacross x (mem_cons_of_mem _ hx) r mem_cons_self hx' hr).2
    · rw [filter_cons_of_pos hr, pairwise_cons] at hp
      rw [filter_cons_of_neg (by simp [hr])] at hn
      refine pairwise_cons.mpr ⟨fun x hx => ?_, ih hp.2 hn hacross'⟩
      rcases hx' : p x with _ | _
      · exact (hacross r mem_cons_self x (mem_cons_of_mem _ hx) hr hx').1
      · exact hp.1 x (mem_filter.mpr ⟨hx, hx'⟩)

end Table
