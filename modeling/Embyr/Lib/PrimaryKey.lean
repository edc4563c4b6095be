import Mathlib.Data.List.AList

/-!
# Tables with a primary key

A table as a finite map from its keys to its rows, and the statements on it that may touch
several rows at once.

* `select` — the keys of the rows that meet a condition.
* `update` — `UPDATE … WHERE`; `updated` counts its rows.

Each of them is described by what `lookup` finds afterwards.
-/

namespace PrimaryKey

/-- Rows of type `V` under keys of type `K`. -/
abbrev Table (K V : Type) : Type := AList fun _ : K => V

variable {K V : Type}

/-- The keys of the rows that meet `p`. -/
def select (p : K → V → Bool) (t : Table K V) : List K :=
  (t.entries.filter fun x => p x.1 x.2).map Sigma.fst

/-- A row under its key, changed by `f` if it meets `p`. -/
def updateEntry (p : K → V → Bool) (f : V → V) (x : Sigma fun _ : K => V) :
    Sigma fun _ : K => V :=
  ⟨x.1, if p x.1 x.2 then f x.2 else x.2⟩

/-- The rows that meet `p`, changed by `f`. -/
def update (p : K → V → Bool) (f : V → V) (t : Table K V) : Table K V where
  entries := t.entries.map (updateEntry p f)
  nodupKeys := by
    have hkeys : (t.entries.map (updateEntry p f)).keys = t.entries.keys := by
      simp [List.keys, updateEntry, Function.comp_def]
    rw [List.NodupKeys, hkeys]
    exact t.nodupKeys

/-- How many rows an update changes. -/
def updated (p : K → V → Bool) (t : Table K V) : ℕ := (select p t).length

variable [DecidableEq K]

theorem lookup_eq_some_iff {t : Table K V} {k : K} {v : V} :
    t.lookup k = some v ↔ ⟨k, v⟩ ∈ t.entries :=
  AList.mem_lookup_iff

theorem mem_select {p : K → V → Bool} {t : Table K V} {k : K} :
    k ∈ select p t ↔ ∃ v, t.lookup k = some v ∧ p k v = true := by
  simp only [select, List.mem_map, List.mem_filter, lookup_eq_some_iff]
  constructor
  · rintro ⟨⟨k, v⟩, ⟨hmem, hp⟩, rfl⟩
    exact ⟨v, hmem, hp⟩
  · rintro ⟨v, hmem, hp⟩
    exact ⟨⟨k, v⟩, ⟨hmem, hp⟩, rfl⟩

theorem lookup_update (p : K → V → Bool) (f : V → V) (t : Table K V) (k : K) :
    (update p f t).lookup k = (t.lookup k).map fun v => if p k v then f v else v := by
  rcases hk : t.lookup k with _ | v
  · refine AList.lookup_eq_none.mpr fun hmem => AList.lookup_eq_none.mp hk ?_
    obtain ⟨x, hx, rfl⟩ := List.mem_map.mp (AList.mem_keys.mp hmem)
    obtain ⟨y, hy, rfl⟩ := List.mem_map.mp hx
    exact AList.mem_keys.mpr (List.mem_map.mpr ⟨y, hy, rfl⟩)
  · rw [lookup_eq_some_iff] at hk
    exact lookup_eq_some_iff.mpr (List.mem_map.mpr ⟨_, hk, rfl⟩)

theorem updated_pos {p : K → V → Bool} {t : Table K V} :
    0 < updated p t ↔ ∃ k v, t.lookup k = some v ∧ p k v = true := by
  rw [updated, List.length_pos_iff_exists_mem]
  exact exists_congr fun k => mem_select

end PrimaryKey
