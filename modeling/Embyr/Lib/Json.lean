import Mathlib.Data.List.Pairwise
import Mathlib.Data.String.Basic
import Embyr.Lib.Binary64

/-!
# JSON values

JSON as a document store holds it: numbers are integers or finite binary64
values, objects are entry lists in key order.

* `eqv` — equality of two JSON values, numbers compared by value.
* `contains` — structural containment: an object contains an object with a subset
  of its keys, an array contains an array whose elements are each contained in one
  of its own.
* `insertEntry`, `SortedKeys` — the ordered map behind an object, as its entry
  list. Inserting the entries of an ordered list one by one gives the list back
  (`foldl_insertEntry`).
-/

open Binary64

/-- A JSON value. -/
inductive Json where
  | null
  | bool (b : Bool)
  | int (i : ℤ)
  | float (negative : Bool) (magnitude : Magnitude)
  | str (s : String)
  | arr (items : List Json)
  | obj (entries : List (String × Json))

namespace Json

/-! ## Accessors -/

/-- The member of an object under a key. -/
def get (key : String) : Json → Option Json
  | .obj entries => entries.lookup key
  | _ => none

def asStr : Json → Option String
  | .str s => some s
  | _ => none

def asBool : Json → Option Bool
  | .bool b => some b
  | _ => none

/-- An integer that fits 64 bits. -/
def asInt64 : Json → Option Int64
  | .int i => if -2 ^ 63 ≤ i ∧ i < 2 ^ 63 then some (Int64.ofInt i) else none
  | _ => none

/-- A number as the nearest double. -/
def asDouble : Json → Option Double
  | .int i => some (Double.ofInt i)
  | .float negative magnitude => some (.fin negative magnitude)
  | _ => none

/-- The text of a value outside any document: a string is its own text, the null
value has none, and `render` writes the others. -/
def asText (render : Json → String) : Json → Option String
  | .null => none
  | .str s => some s
  | v => some (render v)

/-! ## Equality and containment -/

/-- An integer in the units a finite double is counted in. -/
def unitsOfInt (i : ℤ) : ℤ := i * 2 ^ 1074

mutual

/-- Equality of JSON values; numbers are equal when their values are. -/
def eqv : Json → Json → Bool
  | .null, .null => true
  | .bool a, .bool b => a == b
  | .int a, .int b => a == b
  | .int a, .float n m => unitsOfInt a == Double.signedUnits n m
  | .float n m, .int a => Double.signedUnits n m == unitsOfInt a
  | .float n m, .float n' m' => Double.signedUnits n m == Double.signedUnits n' m'
  | .str a, .str b => a == b
  | .arr xs, .arr ys => eqvItems xs ys
  | .obj xs, .obj ys => eqvEntries xs ys
  | _, _ => false

/-- Elementwise `eqv`. -/
def eqvItems : List Json → List Json → Bool
  | [], [] => true
  | x :: xs, y :: ys => eqv x y && eqvItems xs ys
  | _, _ => false

/-- Entrywise `eqv`, keys included. -/
def eqvEntries : List (String × Json) → List (String × Json) → Bool
  | [], [] => true
  | (k, x) :: xs, (l, y) :: ys => k == l && eqv x y && eqvEntries xs ys
  | _, _ => false

end

section

variable (a b : Bool) (i j : ℤ) (s t : String) (n n' : Bool) (m m' : Magnitude)

@[simp] theorem eqv_bool : eqv (.bool a) (.bool b) = (a == b) := rfl

@[simp] theorem eqv_int : eqv (.int i) (.int j) = (i == j) := rfl

@[simp] theorem eqv_str : eqv (.str s) (.str t) = (s == t) := rfl

@[simp] theorem eqv_float : eqv (.float n m) (.float n' m') =
    (Double.signedUnits n m == Double.signedUnits n' m') := rfl

@[simp] theorem eqv_float_str : eqv (.float n m) (.str s) = false := rfl

@[simp] theorem eqv_str_float : eqv (.str s) (.float n m) = false := rfl

end

@[simp] theorem eqv_arr (xs ys : List Json) : eqv (.arr xs) (.arr ys) = eqvItems xs ys := rfl

@[simp] theorem eqv_obj (xs ys : List (String × Json)) :
    eqv (.obj xs) (.obj ys) = eqvEntries xs ys := rfl

@[simp] theorem eqvEntries_cons (k l : String) (x y : Json) (xs ys : List (String × Json)) :
    eqvEntries ((k, x) :: xs) ((l, y) :: ys) = (k == l && eqv x y && eqvEntries xs ys) := rfl

@[simp] theorem eqvEntries_nil : eqvEntries [] [] = true := rfl

@[simp] theorem eqvEntries_nil_cons (e : String × Json) (ys : List (String × Json)) :
    eqvEntries [] (e :: ys) = false := rfl

@[simp] theorem eqvEntries_cons_nil (e : String × Json) (xs : List (String × Json)) :
    eqvEntries (e :: xs) [] = false := rfl

mutual

/-- `x` contains `y`; a value that is neither an array nor an object contains the
values equal to it. -/
def contains (x : Json) : Json → Bool
  | .arr ys =>
    match x with
    | .arr xs => containsItems xs ys
    | _ => false
  | .obj ys =>
    match x with
    | .obj xs => containsEntries xs ys
    | _ => false
  | y => eqv x y

/-- Every element of the second list is contained in one of the first. -/
def containsItems (xs : List Json) : List Json → Bool
  | [] => true
  | y :: ys => xs.any (fun x => contains x y) && containsItems xs ys

/-- The first object has every key of the second, with a value that contains the
second's. -/
def containsEntries (xs : List (String × Json)) : List (String × Json) → Bool
  | [] => true
  | (k, y) :: ys => (xs.lookup k).any (fun x => contains x y) && containsEntries xs ys

end

/-! ## Entry lists -/

section Entries

variable {K V : Type} [LinearOrder K]

/-- The keys are strictly increasing. -/
def SortedKeys (entries : List (K × V)) : Prop := entries.Pairwise fun a b => a.1 < b.1

/-- An entry put in its place, replacing one of the same key. -/
def insertEntry (key : K) (value : V) : List (K × V) → List (K × V)
  | [] => [(key, value)]
  | (k, v) :: rest =>
    if key < k then (key, value) :: (k, v) :: rest
    else if key = k then (key, value) :: rest
    else (k, v) :: insertEntry key value rest

/-- With strictly increasing keys, an entry is found under its key. -/
theorem lookup_of_mem [BEq K] [LawfulBEq K] {entries : List (K × V)} {key : K} {value : V}
    (h : SortedKeys entries) (hmem : (key, value) ∈ entries) :
    entries.lookup key = some value := by
  obtain ⟨before, after, rfl⟩ := List.append_of_mem hmem
  refine List.lookup_eq_some_iff.mpr ⟨before, after, rfl, fun e he => ?_⟩
  have hlt : e.1 < key := (List.pairwise_append.mp h).2.2 e he _ List.mem_cons_self
  simpa using hlt.ne'

/-- A key above all others goes last. -/
theorem insertEntry_last {key : K} {value : V} {entries : List (K × V)}
    (h : ∀ e ∈ entries, e.1 < key) : insertEntry key value entries = entries ++ [(key, value)] := by
  induction entries with
  | nil => rfl
  | cons e rest ih =>
    have hlt : e.1 < key := h e List.mem_cons_self
    rw [insertEntry, if_neg (lt_asymm hlt), if_neg (ne_of_gt hlt),
      ih (List.forall_mem_cons.mp h).2]
    rfl

/-- The entries of an ordered list, inserted in turn behind smaller ones, are
appended. -/
theorem foldl_insertEntry {entries acc : List (K × V)} (h : SortedKeys (acc ++ entries)) :
    entries.foldl (fun map e => insertEntry e.1 e.2 map) acc = acc ++ entries := by
  induction entries generalizing acc with
  | nil => simp
  | cons e rest ih =>
    have hlast : insertEntry e.1 e.2 acc = acc ++ [e] :=
      insertEntry_last fun a ha => (List.pairwise_append.mp h).2.2 a ha e List.mem_cons_self
    rw [List.foldl_cons, hlast, ih (by simpa using h)]
    simp

end Entries

end Json
