import Mathlib
import Embyr.Lib.Binary64

/-!
# Field values and field maps

The value domain of a stored document (`domain/field_value.rs`) and the ordered
string maps (`BTreeMap<String, _>`) the whole program passes around.

`FieldValue::PartialEq` is derived in the source, so it is structural except at
doubles, where it is IEEE equality: a NaN is not equal to itself and the two
zeros are equal. It is `FieldValue.eqv` here. Lean's own equality, which the
proofs use, is the finer `FieldValue.beq`; both are instances of one recursion.
-/

namespace Embyr

open Binary64

/-- A `BTreeMap<String, V>`: an ordered map, equal to another as soon as all
lookups agree. -/
abbrev StrMap (V : Type) : Type := Std.ExtTreeMap String V compare

/-- A stored value (`FieldValue`). The entries of a `map` are listed in the key
order of the source's `BTreeMap`. -/
inductive FieldValue where
  | null
  | boolean (b : Bool)
  | integer (i : Int64)
  | double (d : Double)
  | timestamp (secs : Int64) (nanos : Int32)
  | string (s : String)
  | bytes (b : List UInt8)
  | reference (r : String)
  | array (items : List FieldValue)
  | map (entries : List (String × FieldValue))

/-- The fields of a document. -/
abbrev Fields : Type := StrMap FieldValue

namespace FieldValue

mutual

/-- Structural equality, with the equality of doubles left open. -/
def eqvWith (deq : Double → Double → Bool) : FieldValue → FieldValue → Bool
  | .null, .null => true
  | .boolean a, .boolean b => a == b
  | .integer a, .integer b => a == b
  | .double a, .double b => deq a b
  | .timestamp s n, .timestamp t m => s == t && n == m
  | .string a, .string b => a == b
  | .bytes a, .bytes b => a == b
  | .reference a, .reference b => a == b
  | .array xs, .array ys => eqvItems deq xs ys
  | .map xs, .map ys => eqvEntries deq xs ys
  | _, _ => false

/-- Elementwise `eqvWith`. -/
def eqvItems (deq : Double → Double → Bool) : List FieldValue → List FieldValue → Bool
  | [], [] => true
  | x :: xs, y :: ys => eqvWith deq x y && eqvItems deq xs ys
  | _, _ => false

/-- Entrywise `eqvWith`, keys included. -/
def eqvEntries (deq : Double → Double → Bool) :
    List (String × FieldValue) → List (String × FieldValue) → Bool
  | [], [] => true
  | (k, x) :: xs, (l, y) :: ys => k == l && eqvWith deq x y && eqvEntries deq xs ys
  | _, _ => false

end

/-- `FieldValue::PartialEq`. -/
def eqv : FieldValue → FieldValue → Bool := eqvWith Double.feq

/-- Equality of the values as data. -/
def beq : FieldValue → FieldValue → Bool := eqvWith (· == ·)

mutual

theorem eqvWith_beq_iff : ∀ a b : FieldValue, eqvWith (· == ·) a b = true ↔ a = b
  | .null, b => by cases b <;> simp [eqvWith]
  | .boolean a, b => by cases b <;> simp [eqvWith]
  | .integer a, b => by cases b <;> simp [eqvWith]
  | .double a, b => by cases b <;> simp [eqvWith]
  | .timestamp s n, b => by cases b <;> simp [eqvWith]
  | .string a, b => by cases b <;> simp [eqvWith]
  | .bytes a, b => by cases b <;> simp [eqvWith]
  | .reference a, b => by cases b <;> simp [eqvWith]
  | .array xs, b => by cases b <;> simp [eqvWith, eqvItems_beq_iff xs]
  | .map xs, b => by cases b <;> simp [eqvWith, eqvEntries_beq_iff xs]

theorem eqvItems_beq_iff :
    ∀ xs ys : List FieldValue, eqvItems (· == ·) xs ys = true ↔ xs = ys
  | [], ys => by cases ys <;> simp [eqvItems]
  | x :: xs, ys => by
    cases ys <;> simp [eqvItems, eqvWith_beq_iff x, eqvItems_beq_iff xs]

theorem eqvEntries_beq_iff :
    ∀ xs ys : List (String × FieldValue), eqvEntries (· == ·) xs ys = true ↔ xs = ys
  | [], ys => by cases ys <;> simp [eqvEntries]
  | (k, x) :: xs, ys => by
    cases ys <;> simp [eqvEntries, eqvWith_beq_iff x, eqvEntries_beq_iff xs, Prod.ext_iff]

end

instance : DecidableEq FieldValue := fun a b =>
  decidable_of_iff (beq a b = true) (eqvWith_beq_iff a b)

/-- `PartialEq` against a string is equality: no double is involved. -/
@[simp] theorem eqv_string_iff {v : FieldValue} {s : String} :
    v.eqv (.string s) = true ↔ v = .string s := by
  cases v <;> simp [eqv, eqvWith]

end FieldValue

end Embyr
