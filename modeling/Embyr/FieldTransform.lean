import Embyr.Document

/-!
# Field transforms

The pure function behind every server-side transform
(`domain/field_transform.rs`). The source mutates the field map in place; here a
successful application returns the new map with the value it reports, and a
failing one returns only the error, so the caller's map is untouched.
-/

namespace Embyr

open Binary64

/-! ## Numeric transforms -/

/-- `is_numeric`. -/
def isNumeric : FieldValue → Bool
  | .integer _ | .double _ => true
  | _ => false

/-- `as_f64`; the source calls it on numeric values only. -/
def asF64 : FieldValue → Double
  | .integer i => .ofInt i.toInt
  | .double d => d
  | _ => .nan

/-- `zero_like`: the missing base of an increment has the delta's type. -/
def zeroLike : FieldValue → FieldValue
  | .double _ => .double .zero
  | _ => .integer 0

/-- `i64::checked_add`. -/
def checkedAdd (a b : Int64) : Option Int64 :=
  let sum := a.toInt + b.toInt
  if -2 ^ 63 ≤ sum ∧ sum < 2 ^ 63 then some (.ofInt sum) else none

/-- `add_numeric`: two integers stay an integer or overflow; any double promotes. -/
def addNumeric : FieldValue → FieldValue → Except CoreError FieldValue
  | .integer c, .integer d =>
    match checkedAdd c d with
    | some i => .ok (.integer i)
    | none => .error (.invalidArgument "increment overflow: result exceeds i64 range")
  | current, delta => .ok (.double ((asF64 current).add (asF64 delta)))

/-- `compute_increment`. -/
def computeIncrement (current : Option FieldValue) (delta : FieldValue) :
    Except CoreError FieldValue :=
  if !isNumeric delta then .error (.invalidArgument "increment delta must be numeric")
  else
    match current with
    | none => addNumeric (zeroLike delta) delta
    | some v =>
      if isNumeric v then addNumeric v delta
      else .error (.invalidArgument "increment target is not numeric")

/-- Which end of the order a transform keeps. -/
inductive Extremum where
  | maximum
  | minimum
  deriving DecidableEq

/-- `Extremum::kind_name`. -/
def Extremum.kindName : Extremum → String
  | .maximum => "maximum"
  | .minimum => "minimum"

/-- `pick_extremum`: compared as doubles, ties keep the current value. -/
def pickExtremum (current given : FieldValue) : Extremum → FieldValue
  | .maximum => if (asF64 given).fle (asF64 current) then current else given
  | .minimum => if (asF64 current).fle (asF64 given) then current else given

/-- `compute_extremum`: a missing field takes the given value. -/
def computeExtremum (current : Option FieldValue) (given : FieldValue) (which : Extremum) :
    Except CoreError FieldValue :=
  if !isNumeric given then
    .error (.invalidArgument (which.kindName ++ " comparand must be numeric"))
  else
    match current with
    | none => .ok given
    | some v =>
      if isNumeric v then .ok (pickExtremum v given which)
      else .error (.invalidArgument (which.kindName ++ " target is not numeric"))

/-! ## Array transforms -/

/-- `Vec::contains`, with `FieldValue::PartialEq`. -/
def containsValue (items : List FieldValue) (v : FieldValue) : Bool := items.any (·.eqv v)

/-- The loop of `append_missing_elements`: push each value not yet present. -/
def appendMissing (merged : List FieldValue) : List FieldValue → List FieldValue
  | [] => merged
  | v :: vs => appendMissing (if containsValue merged v then merged else merged ++ [v]) vs

/-- `append_missing_elements`. -/
def appendMissingElements (fields : Fields) (fieldPath : String) (values : List FieldValue) :
    Except CoreError Fields :=
  match fields[fieldPath]? with
  | none => .ok (fields.insert fieldPath (.array (appendMissing [] values)))
  | some (.array existing) =>
    .ok (fields.insert fieldPath (.array (appendMissing existing values)))
  | some _ => .error (.invalidArgument "appendMissingElements target is not an array")

/-- `remove_all_from_array`: a missing field is left missing. -/
def removeAllFromArray (fields : Fields) (fieldPath : String) (values : List FieldValue) :
    Except CoreError Fields :=
  match fields[fieldPath]? with
  | none => .ok fields
  | some (.array existing) =>
    .ok (fields.insert fieldPath (.array (existing.filter fun item => !containsValue values item)))
  | some _ => .error (.invalidArgument "removeAllFromArray target is not an array")

/-! ## Applying transforms -/

/-- Store a computed value and report it. -/
def storeComputed (fields : Fields) (fieldPath : String) :
    Except CoreError FieldValue → Except CoreError (Fields × Option FieldValue)
  | .ok value => .ok (fields.insert fieldPath value, some value)
  | .error e => .error e

/-- `apply_field_transform`. The array kinds report no value. -/
def applyFieldTransform (fields : Fields) (transform : FieldTransform) (now : Timestamp) :
    Except CoreError (Fields × Option FieldValue) :=
  match transform with
  | .serverTimestamp p => storeComputed fields p (.ok now.toValue)
  | .increment p delta => storeComputed fields p (computeIncrement fields[p]? delta)
  | .maximum p given => storeComputed fields p (computeExtremum fields[p]? given .maximum)
  | .minimum p given => storeComputed fields p (computeExtremum fields[p]? given .minimum)
  | .appendMissingElements p values =>
    (appendMissingElements fields p values).map fun fields => (fields, none)
  | .removeAllFromArray p values =>
    (removeAllFromArray fields p values).map fun fields => (fields, none)

/-- The loop of `commit_transaction` over one write's transforms: thread the map,
collect the reported values in order, stop at the first error. -/
def applyFieldTransforms (now : Timestamp) :
    Fields → List FieldTransform → Except CoreError (Fields × List FieldValue)
  | fields, [] => .ok (fields, [])
  | fields, t :: ts => do
    let (fields, value) ← applyFieldTransform fields t now
    let (fields, values) ← applyFieldTransforms now fields ts
    return (fields, value.toList ++ values)

/-! ## Frame -/

variable {fields fields' : Fields} {field : String} {value : Option FieldValue}

theorem storeComputed_frame {p : String} {computed : Except CoreError FieldValue}
    (h : storeComputed fields p computed = .ok (fields', value)) (hne : field ≠ p) :
    fields'[field]? = fields[field]? := by
  rcases computed with e | v
  · cases h
  · cases h
    rw [Std.ExtTreeMap.getElem?_insert, if_neg (by simpa using hne.symm)]

variable {now : Timestamp}

/-- A transform changes its own field only. -/
theorem applyFieldTransform_frame {t : FieldTransform}
    (h : applyFieldTransform fields t now = .ok (fields', value)) (hne : field ≠ t.fieldPath) :
    fields'[field]? = fields[field]? := by
  have hinsert : ∀ p v, field ≠ p → (fields.insert p v)[field]? = fields[field]? := by
    intro p v hp
    rw [Std.ExtTreeMap.getElem?_insert, if_neg (by simpa using hp.symm)]
  cases t with
  | serverTimestamp p =>
    have hstore : storeComputed fields p (.ok now.toValue) = .ok (fields', value) := h
    exact storeComputed_frame hstore hne
  | increment p delta => exact storeComputed_frame h hne
  | maximum p given => exact storeComputed_frame h hne
  | minimum p given => exact storeComputed_frame h hne
  | appendMissingElements p values =>
    obtain ⟨fields'', happend, heq⟩ := map_eq_ok h
    cases heq
    rw [appendMissingElements.eq_def] at happend
    split at happend
    · rw [← Except.ok.inj happend]
      exact hinsert _ _ hne
    · rw [← Except.ok.inj happend]
      exact hinsert _ _ hne
    · cases happend
  | removeAllFromArray p values =>
    obtain ⟨fields'', hremove, heq⟩ := map_eq_ok h
    cases heq
    rw [removeAllFromArray.eq_def] at hremove
    split at hremove
    · rw [← Except.ok.inj hremove]
    · rw [← Except.ok.inj hremove]
      exact hinsert _ _ hne
    · cases hremove

/-- A list of transforms changes the fields it names only. -/
theorem applyFieldTransforms_frame {ts : List FieldTransform} {values : List FieldValue}
    (h : applyFieldTransforms now fields ts = .ok (fields', values))
    (hne : ∀ t ∈ ts, field ≠ t.fieldPath) : fields'[field]? = fields[field]? := by
  induction ts generalizing fields values with
  | nil =>
    cases h
    rfl
  | cons t ts ih =>
    rw [applyFieldTransforms] at h
    obtain ⟨⟨fields₁, value⟩, hfirst, h⟩ := bind_eq_ok h
    obtain ⟨⟨fields₂, values₂⟩, hrest, h⟩ := bind_eq_ok h
    cases h
    rw [ih hrest (List.forall_mem_cons.mp hne).2,
      applyFieldTransform_frame hfirst (hne t List.mem_cons_self)]

end Embyr
