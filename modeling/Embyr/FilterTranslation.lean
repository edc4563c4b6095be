import Embyr.QueryCompliance
import Embyr.Lib.Json

/-!
# From the wire filter to the domain filter

`translate_filter` turns the filter tree of a request into a `QueryFilter`. A part
it has no domain form for is `none`, and the loops over the children of a
composite step over a `none`.

* `ProtoFilter`, `translateFilter` — the wire tree, with every part that a client
  can leave out, and its translation.
* `ProtoFilter.reads` — the standard reading of a wire filter. What a part without
  a domain form selects is left open.
* `ProtoFilter.HasRefused`, `ProtoFilter.Complete` — some comparison in the tree
  is refused by name; every part of the tree has a domain form and every composite
  a child.
* `translateFilter_faithful_iff` — the translation keeps the meaning exactly on
  the filters with one of the two.
-/

namespace Embyr

open Binary64

/-! ## Field paths -/

/-- `is_valid_field_path`: `^[a-zA-Z_][a-zA-Z0-9_.]*$`. -/
def isValidFieldPath (path : String) : Bool :=
  match path.toList with
  | [] => false
  | c :: rest => (c.isAlpha || c == '_') && rest.all fun c => c.isAlphanum || c == '_' || c == '.'

def validateFieldPath (path : String) : Except CoreError Unit :=
  if isValidFieldPath path then .ok ()
  else .error (.invalidArgument ("field path must match ^[a-zA-Z_][a-zA-Z0-9_.]*$, got: " ++ path))

/-! ## The wire types -/

/-- `Value` of the wire; `unset` is a message without a value type. -/
inductive ProtoValue where
  | unset
  | nullValue
  | booleanValue (b : Bool)
  | integerValue (i : Int64)
  | doubleValue (d : Double)
  | stringValue (s : String)
  | bytesValue (b : List UInt8)
  | referenceValue (r : String)
  | timestampValue (secs : Int64) (nanos : Int32)
  | arrayValue (values : List ProtoValue)
  | mapValue (fields : List (String × ProtoValue))
  | geoPointValue (latitude longitude : Double)

mutual

/-- `proto_value_to_field_value`. -/
def protoValueToFieldValue : ProtoValue → Option FieldValue
  | .unset => none
  | .nullValue => some .null
  | .booleanValue b => some (.boolean b)
  | .integerValue i => some (.integer i)
  | .doubleValue d => some (.double d)
  | .stringValue s => some (.string s)
  | .bytesValue b => some (.bytes b)
  | .referenceValue r => some (.reference r)
  | .timestampValue s n => some (.timestamp s n)
  | .arrayValue values => (protoItems values).map .array
  | .mapValue fields => (protoEntries [] fields).map .map
  | .geoPointValue _ _ => none

def protoItems : List ProtoValue → Option (List FieldValue)
  | [] => some []
  | v :: vs => do
    let x ← protoValueToFieldValue v
    let xs ← protoItems vs
    return x :: xs

def protoEntries (map : List (String × FieldValue)) :
    List (String × ProtoValue) → Option (List (String × FieldValue))
  | [] => some map
  | (k, v) :: rest => do
    let x ← protoValueToFieldValue v
    protoEntries (Json.insertEntry k x map) rest

end

/-- `field_filter::Operator`. -/
inductive FieldOp where
  | unspecified
  | lessThan
  | lessThanOrEqual
  | greaterThan
  | greaterThanOrEqual
  | equal
  | notEqual
  | arrayContains
  | isIn
  | arrayContainsAny
  | notIn
  deriving DecidableEq

/-- The operator of a wire code, by the numbering of the schema. -/
def FieldOp.tryFrom (code : Int32) : Option FieldOp :=
  [unspecified, lessThan, lessThanOrEqual, greaterThan, greaterThanOrEqual, equal, notEqual,
    arrayContains, isIn, arrayContainsAny, notIn].zipIdx.findSome? fun (op, i) =>
      if code = Int32.ofNat i then some op else none

/-- `composite_filter::Operator`. -/
inductive CompositeOp where
  | unspecified
  | and
  | or
  deriving DecidableEq

def CompositeOp.tryFrom (code : Int32) : Option CompositeOp :=
  if code = 0 then some .unspecified else if code = 1 then some .and
  else if code = 2 then some .or else none

/-- `unary_filter::Operator`. -/
inductive UnaryOp where
  | unspecified
  | isNan
  | isNull
  | isNotNan
  | isNotNull
  deriving DecidableEq

def UnaryOp.tryFrom (code : Int32) : Option UnaryOp :=
  if code = 0 then some .unspecified else if code = 2 then some .isNan
  else if code = 3 then some .isNull else if code = 4 then some .isNotNan
  else if code = 5 then some .isNotNull else none

/-- `Filter` of the wire. The operators are codes, and the field reference and the
value of a comparison may be left out. -/
inductive ProtoFilter where
  /-- a message without a filter type -/
  | unset
  | fieldFilter (field : Option String) (op : Int32) (value : Option ProtoValue)
  | compositeFilter (op : Int32) (filters : List ProtoFilter)
  | unaryFilter (field : Option String) (op : Int32)

/-! ## The translation -/

def translateFieldOp : FieldOp → Option FilterOp
  | .lessThan => some .lessThan
  | .lessThanOrEqual => some .lessThanOrEqual
  | .greaterThan => some .greaterThan
  | .greaterThanOrEqual => some .greaterThanOrEqual
  | .equal => some .equal
  | .notEqual => some .notEqual
  | .arrayContains => some .arrayContains
  | .isIn => some .isIn
  | .arrayContainsAny => some .arrayContainsAny
  | .notIn => some .notIn
  | .unspecified => none

/-- The name of an operator that needs a list of targets. -/
def FilterOp.listName : FilterOp → Option String
  | .isIn => some "in"
  | .notIn => some "not-in"
  | .arrayContainsAny => some "array-contains-any"
  | _ => none

/-- The refusals that depend on the operator and the kind of the value, in the
order of the source. -/
def shapeError (op : FilterOp) (value : FieldValue) : Option String :=
  match op.isRange, op.listName, value with
  | true, _, .array _ => some "range comparison operators are not supported on array values"
  | true, _, .map _ => some "range comparison operators are not supported on map values"
  | true, _, .null => some "range comparison operators do not support null values"
  | true, _, _ => none
  | false, some _, .array _ => none
  | false, some name, _ => some (name ++ " requires an array value")
  | false, none, _ => none

/-- The operator of a unary filter; the outer `none` is an unknown code, which the
source treats as an absent filter. -/
def translateUnaryOp (code : Int32) : Option (Except String FilterOp) :=
  match UnaryOp.tryFrom code with
  | none => none
  | some .isNan => some (.ok .isNan)
  | some .isNotNan => some (.ok .isNotNan)
  | some .isNull => some (.ok .isNull)
  | some .isNotNull => some (.ok .isNotNull)
  | some .unspecified => some (.error ("unsupported unary filter op: " ++ toString code))

def translateFieldFilter (field : Option String) (op : Int32) (value : Option ProtoValue) :
    Option (Except String QueryFilter) := do
  let fieldPath ← field
  match validateFieldPath fieldPath with
  | .error e => return .error e.message
  | .ok () =>
    let op ← (FieldOp.tryFrom op).bind translateFieldOp
    let value ← value.bind protoValueToFieldValue
    match shapeError op value with
    | some message => return .error message
    | none => return .ok (.field ⟨fieldPath, op, value⟩)

def translateUnaryFilter (field : Option String) (op : Int32) :
    Option (Except String QueryFilter) := do
  let fieldPath ← field
  match validateFieldPath fieldPath with
  | .error e => return .error e.message
  | .ok () =>
    match ← translateUnaryOp op with
    | .error message => return .error message
    -- no value is compared: the null is a placeholder
    | .ok op => return .ok (.field ⟨fieldPath, op, .null⟩)

mutual

def translateFilter : ProtoFilter → Option (Except String QueryFilter)
  | .unset => none
  | .fieldFilter field op value => translateFieldFilter field op value
  | .compositeFilter op filters =>
    match (CompositeOp.tryFrom op).getD .unspecified with
    | .and | .unspecified => some ((translateChildren filters).map .composite)
    | .or => some ((translateChildren filters).map .compositeOr)
  | .unaryFilter field op => translateUnaryFilter field op

/-- The loop over the children of a composite: an absent translation is stepped
over, an error ends the loop. -/
def translateChildren : List ProtoFilter → Except String (List QueryFilter)
  | [] => .ok []
  | sub :: rest =>
    match translateFilter sub with
    | some (.ok qf) => (translateChildren rest).map (qf :: ·)
    | some (.error e) => .error e
    | none => translateChildren rest

end

/-! ## The standard reading of a wire filter -/

/-- The comparison a leaf of the tree states, if the domain has it. -/
def ProtoFilter.comparison : ProtoFilter → Option FieldFilter
  | .fieldFilter field op value => do
    let fieldPath ← field
    let op ← (FieldOp.tryFrom op).bind translateFieldOp
    let value ← value.bind protoValueToFieldValue
    return ⟨fieldPath, op, value⟩
  | .unaryFilter field op => do
    let fieldPath ← field
    match ← translateUnaryOp op with
    | .error _ => none
    | .ok op => return ⟨fieldPath, op, .null⟩
  | .unset | .compositeFilter _ _ => none

/-- The message a leaf is refused with: its field path is invalid, or its operator
does not take its value. -/
def ProtoFilter.refusal : ProtoFilter → Option String
  | .fieldFilter field op value =>
    match field with
    | none => none
    | some fieldPath =>
      match validateFieldPath fieldPath with
      | .error e => some e.message
      | .ok () => do
        let op ← (FieldOp.tryFrom op).bind translateFieldOp
        let value ← value.bind protoValueToFieldValue
        shapeError op value
  | .unaryFilter field op =>
    match field with
    | none => none
    | some fieldPath =>
      match validateFieldPath fieldPath with
      | .error e => some e.message
      | .ok () =>
        match translateUnaryOp op with
        | some (.error message) => some message
        | _ => none
  | .unset | .compositeFilter _ _ => none

namespace ProtoFilter

section Reading

variable (other : FieldFilter → Fields → Bool) (foreign : ProtoFilter → Fields → Bool)
  (fields : Fields)

mutual

/-- The documents a wire filter selects: all children of an AND, one child of an
OR, the comparison of a leaf. `foreign` says what a part without a domain form
selects. -/
def reads : ProtoFilter → Bool
  | .compositeFilter op filters =>
    match CompositeOp.tryFrom op with
    | some .and => readsAll filters
    | some .or => readsAny filters
    | _ => foreign (.compositeFilter op filters) fields
  | f@(.fieldFilter _ _ _) | f@(.unaryFilter _ _) | f@(.unset) =>
    match f.comparison with
    | some ff => ff.selects other fields
    | none => foreign f fields

def readsAll : List ProtoFilter → Bool
  | [] => true
  | f :: fs => reads f && readsAll fs

def readsAny : List ProtoFilter → Bool
  | [] => false
  | f :: fs => reads f || readsAny fs

end

end Reading

mutual

/-- Every part of the tree has a domain form. -/
def Represented : ProtoFilter → Prop
  | .compositeFilter op filters =>
    (CompositeOp.tryFrom op = some .and ∨ CompositeOp.tryFrom op = some .or) ∧
      AllRepresented filters
  | f@(.fieldFilter _ _ _) | f@(.unaryFilter _ _) | f@(.unset) => f.comparison.isSome

def AllRepresented : List ProtoFilter → Prop
  | [] => True
  | f :: fs => f.Represented ∧ AllRepresented fs

end

mutual

/-- Every part of the tree has a domain form, and every composite a child. -/
def Complete : ProtoFilter → Prop
  | .compositeFilter op filters =>
    (CompositeOp.tryFrom op = some .and ∨ CompositeOp.tryFrom op = some .or) ∧
      filters ≠ [] ∧ AllComplete filters
  | f@(.fieldFilter _ _ _) | f@(.unaryFilter _ _) | f@(.unset) => f.comparison.isSome

def AllComplete : List ProtoFilter → Prop
  | [] => True
  | f :: fs => f.Complete ∧ AllComplete fs

end

mutual

/-- Some leaf of the tree is refused. -/
def HasRefused : ProtoFilter → Prop
  | .compositeFilter _ filters => AnyRefused filters
  | f@(.fieldFilter _ _ _) | f@(.unaryFilter _ _) | f@(.unset) => f.refusal.isSome

def AnyRefused : List ProtoFilter → Prop
  | [] => False
  | f :: fs => f.HasRefused ∨ AnyRefused fs

end

end ProtoFilter

open ProtoFilter

namespace QueryFilter

mutual

/-- No composite of the tree is without children. -/
def NoEmptyComposite : QueryFilter → Prop
  | .field _ => True
  | .composite filters | .compositeOr filters => filters ≠ [] ∧ AllNoEmptyComposite filters

def AllNoEmptyComposite : List QueryFilter → Prop
  | [] => True
  | f :: fs => f.NoEmptyComposite ∧ AllNoEmptyComposite fs

end

end QueryFilter

/-! ## What the translation of a leaf is -/

theorem translateFieldFilter_eq (field : Option String) (op : Int32) (value : Option ProtoValue) :
    translateFieldFilter field op value =
      match (ProtoFilter.fieldFilter field op value).refusal with
      | some message => some (.error message)
      | none => (ProtoFilter.fieldFilter field op value).comparison.map fun ff =>
          .ok (.field ff) := by
  cases field with
  | none => rfl
  | some path =>
    simp only [translateFieldFilter, ProtoFilter.refusal, ProtoFilter.comparison,
      Option.bind_eq_bind, Option.bind_some]
    cases validateFieldPath path with
    | error e => rfl
    | ok _ =>
      cases (FieldOp.tryFrom op).bind translateFieldOp with
      | none => rfl
      | some op =>
        cases value.bind protoValueToFieldValue with
        | none => rfl
        | some value =>
          simp only [Option.bind_some]
          cases shapeError op value <;> rfl

theorem translateUnaryFilter_eq (field : Option String) (op : Int32) :
    translateUnaryFilter field op =
      match (ProtoFilter.unaryFilter field op).refusal with
      | some message => some (.error message)
      | none => (ProtoFilter.unaryFilter field op).comparison.map fun ff => .ok (.field ff) := by
  cases field with
  | none => rfl
  | some path =>
    simp only [translateUnaryFilter, ProtoFilter.refusal, ProtoFilter.comparison,
      Option.bind_eq_bind, Option.bind_some]
    cases validateFieldPath path with
    | error e => rfl
    | ok _ => rcases translateUnaryOp op with _ | _ | _ <;> rfl

/-- A composite is the loop over its children under one of two constructors. -/
theorem translateFilter_composite (op : Int32) (filters : List ProtoFilter) :
    translateFilter (.compositeFilter op filters) =
      some ((translateChildren filters).map
        (if CompositeOp.tryFrom op = some .or then .compositeOr else .composite)) := by
  rw [translateFilter]
  rcases CompositeOp.tryFrom op with _ | _ | _ | _ <;> rfl

/-! ## Refused leaves -/

/-- A refused leaf is the translation's error, and no other translation is one. -/
theorem leaf_error_iff {f : ProtoFilter} {result : Option (Except String QueryFilter)}
    (h : result = match f.refusal with
      | some message => some (.error message)
      | none => f.comparison.map fun ff => .ok (.field ff)) :
    (∃ e, result = some (.error e)) ↔ f.refusal.isSome := by
  subst h
  cases f.refusal with
  | some message => simp
  | none => cases f.comparison <;> simp

mutual

/-- An error anywhere in the tree is the error of the whole, and there is one
exactly when a leaf is refused. -/
theorem translateFilter_error_iff :
    ∀ f : ProtoFilter, (∃ e, translateFilter f = some (.error e)) ↔ f.HasRefused
  | .unset => by simp [translateFilter, HasRefused, ProtoFilter.refusal]
  | .fieldFilter field op value => by
    rw [translateFilter, HasRefused]
    exact leaf_error_iff (translateFieldFilter_eq field op value)
  | .unaryFilter field op => by
    rw [translateFilter, HasRefused]
    exact leaf_error_iff (translateUnaryFilter_eq field op)
  | .compositeFilter op filters => by
    rw [translateFilter_composite, HasRefused, ← translateChildren_error_iff filters]
    cases translateChildren filters <;> simp [Except.map]

theorem translateChildren_error_iff :
    ∀ fs : List ProtoFilter,
      (∃ e, translateChildren fs = .error e) ↔ AnyRefused fs
  | [] => by simp [translateChildren, AnyRefused]
  | f :: fs => by
    rw [translateChildren, AnyRefused, ← translateFilter_error_iff f,
      ← translateChildren_error_iff fs]
    rcases translateFilter f with _ | _ | qf
    · simp
    · simp
    · cases translateChildren fs <;> simp [Except.map]

end

/-! ## Represented filters -/

/-- What the translation of a represented filter is: a domain filter of the same
meaning, without an empty composite exactly when the wire filter has none. -/
structure Keeps (f : ProtoFilter) (q : QueryFilter) : Prop where
  translated : translateFilter f = some (.ok q)
  selects (other : FieldFilter → Fields → Bool) (foreign : ProtoFilter → Fields → Bool)
    (fields : Fields) : q.selects other fields = f.reads other foreign fields
  noEmpty : q.NoEmptyComposite ↔ f.Complete

/-- The same of the children of a composite. -/
structure KeepsAll (fs : List ProtoFilter) (qs : List QueryFilter) : Prop where
  translated : translateChildren fs = .ok qs
  allSelect (other : FieldFilter → Fields → Bool) (foreign : ProtoFilter → Fields → Bool)
    (fields : Fields) :
    QueryFilter.allSelect other fields qs = readsAll other foreign fields fs
  anySelects (other : FieldFilter → Fields → Bool) (foreign : ProtoFilter → Fields → Bool)
    (fields : Fields) :
    QueryFilter.anySelects other fields qs = readsAny other foreign fields fs
  noEmpty : QueryFilter.AllNoEmptyComposite qs ↔ AllComplete fs
  nil : qs = [] ↔ fs = []

mutual

theorem exists_keeps :
    ∀ f : ProtoFilter, f.Represented → ¬ f.HasRefused → ∃ q, Keeps f q
  | .unset, h, _ => by simp [Represented, ProtoFilter.comparison] at h
  | .fieldFilter field op value, h, hr => by
    rw [Represented, Option.isSome_iff_exists] at h
    rw [HasRefused, Option.not_isSome_iff_eq_none] at hr
    obtain ⟨ff, hff⟩ := h
    refine ⟨.field ff, ?_, fun other foreign fields => ?_, ?_⟩
    · rw [translateFilter, translateFieldFilter_eq, hr, hff]
      rfl
    · rw [QueryFilter.selects, reads, hff]
    · simp [QueryFilter.NoEmptyComposite, ProtoFilter.Complete, hff]
  | .unaryFilter field op, h, hr => by
    rw [Represented, Option.isSome_iff_exists] at h
    rw [HasRefused, Option.not_isSome_iff_eq_none] at hr
    obtain ⟨ff, hff⟩ := h
    refine ⟨.field ff, ?_, fun other foreign fields => ?_, ?_⟩
    · rw [translateFilter, translateUnaryFilter_eq, hr, hff]
      rfl
    · rw [QueryFilter.selects, reads, hff]
    · simp [QueryFilter.NoEmptyComposite, ProtoFilter.Complete, hff]
  | .compositeFilter op filters, h, hr => by
    rw [Represented] at h
    rw [HasRefused] at hr
    obtain ⟨qs, hqs⟩ := exists_keepsAll filters h.2 hr
    rcases h.1 with hop | hop
    · refine ⟨.composite qs, ?_, fun other foreign fields => ?_, ?_⟩
      · rw [translateFilter_composite, hqs.translated, hop]
        rfl
      · rw [QueryFilter.selects, reads, hop]
        exact hqs.allSelect other foreign fields
      · simp [QueryFilter.NoEmptyComposite, ProtoFilter.Complete, hop, hqs.noEmpty, hqs.nil]
    · refine ⟨.compositeOr qs, ?_, fun other foreign fields => ?_, ?_⟩
      · rw [translateFilter_composite, hqs.translated, hop]
        rfl
      · rw [QueryFilter.selects, reads, hop]
        exact hqs.anySelects other foreign fields
      · simp [QueryFilter.NoEmptyComposite, ProtoFilter.Complete, hop, hqs.noEmpty, hqs.nil]

theorem exists_keepsAll :
    ∀ fs : List ProtoFilter, AllRepresented fs → ¬ AnyRefused fs →
      ∃ qs, KeepsAll fs qs
  | [], _, _ => ⟨[], rfl, fun _ _ _ => rfl, fun _ _ _ => rfl, Iff.rfl, by simp⟩
  | f :: fs, h, hr => by
    rw [AllRepresented] at h
    rw [AnyRefused, not_or] at hr
    obtain ⟨q, hq⟩ := exists_keeps f h.1 hr.1
    obtain ⟨qs, hqs⟩ := exists_keepsAll fs h.2 hr.2
    refine ⟨q :: qs, ?_, fun other foreign fields => ?_, fun other foreign fields => ?_, ?_, by simp⟩
    · rw [translateChildren, hq.translated, hqs.translated]
      rfl
    · rw [QueryFilter.allSelect, readsAll, hq.selects other foreign,
        hqs.allSelect other foreign]
    · rw [QueryFilter.anySelects, readsAny, hq.selects other foreign,
        hqs.anySelects other foreign]
    · rw [QueryFilter.AllNoEmptyComposite, AllComplete, hq.noEmpty, hqs.noEmpty]

end

mutual

theorem ProtoFilter.Complete.represented :
    ∀ f : ProtoFilter, f.Complete → f.Represented
  | .unset, h | .fieldFilter _ _ _, h | .unaryFilter _ _, h => h
  | .compositeFilter _ filters, h => by
    rw [Complete] at h
    exact ⟨h.1, AllComplete.represented filters h.2.2⟩

theorem ProtoFilter.AllComplete.represented :
    ∀ fs : List ProtoFilter, AllComplete fs → AllRepresented fs
  | [], _ => trivial
  | f :: fs, h => ⟨Complete.represented f h.1, AllComplete.represented fs h.2⟩

end

/-- The translation of a wire filter keeps its meaning, has an error for a part
without a domain form and builds no empty composite, exactly when a leaf is refused
or the filter is complete. -/
theorem translateFilter_faithful_iff (f : ProtoFilter) :
    ((¬ f.Represented → ∃ e, translateFilter f = some (.error e)) ∧
      ((∃ e, translateFilter f = some (.error e)) ∨ ∃ q, translateFilter f = some (.ok q) ∧
        ∀ (other : FieldFilter → Fields → Bool) (foreign : ProtoFilter → Fields → Bool)
          (fields : Fields), q.selects other fields = f.reads other foreign fields) ∧
      ∀ q, translateFilter f = some (.ok q) → q.NoEmptyComposite) ↔
    f.HasRefused ∨ f.Complete := by
  rw [translateFilter_error_iff]
  constructor
  · rintro ⟨hdropped, -, hempty⟩
    by_cases hr : f.HasRefused
    · exact .inl hr
    · have hrep : f.Represented := by
        by_contra hrep
        exact hr (hdropped hrep)
      obtain ⟨q, hq⟩ := exists_keeps f hrep hr
      exact .inr (hq.noEmpty.mp (hempty q hq.translated))
  · intro h
    by_cases hr : f.HasRefused
    · refine ⟨fun _ => hr, .inl hr, fun q hq => ?_⟩
      obtain ⟨e, he⟩ := (translateFilter_error_iff f).mpr hr
      rw [he] at hq
      cases hq
    · have hcomplete : f.Complete := h.resolve_left hr
      have hrep := Complete.represented f hcomplete
      obtain ⟨q, hq⟩ := exists_keeps f hrep hr
      refine ⟨fun hn => absurd hrep hn, .inr ⟨q, hq.translated, hq.selects⟩, fun q' hq' => ?_⟩
      rw [hq.translated] at hq'
      cases hq'
      exact hq.noEmpty.mpr hcomplete

/-- A conjunction of an age bound and a comparison with a geographic point is
translated to the age bound alone. -/
theorem translateFilter_drops_geoPoint :
    let age : ProtoFilter := .fieldFilter (some "age") 3 (some (.integerValue 17))
    let near : ProtoFilter := .fieldFilter (some "home") 5 (some (.geoPointValue .zero .zero))
    translateFilter (.compositeFilter 1 [age, near]) =
        some (.ok (.composite [.field ⟨"age", .greaterThan, .integer 17⟩])) ∧
      translateFilter near = none ∧
      ¬ ((¬ Represented (.compositeFilter 1 [age, near])) →
        ∃ e, translateFilter (.compositeFilter 1 [age, near]) = some (.error e)) := by
  intro age near
  have hage : translateFilter age = some (.ok (.field ⟨"age", .greaterThan, .integer 17⟩)) := by
    rfl
  have hnear : translateFilter near = none := by rfl
  have hboth : translateFilter (.compositeFilter 1 [age, near]) =
      some (.ok (.composite [.field ⟨"age", .greaterThan, .integer 17⟩])) := by
    rw [translateFilter_composite, translateChildren, hage, translateChildren, hnear]
    rfl
  refine ⟨hboth, hnear, fun h => ?_⟩
  obtain ⟨e, he⟩ := h fun hrep => by
    rw [Represented, AllRepresented, AllRepresented] at hrep
    have hcomparison : near.comparison = none := rfl
    have hsome : near.comparison.isSome := hrep.2.2.1
    rw [hcomparison] at hsome
    cases hsome
  rw [hboth] at he
  cases he

end Embyr
