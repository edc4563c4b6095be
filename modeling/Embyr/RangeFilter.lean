import Embyr.FilterMeaning

/-!
# Range comparisons

A range filter casts the text of the stored payload to the target's type. The text
has lost the type tag, so a value of another kind either fails the whole query or is
compared as what its text looks like.

* `Scalar.order` — the order of a stored value relative to the target, for values of
  the target's kind; integers and doubles compare by their exact value.
* `selectRows` — the query over the rows of a collection; it evaluates the predicate
  on every row and fails when one of them does.
* `Scalar.Reads` — the stored values a target reads rightly.
* `range_filters_typed_iff` — the query selects the documents in range exactly when
  every stored value is read rightly.
-/

namespace Embyr

open Binary64 Sql Scalar

/-! ## The order a range filter asks for -/

/-- An integer and a double, by their exact values. -/
def integerDoubleCmp (i : Int64) : Double → Option Ordering
  | .nan => none
  | .inf negative => some (if negative then .gt else .lt)
  | .fin negative magnitude =>
    some (compare (Json.unitsOfInt i.toInt) (Double.signedUnits negative magnitude))

section Order

variable {base64 : Base64} (engine : Engine base64)

/-- The order of a stored value relative to a target of its kind. Texts and
references are ordered as the database orders texts. -/
def Scalar.order : Scalar → FieldValue → Option Ordering
  | .integer j, .integer i => some (compare i j)
  | .double e, .integer i => integerDoubleCmp i e
  | .integer j, .double d => (integerDoubleCmp j d).map Ordering.swap
  | .double e, .double d => d.partialCmp e
  | .boolean c, .boolean b => some (compare b c)
  | .string t, .string s => some (engine.collate s t)
  | .reference t, .reference r => some (engine.collate r t)
  | .bytes c, .bytes b => some (compare b c)
  | .timestamp secs nanos, .timestamp s n =>
    some ((compare s secs).then (compare n.toInt nanos.toInt))
  | _, _ => none

/-- The value stands in the relation to the target. -/
def Scalar.selects (op : RangeOp) (target : Scalar) (v : FieldValue) : Bool :=
  (target.order engine v).any op.holds

/-- `->>'v'` of a stored value. -/
def payloadText (v : FieldValue) : Option String :=
  (payloadOf base64 v).bind (Json.asText engine.render)

/-- The stored values a target reads rightly: those of its own kind, null and
timestamps, and of the others those whose text is cast to a value on the right side.
The database orders NaN above all numbers, so a NaN must not be selected by that. -/
def Scalar.Reads (op : RangeOp) (target : Scalar) (v : FieldValue) : Prop :=
  match target, v with
  | .timestamp _ _, _ | _, .null | _, .timestamp _ _ => True
  | .integer _, .integer _ | .boolean _, .boolean _ | .string _, .string _
  | .reference _, .reference _ | .bytes _, .bytes _ => True
  | .double e, .double d => d = .nan ∨ e = .nan → op.holds (databaseCmp d e) = false
  | target, v =>
    ∃ text, payloadText engine v = some text ∧
      castVerdict engine op target text = some (target.selects engine op v)

/-! ## One stored value -/

/-- What the comparison says of a stored value. -/
def valueVerdict (op : RangeOp) (target : Scalar) (v : FieldValue) :
    Except CastError (Option Bool) :=
  match target with
  | .timestamp secs nanos =>
    match v with
    | .timestamp s n => .ok (some (op.holds ((compare s secs).then (compare n.toInt nanos.toInt))))
    | _ => .ok none
  | target =>
    match payloadText engine v with
    | none => .ok none
    | some text =>
      match castVerdict engine op target text with
      | some verdict => .ok (some verdict)
      | none => .error .castError

/-- The comparison on a row depends on the stored value only. -/
theorem eval_compares (path : String) (op : RangeOp) (target : Scalar) (fields : Fields) :
    (SqlAtom.compares path op target).eval engine (fieldsToJson base64 fields) =
      match fields[path]? with
      | none => .ok none
      | some v => valueVerdict engine op target v := by
  have htext : textAt engine (fieldsToJson base64 fields) path "v" =
      fields[path]?.bind (payloadText engine) := by
    rw [textAt, get_fieldsToJson, Option.bind_map]
    cases fields[path]? with
    | none => rfl
    | some v => exact congrArg (Option.bind · _) (get_payload base64 v)
  cases target with
  | timestamp secs nanos =>
    rw [SqlAtom.eval, rowVerdict, get_fieldsToJson]
    cases fields[path]? with
    | none => rfl
    | some v =>
      cases v with
      | timestamp s n =>
        simp [get_secs, get_nanos, valueVerdict]
      | null | boolean | integer | double | string | bytes | reference | array | map =>
        rw [Option.map_some, fieldValueToJson]
        rfl
  | integer | string | double | boolean | bytes | reference =>
    simp only [SqlAtom.eval, htext, valueVerdict]
    cases fields[path]? <;> rfl

/-- A cast comparison is right when it does not fail and gives the expected answer. -/
theorem cast_right_iff {verdict : Option Bool} {expected : Bool} :
    (∃ w, (match verdict with
        | some b => Except.ok (some b)
        | none => Except.error CastError.castError) = .ok w ∧ (w = some true ↔ expected = true)) ↔
      verdict = some expected := by
  cases verdict with
  | none => simp
  | some b => cases b <;> cases expected <;> simp

/-- The text of a stored double is cast back to it. -/
theorem float8_payloadText (d : Double) :
    (payloadText engine (.double d)).bind engine.float8 = some d := by
  rcases d with _ | negative | _
  · exact engine.float8_nan
  · cases negative
    · exact engine.float8_inf false
    · exact engine.float8_inf true
  · exact engine.float8_render _ _

/-- Two doubles of which none is NaN are ordered as numbers. -/
theorem databaseCmp_of_partialCmp {d e : Double} {o : Ordering} (h : d.partialCmp e = some o) :
    databaseCmp d e = o := by
  cases d <;> cases e <;> simp_all [databaseCmp, Double.partialCmp]

/-- A NaN is in no order to any double, so it should not be selected. -/
theorem double_selects_iff (op : RangeOp) (d e : Double) :
    op.holds (databaseCmp d e) = (d.partialCmp e).any op.holds ↔
      (d = .nan ∨ e = .nan → op.holds (databaseCmp d e) = false) := by
  cases h : d.partialCmp e with
  | none =>
    have hnan : d = .nan ∨ e = .nan := by
      cases d <;> cases e <;> simp [Double.partialCmp] at h ⊢
    simp [hnan]
  | some o =>
    have hnan : ¬ (d = .nan ∨ e = .nan) := by
      rintro (rfl | rfl)
      · cases h
      · cases d <;> cases h
    simp [hnan, databaseCmp_of_partialCmp h]

theorem eq_null_or_timestamp {v : FieldValue} (h : payloadText engine v = none) :
    v = .null ∨ ∃ s n, v = .timestamp s n := by
  cases v with
  | null => exact .inl rfl
  | timestamp s n => exact .inr ⟨s, n, rfl⟩
  | double d => rcases d with _ | (_ | _) | _ <;> cases h
  | boolean | integer | string | bytes | reference | array | map => cases h

/-- A target that is not a timestamp compares the cast of a value's text; a value
without a text makes the comparison unknown. -/
theorem valueVerdict_cast_iff (op : RangeOp) {target : Scalar}
    (htarget : ∀ s n, target ≠ .timestamp s n)
    (hcast : ∀ v text, payloadText engine v = some text →
      (castVerdict engine op target text = some (target.selects engine op v) ↔
        target.Reads engine op v)) (v : FieldValue) :
    (∃ w, valueVerdict engine op target v = .ok w ∧
        (w = some true ↔ target.selects engine op v = true)) ↔ target.Reads engine op v := by
  cases target with
  | timestamp s n => exact absurd rfl (htarget s n)
  | integer | string | double | boolean | bytes | reference =>
    cases htext : payloadText engine v with
    | none =>
      rcases eq_null_or_timestamp engine htext with rfl | ⟨s, n, rfl⟩ <;>
        simp [valueVerdict, htext, selects, order, Scalar.Reads]
    | some text =>
      rw [← hcast v text htext, ← cast_right_iff]
      simp only [valueVerdict, htext]

/-- The comparison does not fail on the stored value and selects it when it should,
exactly when the target reads it rightly. -/
theorem valueVerdict_right_iff (op : RangeOp) (target : Scalar) (v : FieldValue) :
    (∃ w, valueVerdict engine op target v = .ok w ∧
        (w = some true ↔ target.selects engine op v = true)) ↔ target.Reads engine op v := by
  cases target with
  | timestamp =>
    cases v <;> simp [valueVerdict, selects, order, Scalar.Reads]
  | integer j =>
    refine valueVerdict_cast_iff engine op (by simp) (fun v text htext => ?_) v
    cases v with
    | null | timestamp => cases htext
    | integer i =>
      cases htext
      simp [castVerdict, engine.bigint_render, selects, order, Scalar.Reads]
    | double | boolean | string | bytes | reference | array | map => simp [Scalar.Reads, htext]
  | double e =>
    refine valueVerdict_cast_iff engine op (by simp) (fun v text htext => ?_) v
    cases v with
    | null | timestamp => cases htext
    | double d =>
      have hd : engine.float8 text = some d := by
        rw [← float8_payloadText engine d, htext, Option.bind_some]
      simp only [castVerdict, hd, Option.map_some, Option.some.injEq]
      exact double_selects_iff op d e
    | boolean | integer | string | bytes | reference | array | map => simp [Scalar.Reads, htext]
  | boolean c =>
    refine valueVerdict_cast_iff engine op (by simp) (fun v text htext => ?_) v
    cases v with
    | null | timestamp => cases htext
    | boolean b =>
      cases htext
      simp [castVerdict, engine.boolean_render, selects, order, Scalar.Reads]
    | double | integer | string | bytes | reference | array | map => simp [Scalar.Reads, htext]
  | bytes c =>
    refine valueVerdict_cast_iff engine op (by simp) (fun v text htext => ?_) v
    cases v with
    | null | timestamp => cases htext
    | bytes b =>
      cases htext
      simp [castVerdict, engine.decode_encode, selects, order, Scalar.Reads]
    | boolean | integer | double | string | reference | array | map => simp [Scalar.Reads, htext]
  | string t =>
    refine valueVerdict_cast_iff engine op (by simp) (fun v text htext => ?_) v
    cases v with
    | null | timestamp => cases htext
    | string s =>
      cases htext
      simp [castVerdict, selects, order, Scalar.Reads]
    | boolean | integer | double | bytes | reference | array | map => simp [Scalar.Reads, htext]
  | reference t =>
    refine valueVerdict_cast_iff engine op (by simp) (fun v text htext => ?_) v
    cases v with
    | null | timestamp => cases htext
    | reference r =>
      cases htext
      simp [castVerdict, selects, order, Scalar.Reads]
    | boolean | integer | double | string | bytes | array | map => simp [Scalar.Reads, htext]

end Order

/-! ## The query over a collection -/

section Query

variable {base64 : Base64} (engine : Engine base64)

/-- The documents a predicate selects; a row on which it fails makes the whole query
fail. -/
def selectRows (pred : FieldPredicate) : List Fields → Except CastError (List Fields)
  | [] => .ok []
  | doc :: docs => do
    let verdict ← pred.eval engine (fieldsToJson base64 doc)
    let rest ← selectRows pred docs
    return if verdict = some true then doc :: rest else rest

theorem holds_of_mem_selectRows {pred : FieldPredicate} {docs selected : List Fields}
    (h : selectRows engine pred docs = .ok selected) :
    ∀ doc ∈ selected, pred.Holds engine doc := by
  induction docs generalizing selected with
  | nil =>
    cases h
    simp
  | cons d docs ih =>
    obtain ⟨verdict, hverdict, h⟩ := bind_eq_ok h
    obtain ⟨rest, hrest, h⟩ := bind_eq_ok h
    cases h
    split
    · rename_i htrue
      refine List.forall_mem_cons.mpr ⟨?_, ih hrest⟩
      rw [FieldPredicate.Holds, hverdict, htrue]
    · exact ih hrest

/-- A query selects the documents with a property exactly when its predicate is right
about each of them. -/
theorem selectRows_eq_filter_iff {pred : FieldPredicate} {wanted : Fields → Bool}
    {docs : List Fields} :
    selectRows engine pred docs = .ok (docs.filter wanted) ↔
      ∀ doc ∈ docs, ∃ verdict, pred.eval engine (fieldsToJson base64 doc) = .ok verdict ∧
        (verdict = some true ↔ wanted doc = true) := by
  induction docs with
  | nil => simp [selectRows]
  | cons d docs ih =>
    rw [List.forall_mem_cons, ← ih]
    constructor
    · intro h
      obtain ⟨verdict, hverdict, h⟩ := bind_eq_ok h
      obtain ⟨rest, hrest, h⟩ := bind_eq_ok h
      have hlist := Except.ok.inj h
      -- a wrong answer about the first document would show among the selected ones
      by_cases hw : wanted d = true
      · rw [List.filter_cons_of_pos hw] at hlist
        have htrue : verdict = some true := by
          by_contra hfalse
          rw [if_neg hfalse] at hlist
          have hholds := holds_of_mem_selectRows engine hrest d (hlist ▸ List.mem_cons_self)
          exact hfalse (Except.ok.inj (hverdict.symm.trans hholds))
        rw [if_pos htrue, List.cons.injEq] at hlist
        exact ⟨⟨verdict, hverdict, iff_of_true htrue hw⟩, hrest.trans (congrArg _ hlist.2)⟩
      · rw [List.filter_cons_of_neg hw] at hlist
        have hfalse : verdict ≠ some true := fun htrue => by
          rw [if_pos htrue] at hlist
          exact hw (List.mem_filter.mp (hlist ▸ List.mem_cons_self : d ∈ docs.filter wanted)).2
        rw [if_neg hfalse] at hlist
        exact ⟨⟨verdict, hverdict, iff_of_false hfalse hw⟩, hrest.trans (congrArg _ hlist)⟩
    · rintro ⟨⟨verdict, hverdict, hiff⟩, hrest⟩
      rw [selectRows, hverdict, hrest]
      by_cases hw : wanted d = true
      · rw [List.filter_cons_of_pos hw, hiff.mpr hw]
        rfl
      · rw [List.filter_cons_of_neg hw]
        exact congrArg Except.ok (if_neg (mt hiff.mp hw))

/-! ## Range filters -/

def FilterOp.rangeOp : FilterOp → Option RangeOp
  | .lessThan => some .lt
  | .lessThanOrEqual => some .le
  | .greaterThan => some .gt
  | .greaterThanOrEqual => some .ge
  | _ => none

/-- What a range filter is meant to select: the field is present, of the target's
kind and in the relation to the target. -/
def FieldFilter.inRange (f : FieldFilter) (fields : Fields) : Bool :=
  match f.op.rangeOp, scalarOf f.value, fields[f.fieldPath]? with
  | some op, some target, some v => target.selects engine op v
  | _, _, _ => false

/-- The document has no such field, or a value that the target reads rightly. -/
def FieldFilter.ReadsRightly (f : FieldFilter) (fields : Fields) : Prop :=
  match f.op.rangeOp, scalarOf f.value, fields[f.fieldPath]? with
  | some op, some target, some v => target.Reads engine op v
  | _, _, _ => True

/-- The predicate is right about a document exactly when the target reads the stored
value rightly. -/
theorem compares_right_iff {f : FieldFilter} {op : RangeOp} {target : Scalar}
    (hop : f.op.rangeOp = some op) (htarget : scalarOf f.value = some target) (fields : Fields) :
    (∃ verdict, (SqlAtom.compares f.fieldPath op target).eval engine (fieldsToJson base64 fields) =
        .ok verdict ∧ (verdict = some true ↔ f.inRange engine fields = true)) ↔
      f.ReadsRightly engine fields := by
  rw [eval_compares, FieldFilter.inRange, FieldFilter.ReadsRightly, hop, htarget]
  cases fields[f.fieldPath]? with
  | none => simp
  | some v => exact valueVerdict_right_iff engine op target v

theorem exists_rangeOp {f : FieldFilter} {target : Scalar} (hop : f.op.isRange = true)
    (htarget : scalarOf f.value = some target) :
    ∃ op, f.op.rangeOp = some op ∧
      fieldPredicate f = some (.atom (.compares f.fieldPath op target)) := by
  obtain ⟨path, op, value⟩ := f
  cases op with
  | lessThan => exact ⟨.lt, rfl, congrArg (Option.map _) htarget⟩
  | lessThanOrEqual => exact ⟨.le, rfl, congrArg (Option.map _) htarget⟩
  | greaterThan => exact ⟨.gt, rfl, congrArg (Option.map _) htarget⟩
  | greaterThanOrEqual => exact ⟨.ge, rfl, congrArg (Option.map _) htarget⟩
  | equal | notEqual | isIn | notIn | arrayContains | arrayContainsAny | isNan | isNotNan | isNull
  | isNotNull => cases hop

/-- A range query over a collection succeeds with the documents in range exactly when
the target reads the value of every document rightly. -/
theorem range_filters_typed_iff (f : FieldFilter) (hop : f.op.isRange = true)
    (hvalid : isValidFieldPath f.fieldPath = true) (hshape : shapeError f.op f.value = none) :
    ∃ pushes pred, appendFieldFilter base64 f = some pushes ∧ fieldPredicate f = some pred ∧
      (∀ bound, lex (sqlText bound pushes) = pred.tokens base64 bound) ∧
      binds pushes = pred.binds base64 ∧
      ∀ docs : List Fields,
        selectRows engine pred docs = .ok (docs.filter (f.inRange engine)) ↔
          ∀ doc ∈ docs, f.ReadsRightly engine doc := by
  obtain ⟨pushes, pred, hpushes, hpred, hwrites⟩ := writes_fieldFilter base64 hvalid hshape
  refine ⟨pushes, pred, hpushes, hpred, hwrites.lex_eq, hwrites.binds, fun docs => ?_⟩
  obtain ⟨target, -, htarget⟩ := exists_scalar hop hshape
  obtain ⟨op, hrange, hcompares⟩ := exists_rangeOp hop htarget
  cases hpred.symm.trans hcompares
  rw [selectRows_eq_filter_iff]
  exact forall₂_congr fun doc _ => compares_right_iff engine hrange htarget doc

end Query

/-! ### Values of another kind -/

/-- A document with the one field `age`. -/
def aged (v : FieldValue) : Fields := Std.ExtTreeMap.ofList [("age", v)]

theorem getElem?_aged (v : FieldValue) : (aged v)["age"]? = some v :=
  Std.ExtTreeMap.getElem?_ofList_of_mem (by decide) (by simp) List.mem_cons_self

/-- One document with a word in the field fails the query `age > 5` for the whole
collection, and the string `42` is selected as if it were a number. -/
theorem range_filter_untyped :
    let f : FieldFilter := ⟨"age", .greaterThan, .integer 5⟩
    ∃ pred, fieldPredicate f = some pred ∧
      selectRows textEngine pred [aged (.integer 7), aged (.string "old")] = .error .castError ∧
      selectRows textEngine pred [aged (.string "42")] = .ok [aged (.string "42")] ∧
      f.inRange textEngine (aged (.string "42")) = false := by
  intro f
  have heval (v : FieldValue) : (SqlAtom.compares "age" .gt (.integer 5)).eval textEngine
      (fieldsToJson byteText (aged v)) = valueVerdict textEngine .gt (.integer 5) v := by
    rw [eval_compares, getElem?_aged]
  refine ⟨.atom (.compares "age" .gt (.integer 5)), rfl, ?_, ?_, ?_⟩
  · simp only [selectRows, FieldPredicate.eval, heval]
    rfl
  · simp only [selectRows, FieldPredicate.eval, heval]
    rfl
  · simp only [FieldFilter.inRange, f, getElem?_aged]
    rfl

/-- Over integers and documents without the field the query is exact. -/
theorem range_filters_typed_iff_integers :
    let f : FieldFilter := ⟨"age", .greaterThan, .integer 5⟩
    ∃ pushes pred, appendFieldFilter byteText f = some pushes ∧ fieldPredicate f = some pred ∧
      selectRows textEngine pred [aged (.integer 7), ∅, aged (.integer 3)] =
        .ok ([aged (.integer 7), ∅, aged (.integer 3)].filter (f.inRange textEngine)) := by
  intro f
  obtain ⟨pushes, pred, hpushes, hpred, -, -, hexact⟩ :=
    range_filters_typed_iff textEngine f rfl (by decide) rfl
  refine ⟨pushes, pred, hpushes, hpred, (hexact _).mpr ?_⟩
  simp [FieldFilter.ReadsRightly, f, getElem?_aged, FilterOp.rangeOp, scalarOf, Scalar.Reads]

end Embyr
