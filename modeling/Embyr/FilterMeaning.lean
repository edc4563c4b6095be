import Embyr.FilterPredicate

/-!
# What the predicates of a filter select

The predicates of `append_field_filter` on a row whose `fields` column holds the
stored form of a document, with the three-valued logic of SQL for a missing key.

* `Engine` — what the database does with texts: the text of a JSON value, the casts,
  the order of texts. It carries the laws that relate them to the stored forms.
* `SqlAtom.eval`, `FieldPredicate.eval`, `FieldPredicate.Holds` — a predicate on a
  row; a failing cast is an error.
* `equality_filters_exact` — equality, membership and null tests select exactly the
  documents they name.
* `textEngine` — a concrete database, for concrete documents.
-/

namespace Embyr

open Binary64 Sql FieldPredicate

/-! ## The database -/

/-- Texts and casts of the database; `none` is the error of a cast. -/
structure Engine (base64 : Base64) where
  /-- the text of a JSON value that is not a string -/
  render : Json → String
  bigint : String → Option Int64
  float8 : String → Option Double
  boolean : String → Option Bool
  decodeBase64 : String → Option (List UInt8)
  /-- the order of texts -/
  collate : String → String → Ordering
  bigint_render (i : Int64) : bigint (render (.int i.toInt)) = some i
  boolean_render (b : Bool) : boolean (render (.bool b)) = some b
  float8_render (n : Bool) (m : Magnitude) : float8 (render (.float n m)) = some (.fin n m)
  float8_nan : float8 "NaN" = some .nan
  float8_inf (negative : Bool) : float8 (if negative then "-Inf" else "Inf") = some (.inf negative)
  decode_encode (b : List UInt8) : decodeBase64 (base64.encode b) = some b
  render_ne_nan (j : Json) : render j ≠ "NaN"

/-- A cast was applied to a text of the wrong form. -/
inductive CastError where
  | castError
  deriving DecidableEq

/-- The order of doubles in the database: NaN is equal to itself and above
everything else. -/
def databaseCmp : Double → Double → Ordering
  | .nan, .nan => .eq
  | .nan, _ => .gt
  | _, .nan => .lt
  | x, y => (x.partialCmp y).getD .eq

def RangeOp.holds : RangeOp → Ordering → Bool
  | .lt, o => o == .lt
  | .le, o => o != .gt
  | .gt, o => o == .gt
  | .ge, o => o != .lt

section Evaluation

variable {base64 : Base64} (engine : Engine base64)

/-- `row->'path'->>'key'`. -/
def textAt (row : Json) (path key : String) : Option String :=
  ((row.get path).bind (Json.get key)).bind (Json.asText engine.render)

/-- A comparison of a text cast to the target's type; `none` is a failed cast. -/
def castVerdict (op : RangeOp) (target : Scalar) (text : String) : Option Bool :=
  match target with
  | .integer v => (engine.bigint text).map fun i => op.holds (compare i v)
  | .double d => (engine.float8 text).map fun e => op.holds (databaseCmp e d)
  | .boolean b => (engine.boolean text).map fun c => op.holds (compare c b)
  | .bytes b => (engine.decodeBase64 text).map fun c => op.holds (compare c b)
  | .string s | .reference s => some (op.holds (engine.collate text s))
  | .timestamp _ _ => none

/-- `ROW((row->'path'->'s')::bigint, (row->'path'->'n')::int) op ROW(secs, nanos)`;
a missing key makes the comparison unknown. -/
def rowVerdict (row : Json) (path : String) (op : RangeOp) (secs : Int64) (nanos : Int32) :
    Except CastError (Option Bool) :=
  match (row.get path).bind (Json.get "s"), (row.get path).bind (Json.get "n") with
  | some s, some n =>
    match s.asInt64, n.asInt64 with
    | some s, some n => .ok (some (op.holds ((compare s secs).then (compare n.toInt nanos.toInt))))
    | _, _ => .error .castError
  | _, _ => .ok none

/-- An atom on a row. -/
def SqlAtom.eval (row : Json) : SqlAtom → Except CastError (Option Bool)
  | .falsity => .ok (some false)
  | .isNull path negate => .ok (some ((row.get path).isNone != negate))
  | .valueEq path negate target =>
    .ok ((row.get path).map fun j => j.eqv (fieldValueToJson base64 target) != negate)
  | .textEq path key negate constant =>
    .ok ((textAt engine row path key).map fun text => (text == constant) != negate)
  | .contains path target =>
    .ok (((row.get path).bind (Json.get "v")).map fun j =>
      j.contains (.arr [fieldValueToJson base64 target]))
  | .compares path op (.timestamp secs nanos) => rowVerdict row path op secs nanos
  | .compares path op target =>
    match textAt engine row path "v" with
    | none => .ok none
    | some text =>
      match castVerdict engine op target text with
      | some verdict => .ok (some verdict)
      | none => .error .castError

/-- A field's predicate on a row. -/
def FieldPredicate.eval (row : Json) : FieldPredicate → Except CastError (Option Bool)
  | .atom a => a.eval engine row
  | .any atoms => (atoms.mapM (SqlAtom.eval engine row)).map anyOf
  | .all atoms => (atoms.mapM (SqlAtom.eval engine row)).map allOf

/-- The predicate is true of a document's row. -/
def FieldPredicate.Holds (pred : FieldPredicate) (fields : Fields) : Prop :=
  pred.eval engine (fieldsToJson base64 fields) = .ok (some true)

end Evaluation

/-! ## Rows -/

section Rows

variable (base64 : Base64)

theorem entriesToJson_eq_map (entries : List (String × FieldValue)) :
    entriesToJson base64 entries = entries.map fun e => (e.1, fieldValueToJson base64 e.2) := by
  induction entries with
  | nil => rfl
  | cons e entries ih => rw [entriesToJson, ih]; rfl

/-- A key of the row is a field of the document. -/
@[simp] theorem get_fieldsToJson (fields : Fields) (path : String) :
    (fieldsToJson base64 fields).get path = fields[path]?.map (fieldValueToJson base64) := by
  rw [fieldsToJson, Json.get, entriesToJson_eq_map]
  have hsorted : Json.SortedKeys (fields.toList.map fun e => (e.1, fieldValueToJson base64 e.2)) := by
    refine List.pairwise_map.mpr (Std.ExtTreeMap.ordered_keys_toList.imp fun h => ?_)
    exact compare_lt_iff_lt.mp h
  cases hp : fields[path]? with
  | some v =>
    refine Json.lookup_of_mem hsorted (List.mem_map.mpr ⟨(path, v), ?_, rfl⟩)
    exact Std.ExtTreeMap.mem_toList_iff_getElem?_eq_some.mpr hp
  | none =>
    refine List.lookup_eq_none_iff.mpr fun e he => ?_
    obtain ⟨⟨k, v⟩, hmem, rfl⟩ := List.mem_map.mp he
    have hk := Std.ExtTreeMap.mem_toList_iff_getElem?_eq_some.mp hmem
    rw [bne_iff_ne]
    rintro rfl
    rw [hp] at hk
    cases hk

end Rows

/-! ## Equality, membership and null tests -/

/-- The operators that compare whole stored values or test for null. -/
def FilterOp.comparesWhole : FilterOp → Bool
  | .equal | .notEqual | .isIn | .notIn | .isNull | .isNotNull => true
  | _ => false

/-- What such a filter is meant to select: the field is present and its value is
equal to the target, different from it, among the targets, none of them, null or
not null. -/
def FieldFilter.SelectsWhole (f : FieldFilter) (fields : Fields) : Prop :=
  ∃ v, fields[f.fieldPath]? = some v ∧
    match f.op, f.value with
    | .equal, target => v.eqv target = true
    | .notEqual, target => v.eqv target = false
    | .isIn, .array targets => ∃ target ∈ targets, v.eqv target = true
    | .notIn, .array targets => ∀ target ∈ targets, v.eqv target = false
    | .isNull, _ => v = .null
    | .isNotNull, _ => v ≠ .null
    | _, _ => False

section Whole

variable {base64 : Base64} (engine : Engine base64) (fields : Fields)

/-- Atoms that cast nothing are evaluated in turn. -/
theorem mapM_eval_eq {α : Type} {row : Json} {mk : α → SqlAtom} {verdict : α → Option Bool}
    {items : List α} (h : ∀ a ∈ items, (mk a).eval engine row = .ok (verdict a)) :
    (items.map mk).mapM (SqlAtom.eval engine row) = .ok (items.map verdict) := by
  induction items with
  | nil => rfl
  | cons a items ih =>
    rw [List.map_cons, List.mapM_cons, h a List.mem_cons_self,
      ih (List.forall_mem_cons.mp h).2]
    rfl

/-- Comparing whole stored objects is comparing values. -/
theorem eval_valueEq (path : String) (negate : Bool) {target : FieldValue} (h : target.NoNan) :
    (SqlAtom.valueEq path negate target).eval engine (fieldsToJson base64 fields) =
      .ok (fields[path]?.map fun v => v.eqv target != negate) := by
  rw [SqlAtom.eval, get_fieldsToJson, Option.map_map]
  congr 2
  funext v
  exact congrArg (· != negate) (eqv_fieldValueToJson base64 v target h)

/-- The type tag of a stored value is `N` exactly for null. -/
theorem textAt_tag (path : String) :
    (textAt engine (fieldsToJson base64 fields) path "t").map (· == "N") =
      fields[path]?.map fun v => decide (v = .null) := by
  rw [textAt, get_fieldsToJson]
  cases fields[path]? with
  | none => rfl
  | some v => cases v <;> simp [fieldValueToJson, tagged, Json.get, Json.asText, List.lookup]

theorem noNanItems_iff {items : List FieldValue} :
    FieldValue.NoNanItems items ↔ ∀ v ∈ items, v.NoNan := by
  induction items with
  | nil => simp [FieldValue.NoNanItems]
  | cons v items ih => simp [FieldValue.NoNanItems, ih]

variable {mk : FieldValue → SqlAtom} {verdict : FieldValue → FieldValue → Bool}
  {targets : List FieldValue}

theorem holds_any_iff (path : String)
    (h : ∀ t ∈ targets, (mk t).eval engine (fieldsToJson base64 fields) = .ok (fields[path]?.map fun v => verdict v t)) :
    (any (targets.map mk)).Holds engine fields ↔
      ∃ v, fields[path]? = some v ∧ ∃ t ∈ targets, verdict v t = true := by
  rw [FieldPredicate.Holds, eval, mapM_eval_eq engine h]
  simp only [Except.map, Except.ok.injEq, anyOf_eq_true, List.mem_map, Option.map_eq_some_iff]
  constructor
  · rintro ⟨t, ht, v, hv, hverdict⟩
    exact ⟨v, hv, t, ht, hverdict⟩
  · rintro ⟨v, hv, t, ht, hverdict⟩
    exact ⟨t, ht, v, hv, hverdict⟩

theorem holds_all_iff (path : String) (hne : targets ≠ [])
    (h : ∀ t ∈ targets, (mk t).eval engine (fieldsToJson base64 fields) = .ok (fields[path]?.map fun v => verdict v t)) :
    (all (targets.map mk)).Holds engine fields ↔
      ∃ v, fields[path]? = some v ∧ ∀ t ∈ targets, verdict v t = true := by
  rw [FieldPredicate.Holds, eval, mapM_eval_eq engine h]
  simp only [Except.map, Except.ok.injEq, allOf_eq_true, List.forall_mem_map]
  obtain ⟨t, ht⟩ := List.exists_mem_of_ne_nil _ hne
  constructor
  · intro hall
    obtain ⟨v, hv, -⟩ := Option.map_eq_some_iff.mp (hall t ht)
    refine ⟨v, hv, fun u hu => ?_⟩
    have hu := hall u hu
    rwa [hv, Option.map_some, Option.some.injEq] at hu
  · rintro ⟨v, hv, hall⟩ u hu
    rw [hv, Option.map_some, hall u hu]

/-- The predicate of such a filter is true of exactly the documents it is meant to
select. -/
theorem holds_iff_selectsWhole {f : FieldFilter} {pred : FieldPredicate}
    (hpred : fieldPredicate f = some pred) (hop : f.op.comparesWhole = true)
    (hnan : f.value.NoNan) : pred.Holds engine fields ↔ f.SelectsWhole fields := by
  obtain ⟨path, op, value⟩ := f
  cases op with
  | equal =>
    cases hpred
    rw [FieldPredicate.Holds, eval, eval_valueEq engine fields path false hnan]
    simp [FieldFilter.SelectsWhole, Option.map_eq_some_iff]
  | notEqual =>
    cases hpred
    rw [FieldPredicate.Holds, eval, eval_valueEq engine fields path true hnan]
    simp [FieldFilter.SelectsWhole, Option.map_eq_some_iff]
  | isIn =>
    cases value with
    | array targets =>
      have hitems := noNanItems_iff.mp hnan
      cases targets with
      | nil =>
        cases hpred
        simp [FieldPredicate.Holds, eval, SqlAtom.eval, FieldFilter.SelectsWhole]
      | cons t targets =>
        cases hpred
        rw [holds_any_iff engine fields path fun t ht =>
          eval_valueEq engine fields path false (hitems t ht)]
        simp [FieldFilter.SelectsWhole]
    | null | map | boolean | integer | double | timestamp | string | bytes | reference => cases hpred
  | notIn =>
    cases value with
    | array targets =>
      have hitems := noNanItems_iff.mp hnan
      cases targets with
      | nil =>
        cases hpred
        cases hp : fields[path]? <;>
          simp [FieldPredicate.Holds, eval, SqlAtom.eval, FieldFilter.SelectsWhole, hp]
      | cons t targets =>
        cases hpred
        rw [holds_all_iff engine fields path (by simp) fun t ht =>
          eval_valueEq engine fields path true (hitems t ht)]
        simp [FieldFilter.SelectsWhole]
    | null | map | boolean | integer | double | timestamp | string | bytes | reference => cases hpred
  | isNull =>
    cases hpred
    have htag := textAt_tag engine fields path
    rw [FieldPredicate.Holds, eval, SqlAtom.eval]
    simp only [Bool.bne_false, htag]
    simp [FieldFilter.SelectsWhole, Option.map_eq_some_iff]
  | isNotNull =>
    cases hpred
    have htag := congrArg (Option.map (! ·)) (textAt_tag engine fields path)
    simp only [Option.map_map, Function.comp_def] at htag
    have hlist : [SqlAtom.isNull path true, .textEq path "t" true "N"].mapM
        (SqlAtom.eval engine (fieldsToJson base64 fields)) =
        .ok [some (((fieldsToJson base64 fields).get path).isNone != true),
          (textAt engine (fieldsToJson base64 fields) path "t").map fun x => (x == "N") != true] := rfl
    rw [FieldPredicate.Holds, eval, hlist]
    simp only [Except.map, Except.ok.injEq, allOf_eq_true, List.forall_mem_cons,
      List.not_mem_nil, false_imp_iff, implies_true, and_true, Bool.bne_true, htag]
    cases hp : fields[path]? <;> simp [FieldFilter.SelectsWhole, hp]
  | lessThan | lessThanOrEqual | greaterThan | greaterThanOrEqual | arrayContains | arrayContainsAny
  | isNan | isNotNan => cases hop

/-- Equality and membership filters are exact: what is written for the filter is
true of a document's row exactly when the field is present and its value is what the
filter asks for. -/
theorem equality_filters_exact (f : FieldFilter) (hop : f.op.comparesWhole = true)
    (hvalid : isValidFieldPath f.fieldPath = true) (hshape : shapeError f.op f.value = none)
    (hnan : f.value.NoNan) :
    ∃ pushes pred, appendFieldFilter base64 f = some pushes ∧ fieldPredicate f = some pred ∧
      (∀ bound, lex (sqlText bound pushes) = pred.tokens base64 bound) ∧
      binds pushes = pred.binds base64 ∧
      ∀ fields, pred.Holds engine fields ↔ f.SelectsWhole fields := by
  obtain ⟨pushes, pred, hpushes, hpred, hwrites⟩ := writes_fieldFilter base64 hvalid hshape
  exact ⟨pushes, pred, hpushes, hpred, hwrites.lex_eq, hwrites.binds, fun fields =>
    holds_iff_selectsWhole engine fields hpred hop hnan⟩

end Whole

/-! ### A concrete database -/

/-- A finite double of a count of units, if there is one. -/
def doubleOfUnits (negative : Bool) (units : ℕ) : Option Double :=
  if h : units < 2 ^ 2098 ∧ 2 ^ (Nat.log 2 units - 52) ∣ units then
    some (.fin negative ⟨units, h⟩)
  else none

/-- The number a text of digits stands for. -/
def readDigits (text : List Char) : Option ℕ :=
  if text ≠ [] ∧ text.all (·.isDigit) then some (Nat.ofDigitChars 10 text 0) else none

theorem readDigits_toDigits (n : ℕ) : readDigits (Nat.toDigits 10 n) = some n := by
  have hdigits : (Nat.toDigits 10 n).all (·.isDigit) = true :=
    List.all_eq_true.mpr fun c hc => Nat.isDigit_of_mem_toDigits (by norm_num) (by norm_num) hc
  rw [readDigits, if_pos ⟨Nat.toDigits_ne_nil, hdigits⟩,
    Nat.ofDigitChars_toDigits (by norm_num) (by norm_num)]

/-- A signed decimal number. -/
def readInt (text : List Char) : Option ℤ :=
  if text.head? = some '-' then (readDigits text.tail).map fun (n : ℕ) => -(n : ℤ)
  else (readDigits text).map Int.ofNat

def writeInt (i : ℤ) : List Char :=
  if i < 0 then '-' :: Nat.toDigits 10 i.natAbs else Nat.toDigits 10 i.natAbs

theorem readInt_writeInt (i : ℤ) : readInt (writeInt i) = some i := by
  rw [writeInt]
  split_ifs with hneg
  · rw [readInt, if_pos List.head?_cons, List.tail_cons, readDigits_toDigits, Option.map_some,
      Int.ofNat_natAbs_of_nonpos hneg.le, neg_neg]
  · have hhead : (Nat.toDigits 10 i.natAbs).head? ≠ some '-' := fun h => by
      have hdigit := Nat.isDigit_of_mem_toDigits (b := 10) (n := i.natAbs) (by norm_num)
        (by norm_num) (List.mem_of_mem_head? h)
      exact absurd hdigit (by decide)
    rw [readInt, if_neg hhead, readDigits_toDigits, Option.map_some]
    congr 1
    exact Int.natAbs_of_nonneg (by omega)

/-- The text of a finite double: its sign and its count of units. -/
def writeUnits (negative : Bool) (units : ℕ) : List Char :=
  (if negative then '~' else '+') :: Nat.toDigits 10 units

/-- The reading of `writeUnits` and of the three names. -/
def readDouble (text : List Char) : Option Double :=
  match text with
  | '~' :: digits => (readDigits digits).bind (doubleOfUnits true)
  | '+' :: digits => (readDigits digits).bind (doubleOfUnits false)
  | ['N', 'a', 'N'] => some .nan
  | ['I', 'n', 'f'] => some (.inf false)
  | ['-', 'I', 'n', 'f'] => some (.inf true)
  | _ => none

/-- Texts with the laws, for concrete documents: integers are written in decimal, a
finite double as its sign and its count of units. -/
def textEngine : Engine byteText where
  render
    | .int i => String.ofList (writeInt i)
    | .bool b => if b then "true" else "false"
    | .float negative magnitude => String.ofList (writeUnits negative magnitude.units)
    | _ => "composite"
  bigint text := (readInt text.toList).bind fun i => (Json.int i).asInt64
  float8 text := readDouble text.toList
  boolean text := if text = "true" then some true else if text = "false" then some false else none
  decodeBase64 := byteText.decode
  collate := compare
  bigint_render i := by simp [readInt_writeInt]
  boolean_render b := by cases b <;> rfl
  float8_render negative magnitude := by
    have hfin : doubleOfUnits negative magnitude.units = some (.fin negative magnitude) :=
      dif_pos magnitude.representable
    cases negative <;> simp [writeUnits, readDouble, readDigits_toDigits, hfin]
  float8_nan := rfl
  float8_inf negative := by cases negative <;> rfl
  decode_encode := byteText.decode_encode
  render_ne_nan j := by
    cases j with
    | int i =>
      intro h
      have hread := congrArg (fun s => readInt s.toList) h
      simp only [String.toList_ofList, readInt_writeInt] at hread
      cases hread
    | bool b => cases b <;> decide
    | float negative magnitude =>
      intro h
      have hfirst := congrArg (fun s => s.toList.head?) h
      cases negative <;> simp [writeUnits] at hfirst
    | null | str | arr | obj =>
      show "composite" ≠ "NaN"
      decide

/-- Asking for any of two names: a document with the second is selected, one without
the field is not. -/
theorem equality_filters_exact_names :
    let f : FieldFilter := ⟨"name", .isIn, .array [.string "Ada", .string "Bob"]⟩
    let bob : Fields := Std.ExtTreeMap.ofList [("name", FieldValue.string "Bob")]
    ∃ pushes pred, appendFieldFilter byteText f = some pushes ∧ fieldPredicate f = some pred ∧
      (pred.Holds textEngine bob ↔ f.SelectsWhole bob) ∧
      (pred.Holds textEngine ∅ ↔ f.SelectsWhole ∅) := by
  intro f bob
  obtain ⟨pushes, pred, hpushes, hpred, -, -, hexact⟩ :=
    equality_filters_exact textEngine f rfl (by decide) rfl ⟨trivial, trivial, trivial⟩
  exact ⟨pushes, pred, hpushes, hpred, hexact _, hexact _⟩

end Embyr
