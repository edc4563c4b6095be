import Embyr.FilterMeaning

/-!
# Array and NaN tests

`array-contains` is written with the containment operator of the database, which is
weaker than equality on nested values, and the NaN test compares a text that has lost
its type.

* `FieldValue.covers`, `contains_fieldValueToJson` — containment of stored forms, as
  a relation of values: a map covers the maps with some of its entries, an array the
  arrays whose elements it covers.
* `covers_of_eqv` — a value covers what it is equal to.
* `array_nan_filters_exact_iff` — the documents on which the tests are exact.
-/

namespace Embyr

open Binary64 Sql FieldPredicate

namespace FieldValue

mutual

/-- The stored form of `x` contains the stored form of `y`. -/
def covers (x : FieldValue) : FieldValue → Bool
  | .array ys =>
    match x with
    | .array xs => coversItems xs ys
    | _ => false
  | .map ys =>
    match x with
    | .map xs => coversEntries xs ys
    | _ => false
  -- two NaNs have the same stored form
  | .double .nan =>
    match x with
    | .double .nan => true
    | _ => false
  | y => x.eqv y

def coversItems (xs : List FieldValue) : List FieldValue → Bool
  | [] => true
  | y :: ys => xs.any (fun x => covers x y) && coversItems xs ys

def coversEntries (xs : List (String × FieldValue)) : List (String × FieldValue) → Bool
  | [] => true
  | (k, y) :: ys => (xs.lookup k).any (fun x => covers x y) && coversEntries xs ys

end

end FieldValue

open FieldValue

/-! ## Containment of stored forms -/

section Containment

variable (base64 : Base64)

theorem itemsToJson_eq_map (items : List FieldValue) :
    itemsToJson base64 items = items.map (fieldValueToJson base64) := by
  induction items with
  | nil => rfl
  | cons item items ih => rw [itemsToJson, ih]; rfl

theorem lookup_entriesToJson (entries : List (String × FieldValue)) (key : String) :
    (entriesToJson base64 entries).lookup key =
      (entries.lookup key).map (fieldValueToJson base64) := by
  induction entries with
  | nil => rfl
  | cons e entries ih =>
    obtain ⟨k, v⟩ := e
    rw [entriesToJson, List.lookup_cons, List.lookup_cons, ih]
    cases key == k <;> rfl

/-- A stored value contains an object when it has the object's keys, with values that
contain the object's. -/
theorem contains_obj (x : FieldValue) (ys : List (String × Json)) :
    (fieldValueToJson base64 x).contains (.obj ys) =
      ys.all fun e => ((fieldValueToJson base64 x).get e.1).any (·.contains e.2) := by
  obtain ⟨entries, hentries⟩ : ∃ entries, fieldValueToJson base64 x = .obj entries := by
    cases x <;> (rw [fieldValueToJson]; exact ⟨_, rfl⟩)
  rw [hentries, Json.contains]
  induction ys with
  | nil => rfl
  | cons e ys ih =>
    obtain ⟨k, y⟩ := e
    rw [Json.containsEntries, List.all_cons, ih]
    rfl

theorem contains_tagged (x : FieldValue) (tag : String) (payload : Json) :
    (fieldValueToJson base64 x).contains (tagged tag payload) =
      (x.tag == tag && (payloadOf base64 x).any (·.contains payload)) := by
  rw [tagged, contains_obj]
  simp [get_tag, get_payload, Json.contains]

theorem contains_doublePayload (e d : Double) :
    (doublePayload e).contains (doublePayload d) =
      (FieldValue.double e).covers (.double d) := by
  rcases d with _ | (_ | _) | _ <;> rcases e with _ | (_ | _) | _ <;>
    simp [doublePayload, Json.contains, covers, FieldValue.eqv, eqvWith,
      Double.feq, Double.partialCmp, Bool.beq_eq_decide_eq]

mutual

/-- Containment of stored forms is `covers`. -/
theorem contains_fieldValueToJson :
    ∀ y x : FieldValue, (fieldValueToJson base64 x).contains (fieldValueToJson base64 y) = x.covers y
  | .null, x => by
    rw [fieldValueToJson, contains_obj]
    cases x <;>
      simp [get_tag, tag, Json.contains, covers, FieldValue.eqv,
        eqvWith]
  | .boolean b, x => by
    rw [fieldValueToJson, contains_tagged]
    cases x <;>
      simp [tag, payloadOf, Json.contains, covers, FieldValue.eqv,
        eqvWith]
  | .integer i, x => by
    rw [fieldValueToJson, contains_tagged]
    cases x <;>
      simp [tag, payloadOf, Json.contains, covers, FieldValue.eqv,
        eqvWith, Int64.toInt_inj]
  | .double d, x => by
    rw [fieldValueToJson, contains_tagged]
    cases x with
    | double e => simp [tag, payloadOf, contains_doublePayload]
    | null | boolean | integer | string | bytes | reference | timestamp | array | map =>
      rcases d with _ | _ | _ <;>
        simp [tag, covers, FieldValue.eqv, eqvWith]
  | .string t, x => by
    rw [fieldValueToJson, contains_tagged]
    cases x <;>
      simp [tag, payloadOf, Json.contains, covers, FieldValue.eqv,
        eqvWith]
  | .bytes b, x => by
    rw [fieldValueToJson, contains_tagged]
    cases x <;>
      simp [tag, payloadOf, Json.contains, covers, FieldValue.eqv,
        eqvWith, encode_inj]
  | .reference r, x => by
    rw [fieldValueToJson, contains_tagged]
    cases x <;>
      simp [tag, payloadOf, Json.contains, covers, FieldValue.eqv,
        eqvWith]
  | .timestamp secs nanos, x => by
    rw [fieldValueToJson, contains_obj]
    cases x with
    | timestamp s n =>
      simp [get_tag, get_secs, get_nanos, tag, Json.contains, covers,
        FieldValue.eqv, eqvWith, Bool.beq_eq_decide_eq, Int64.toInt_inj, Int32.toInt_inj,
        Bool.and_comm]
    | null | boolean | integer | double | string | bytes | reference | array | map =>
      simp [get_tag, tag, Json.contains, covers, FieldValue.eqv,
        eqvWith]
  | .array ys, x => by
    rw [fieldValueToJson, contains_tagged]
    cases x <;> simp [tag, payloadOf, Json.contains, covers]
    exact containsItems_itemsToJson ys _
  | .map ys, x => by
    rw [fieldValueToJson, contains_tagged]
    cases x <;> simp [tag, payloadOf, Json.contains, covers]
    exact containsEntries_entriesToJson ys _

theorem containsItems_itemsToJson :
    ∀ ys xs : List FieldValue,
      Json.containsItems (itemsToJson base64 xs) (itemsToJson base64 ys) =
        coversItems xs ys
  | [], xs => rfl
  | y :: ys, xs => by
    rw [itemsToJson.eq_def base64 (y :: ys)]
    simp only [Json.containsItems, coversItems, containsItems_itemsToJson ys xs]
    rw [itemsToJson_eq_map, List.any_map]
    congr 2
    funext x
    exact contains_fieldValueToJson y x

theorem containsEntries_entriesToJson :
    ∀ ys xs : List (String × FieldValue),
      Json.containsEntries (entriesToJson base64 xs) (entriesToJson base64 ys) =
        coversEntries xs ys
  | [], xs => rfl
  | (k, y) :: ys, xs => by
    rw [entriesToJson.eq_def base64 ((k, y) :: ys)]
    simp only [Json.containsEntries, coversEntries, containsEntries_entriesToJson ys xs,
      lookup_entriesToJson, Option.any_map]
    congr 2
    funext x
    exact contains_fieldValueToJson y x

end

end Containment

/-! ## A value covers what it is equal to -/

theorem coversItems_iff {xs ys : List FieldValue} :
    coversItems xs ys = true ↔ ∀ y ∈ ys, ∃ x ∈ xs, x.covers y = true := by
  induction ys with
  | nil => simp [coversItems]
  | cons y ys ih => simp [coversItems, ih]

theorem coversEntries_iff {xs ys : List (String × FieldValue)} :
    coversEntries xs ys = true ↔
      ∀ e ∈ ys, ∃ x, xs.lookup e.1 = some x ∧ x.covers e.2 = true := by
  induction ys with
  | nil => simp [coversEntries]
  | cons e ys ih =>
    obtain ⟨k, y⟩ := e
    rw [coversEntries, Bool.and_eq_true, ih, List.forall_mem_cons, Option.any_eq_true]

theorem orderedItems_iff {items : List FieldValue} :
    OrderedItems items ↔ ∀ v ∈ items, v.Ordered := by
  induction items with
  | nil => simp [OrderedItems]
  | cons v items ih => simp [OrderedItems, ih]

mutual

theorem covers_of_eqv :
    ∀ y x : FieldValue, x.Ordered → eqvWith Double.feq x y = true → x.covers y = true
  | .null, _, _, h | .boolean _, _, _, h | .integer _, _, _, h | .string _, _, _, h
  | .bytes _, _, _, h | .reference _, _, _, h | .timestamp _ _, _, _, h => h
  | .double d, x, _, h => by
    rcases d with _ | _ | _
    · cases x with
      | double e => cases e <;> simp [eqvWith, Double.feq, Double.partialCmp] at h
      | null | boolean | integer | string | bytes | reference | timestamp | array | map =>
        simp [eqvWith] at h
    · exact h
    · exact h
  | .array ys, x, hx, h => by
    cases x with
    | array xs => exact coversItems_iff.mpr (covered_of_eqvItems ys xs hx h)
    | null | boolean | integer | double | string | bytes | reference | timestamp | map =>
      simp [eqvWith] at h
  | .map ys, x, hx, h => by
    cases x with
    | map xs =>
      refine coversEntries_iff.mpr fun e he => ?_
      obtain ⟨x, hmem, hcovers⟩ := covered_of_eqvEntries ys xs hx.2 h e he
      exact ⟨x, Json.lookup_of_mem hx.1 hmem, hcovers⟩
    | null | boolean | integer | double | string | bytes | reference | timestamp | array =>
      simp [eqvWith] at h

theorem covered_of_eqvItems :
    ∀ ys xs : List FieldValue, OrderedItems xs →
      eqvItems Double.feq xs ys = true → ∀ y ∈ ys, ∃ x ∈ xs, x.covers y = true
  | [], _, _, _ => by simp
  | y :: ys, [], _, h => by simp [eqvItems] at h
  | y :: ys, x :: xs, hx, h => by
    rw [eqvItems, Bool.and_eq_true] at h
    refine List.forall_mem_cons.mpr ⟨⟨x, List.mem_cons_self, covers_of_eqv y x hx.1 h.1⟩, ?_⟩
    intro z hz
    obtain ⟨x', hx', hcovers⟩ := covered_of_eqvItems ys xs hx.2 h.2 z hz
    exact ⟨x', List.mem_cons_of_mem _ hx', hcovers⟩

theorem covered_of_eqvEntries :
    ∀ ys xs : List (String × FieldValue), OrderedEntries xs →
      eqvEntries Double.feq xs ys = true →
      ∀ e ∈ ys, ∃ x, (e.1, x) ∈ xs ∧ x.covers e.2 = true
  | [], _, _, _ => by simp
  | (k, y) :: ys, [], _, h => by simp [eqvEntries] at h
  | (k, y) :: ys, (l, x) :: xs, hx, h => by
    rw [eqvEntries, Bool.and_eq_true, Bool.and_eq_true, beq_iff_eq] at h
    obtain ⟨⟨rfl, heq⟩, hrest⟩ := h
    refine List.forall_mem_cons.mpr ⟨⟨x, List.mem_cons_self, covers_of_eqv y x hx.1 heq⟩, ?_⟩
    intro e he
    obtain ⟨x', hx', hcovers⟩ := covered_of_eqvEntries ys xs hx.2 hrest e he
    exact ⟨x', List.mem_cons_of_mem _ hx', hcovers⟩

end

/-! ## When the tests are exact -/

/-- The operators that look into an array, and the NaN test. -/
def FilterOp.looksInside : FilterOp → Bool
  | .arrayContains | .arrayContainsAny | .isNan => true
  | _ => false

/-- What such a filter is meant to select: an array with an element equal to the
target, or to one of the targets; the double NaN. -/
def FieldFilter.SelectsElement (f : FieldFilter) (fields : Fields) : Prop :=
  ∃ v, fields[f.fieldPath]? = some v ∧
    match f.op, f.value, v with
    | .arrayContains, target, .array items => ∃ item ∈ items, item.eqv target = true
    | .arrayContainsAny, .array targets, .array items =>
      ∃ target ∈ targets, ∃ item ∈ items, item.eqv target = true
    | .isNan, _, v => v = .double .nan
    | _, _, _ => False

/-- The field cannot mislead the test: an element that covers the target stands beside
one equal to it; a text `NaN` is not that of a string, a reference or bytes. -/
def FieldFilter.NotMisled (base64 : Base64) (f : FieldFilter) (fields : Fields) : Prop :=
  ∀ v, fields[f.fieldPath]? = some v →
    match f.op, f.value, v with
    | .arrayContains, target, .array items =>
      (∃ item ∈ items, item.covers target = true) → ∃ item ∈ items, item.eqv target = true
    | .arrayContainsAny, .array targets, .array items =>
      (∃ target ∈ targets, ∃ item ∈ items, item.covers target = true) →
        ∃ target ∈ targets, ∃ item ∈ items, item.eqv target = true
    | .isNan, _, .string s => s ≠ "NaN"
    | .isNan, _, .reference r => r ≠ "NaN"
    | .isNan, _, .bytes b => base64.encode b ≠ "NaN"
    | _, _, _ => True

section Exactness

variable {base64 : Base64} (engine : Engine base64) {fields : Fields}

/-- What the containment atom says of a row. -/
theorem eval_contains (path : String) (target : FieldValue) :
    (SqlAtom.contains path target).eval engine (fieldsToJson base64 fields) =
      .ok ((fields[path]?.bind (payloadOf base64)).map fun j =>
        j.contains (.arr [fieldValueToJson base64 target])) := by
  rw [SqlAtom.eval, get_fieldsToJson, Option.bind_map]
  congr 3
  funext v
  exact get_payload base64 v

/-- It is true of the arrays with an element that covers the target. -/
theorem contains_eq_true_iff (path : String) (target : FieldValue) :
    ((fields[path]?.bind (payloadOf base64)).map fun j =>
        j.contains (.arr [fieldValueToJson base64 target])) = some true ↔
      ∃ items, fields[path]? = some (.array items) ∧ ∃ item ∈ items, item.covers target = true := by
  cases fields[path]? with
  | none => simp
  | some v =>
    cases v with
    | array items =>
      have hitems := containsItems_itemsToJson base64 [target] items
      rw [itemsToJson, itemsToJson] at hitems
      simp [payloadOf, Json.contains, hitems, coversItems_iff]
    | double d => rcases d with _ | (_ | _) | _ <;> simp [payloadOf, doublePayload, Json.contains]
    | null | boolean | integer | string | bytes | reference | timestamp | map =>
      simp [payloadOf, Json.contains]

/-- The values whose text is that of NaN. -/
theorem payload_text_eq_nan_iff (v : FieldValue) :
    (payloadOf base64 v).bind (Json.asText engine.render) = some "NaN" ↔
      v = .double .nan ∨ v = .string "NaN" ∨ v = .reference "NaN" ∨
        ∃ b, v = .bytes b ∧ base64.encode b = "NaN" := by
  cases v with
  | double d =>
    rcases d with _ | (_ | _) | _ <;>
      simp [payloadOf, doublePayload, Json.asText, engine.render_ne_nan]
  | null | boolean | integer | string | bytes | reference | timestamp | array | map =>
    simp [payloadOf, Json.asText, engine.render_ne_nan]

theorem holds_isNan_iff (path : String) :
    (atom (.textEq path "v" false "NaN")).Holds engine fields ↔
      ∃ v, fields[path]? = some v ∧ (v = .double .nan ∨ v = .string "NaN" ∨ v = .reference "NaN" ∨
        ∃ b, v = .bytes b ∧ base64.encode b = "NaN") := by
  rw [FieldPredicate.Holds, eval, SqlAtom.eval, textAt, get_fieldsToJson]
  cases fields[path]? with
  | none => simp
  | some v =>
    simp [get_payload, ← payload_text_eq_nan_iff engine, Option.bind_eq_some_iff,
      Option.map_eq_some_iff]

/-- A test that selects at least what it should is right when it selects nothing
else. -/
theorem iff_iff_imp_of_imp {holds selects : Prop} (h : selects → holds) :
    (holds ↔ selects) ↔ (holds → selects) :=
  ⟨Iff.mp, fun hright => ⟨hright, h⟩⟩

theorem holds_arrayContains_iff {path : String} {target : FieldValue} :
    (atom (.contains path target)).Holds engine fields ↔
      ∃ items, fields[path]? = some (.array items) ∧ ∃ item ∈ items, item.covers target = true := by
  rw [FieldPredicate.Holds, eval, eval_contains, Except.ok.injEq,
    contains_eq_true_iff]

theorem holds_arrayContainsAny_iff {path : String} {targets : List FieldValue} :
    (any (targets.map (.contains path))).Holds engine fields ↔
      ∃ items, fields[path]? = some (.array items) ∧
        ∃ target ∈ targets, ∃ item ∈ items, item.covers target = true := by
  rw [FieldPredicate.Holds, eval,
    mapM_eval_eq engine fun target _ => eval_contains engine path target]
  simp only [Except.map, Except.ok.injEq, anyOf_eq_true, List.mem_map, contains_eq_true_iff]
  constructor
  · rintro ⟨target, ht, items, hitems, hcovers⟩
    exact ⟨items, hitems, target, ht, hcovers⟩
  · rintro ⟨items, hitems, target, ht, hcovers⟩
    exact ⟨target, ht, items, hitems, hcovers⟩

/-- An element equal to the target covers it. -/
theorem exists_covers_of_exists_eqv {items : List FieldValue} {target : FieldValue}
    (hordered : (FieldValue.array items).Ordered) (h : ∃ item ∈ items, item.eqv target = true) :
    ∃ item ∈ items, item.covers target = true := by
  obtain ⟨item, hitem, heq⟩ := h
  exact ⟨item, hitem, covers_of_eqv target item (orderedItems_iff.mp hordered item hitem) heq⟩

/-- The predicate of such a filter is right about a document exactly when the
document's field does not mislead it. -/
theorem holds_selects_iff {f : FieldFilter} {pred : FieldPredicate}
    (hpred : fieldPredicate f = some pred) (hop : f.op.looksInside = true)
    (hordered : ∀ v, fields[f.fieldPath]? = some v → v.Ordered) :
    (pred.Holds engine fields ↔ f.SelectsElement fields) ↔ f.NotMisled base64 fields := by
  obtain ⟨path, op, value⟩ := f
  cases op with
  | arrayContains =>
    cases hpred
    rw [holds_arrayContains_iff]
    cases hp : fields[path]? with
    | none => simp [FieldFilter.SelectsElement, FieldFilter.NotMisled, hp]
    | some v =>
      cases v with
      | array items =>
        simp only [FieldFilter.SelectsElement, FieldFilter.NotMisled, hp, Option.some.injEq,
          FieldValue.array.injEq, exists_eq_left', forall_eq']
        exact iff_iff_imp_of_imp (exists_covers_of_exists_eqv (hordered _ hp))
      | null | boolean | integer | double | string | bytes | reference | timestamp | map =>
        simp [FieldFilter.SelectsElement, FieldFilter.NotMisled, hp]
  | arrayContainsAny =>
    cases value with
    | array targets =>
      have hany : pred.Holds engine fields ↔ ∃ items, fields[path]? = some (.array items) ∧
          ∃ target ∈ targets, ∃ item ∈ items, item.covers target = true := by
        cases targets with
        | nil =>
          cases hpred
          simp [FieldPredicate.Holds, eval, SqlAtom.eval]
        | cons target targets =>
          cases hpred
          exact holds_arrayContainsAny_iff engine
      rw [hany]
      cases hp : fields[path]? with
      | none => simp [FieldFilter.SelectsElement, FieldFilter.NotMisled, hp]
      | some v =>
        cases v with
        | array items =>
          simp only [FieldFilter.SelectsElement, FieldFilter.NotMisled, hp, Option.some.injEq,
            FieldValue.array.injEq, exists_eq_left', forall_eq']
          refine iff_iff_imp_of_imp ?_
          rintro ⟨target, ht, heq⟩
          exact ⟨target, ht, exists_covers_of_exists_eqv (hordered _ hp) heq⟩
        | null | boolean | integer | double | string | bytes | reference | timestamp | map =>
          simp [FieldFilter.SelectsElement, FieldFilter.NotMisled, hp]
    | null | boolean | integer | double | string | bytes | reference | timestamp | map => cases hpred
  | isNan =>
    cases hpred
    rw [holds_isNan_iff]
    cases hp : fields[path]? with
    | none => simp [FieldFilter.SelectsElement, FieldFilter.NotMisled, hp]
    | some v => cases v <;> simp [FieldFilter.SelectsElement, FieldFilter.NotMisled, hp]
  | lessThan | lessThanOrEqual | greaterThan | greaterThanOrEqual | equal | notEqual | isIn | notIn
  | isNull | isNotNull | isNotNan => cases hop

/-- What is written for such a filter is right about a document exactly when the
document's field does not mislead it. -/
theorem array_nan_filters_exact_iff (f : FieldFilter) (hop : f.op.looksInside = true)
    (hvalid : isValidFieldPath f.fieldPath = true) (hshape : shapeError f.op f.value = none) :
    ∃ pushes pred, appendFieldFilter base64 f = some pushes ∧ fieldPredicate f = some pred ∧
      (∀ bound, lex (sqlText bound pushes) = pred.tokens base64 bound) ∧
      binds pushes = pred.binds base64 ∧
      ∀ fields : Fields, (∀ v, fields[f.fieldPath]? = some v → v.Ordered) →
        ((pred.Holds engine fields ↔ f.SelectsElement fields) ↔ f.NotMisled base64 fields) := by
  obtain ⟨pushes, pred, hpushes, hpred, hwrites⟩ := writes_fieldFilter base64 hvalid hshape
  exact ⟨pushes, pred, hpushes, hpred, hwrites.lex_eq, hwrites.binds, fun fields hordered =>
    holds_selects_iff engine hpred hop hordered⟩

end Exactness

/-! ### Documents that mislead the tests -/

/-- An array of one map with the keys `a` and `b`, and a text. -/
def misleading : Fields :=
  Std.ExtTreeMap.ofList
    [("tags", FieldValue.array [.map [("a", .integer 1), ("b", .integer 2)]]),
      ("note", FieldValue.string "NaN")]

/-- Asking for an element `{a: 1}` selects an array whose only element is
`{a: 1, b: 2}`, and asking for NaN selects the string `NaN`. -/
theorem array_nan_filters_select_more :
    let inTags : FieldFilter := ⟨"tags", .arrayContains, .map [("a", .integer 1)]⟩
    let isNan : FieldFilter := ⟨"note", .isNan, .null⟩
    (∃ pred, fieldPredicate inTags = some pred ∧ pred.Holds textEngine misleading ∧
        ¬ inTags.SelectsElement misleading) ∧
      ∃ pred, fieldPredicate isNan = some pred ∧ pred.Holds textEngine misleading ∧
        ¬ isNan.SelectsElement misleading := by
  intro inTags isNan
  have htags : misleading["tags"]? =
      some (.array [.map [("a", .integer 1), ("b", .integer 2)]]) :=
    Std.ExtTreeMap.getElem?_ofList_of_mem (by decide) (by decide) List.mem_cons_self
  have hnote : misleading["note"]? = some (.string "NaN") :=
    Std.ExtTreeMap.getElem?_ofList_of_mem (by decide) (by decide) (List.mem_cons_of_mem _ List.mem_cons_self)
  refine ⟨⟨_, rfl, ?_, ?_⟩, ⟨_, rfl, ?_, ?_⟩⟩
  · exact (holds_arrayContains_iff textEngine).mpr ⟨_, htags, _, List.mem_singleton_self _, by decide⟩
  · rintro ⟨v, hv, hmatch⟩
    cases htags.symm.trans hv
    obtain ⟨item, hitem, heq⟩ := hmatch
    cases List.mem_singleton.mp hitem
    exact absurd heq (by decide)
  · exact (holds_isNan_iff textEngine "note").mpr ⟨_, hnote, .inr (.inl rfl)⟩
  · rintro ⟨v, hv, hmatch⟩
    cases hnote.symm.trans hv
    cases hmatch

/-- A search for the element 1 is right about a document without the field. -/
theorem array_nan_filters_exact_iff_absent :
    let f : FieldFilter := ⟨"tags", .arrayContains, .integer 1⟩
    ∃ pushes pred, appendFieldFilter byteText f = some pushes ∧ fieldPredicate f = some pred ∧
      (pred.Holds textEngine ∅ ↔ f.SelectsElement ∅) := by
  intro f
  obtain ⟨pushes, pred, hpushes, hpred, -, -, hexact⟩ :=
    array_nan_filters_exact_iff textEngine f rfl (by decide) rfl
  refine ⟨pushes, pred, hpushes, hpred, (hexact ∅ ?_).mpr ?_⟩
  · intro v hv
    simp at hv
  · intro v hv
    simp at hv

end Embyr
