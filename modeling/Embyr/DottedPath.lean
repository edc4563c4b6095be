import Embyr.FieldMask
import Embyr.FilterMeaning

/-!
# Dotted field paths

A field path with dots is meant to name a field of a map inside the document. The
SQL of filters, of ORDER BY and of SUM and AVG reads `fields->'path'`, and a
transform reads and stores under the path itself: each takes the whole path for the
name of one top-level field.

* `ReachesNested` — filters, order, sums and transforms on a path are about the value
  found by following its keys.
* `reachesNested_iff` — they are exactly when the path has no dot.
-/

namespace Embyr

open Binary64 FieldTransform

/-! ## What a path is read for -/

section Reads

variable {base64 : Base64} (engine : Engine base64)

/-- `order_by_expr`: the text a row is ordered by. -/
def orderByKey (row : Json) (path : String) : Option String := textAt engine row path "v"

/-- What SUM and AVG take from a row: nothing unless the tag is `I` or `D`. -/
def aggregateTerm (row : Json) (path : String) : Except CastError (Option Double) :=
  if textAt engine row path "t" ∈ [some "I", some "D"] then
    match textAt engine row path "v" with
    | none => .ok none
    | some text =>
      match engine.float8 text with
      | some d => .ok (some d)
      | none => .error .castError
  else .ok none

theorem textAt_congr {row row' : Json} {path : String} (h : row.get path = row'.get path)
    (key : String) : textAt engine row path key = textAt engine row' path key := by
  rw [textAt, textAt, h]

/-- What is written for a filter looks at its own field only. -/
theorem eval_congr {f : FieldFilter} {pred : FieldPredicate} {row row' : Json}
    (hpred : fieldPredicate f = some pred) (h : row.get f.fieldPath = row'.get f.fieldPath) :
    pred.eval engine row = pred.eval engine row' := by
  have htext := textAt_congr engine h
  have hcompares : ∀ op target, (SqlAtom.compares f.fieldPath op target).eval engine row =
      (SqlAtom.compares f.fieldPath op target).eval engine row' := by
    intro op target
    cases target <;> simp [SqlAtom.eval, rowVerdict, h, htext]
  unfold fieldPredicate at hpred
  dsimp only at hpred
  split at hpred <;> first
    | obtain ⟨target, -, rfl⟩ := Option.map_eq_some_iff.mp hpred
      exact hcompares _ target
    | cases hpred <;>
        simp [FieldPredicate.eval, SqlAtom.eval, List.mapM_map, Function.comp_def, h, htext]

end Reads

/-! ## Nested values -/

/-- The document that has the nested value of the path in a field of that name. -/
def Fields.promote (fields : Fields) (path : String) : Fields :=
  match fields.at (keysOf path) with
  | some v => (∅ : Fields).insert path v
  | none => ∅

@[simp] theorem getElem?_promote (fields : Fields) (path : String) :
    (fields.promote path)[path]? = fields.at (keysOf path) := by
  rw [Fields.promote]
  cases fields.at (keysOf path) <;> simp

/-- Whatever is asked of a path is about the value found by following its keys: it is
answered as for a document with that value in a plain field, and a transform changes
that value in this way and nothing beside it. -/
structure ReachesNested (fields : Fields) (path : String) : Prop where
  filter : ∀ (base64 : Base64) (engine : Engine base64) (f : FieldFilter) pred,
    f.fieldPath = path → fieldPredicate f = some pred →
    pred.eval engine (fieldsToJson base64 fields) =
      pred.eval engine (fieldsToJson base64 (fields.promote path))
  orderBy : ∀ (base64 : Base64) (engine : Engine base64),
    orderByKey engine (fieldsToJson base64 fields) path =
      orderByKey engine (fieldsToJson base64 (fields.promote path)) path
  aggregate : ∀ (base64 : Base64) (engine : Engine base64),
    aggregateTerm engine (fieldsToJson base64 fields) path =
      aggregateTerm engine (fieldsToJson base64 (fields.promote path)) path
  transform : ∀ (t : FieldTransform) now, t.fieldPath = path →
    (applyFieldTransform fields t now).map (fun r => (r.1.at (keysOf path), r.2)) =
      (applyFieldTransform (fields.promote path) t now).map fun r => (r.1[path]?, r.2)
  frame : ∀ (t : FieldTransform) now fields' value, t.fieldPath = path →
    applyFieldTransform fields t now = .ok (fields', value) →
    ∀ key keys, Uncovered [path] (key :: keys) → fields'.at (key :: keys) = fields.at (key :: keys)

theorem Fields.at_singleton (fields : Fields) (path : String) : fields.at [path] = fields[path]? := by
  simp [Fields.at, FieldValue.at]

/-- A transform looks at its own field only. -/
theorem applyFieldTransform_congr {fields fields' : Fields} {t : FieldTransform} (now : Timestamp)
    (h : fields[t.fieldPath]? = fields'[t.fieldPath]?) :
    (applyFieldTransform fields t now).map (fun r => (r.1[t.fieldPath]?, r.2)) =
      (applyFieldTransform fields' t now).map fun r => (r.1[t.fieldPath]?, r.2) := by
  have hstore : ∀ p computed, (storeComputed fields p computed).map (fun r => (r.1[p]?, r.2)) =
      (storeComputed fields' p computed).map fun r => (r.1[p]?, r.2) := by
    intro p computed
    cases computed <;> simp [storeComputed, Except.map]
  cases t with
  | serverTimestamp p | increment p delta | maximum p given | minimum p given =>
    rw [fieldPath] at h
    simp only [applyFieldTransform, fieldPath, h]
    exact hstore p _
  | appendMissingElements p values =>
    rw [fieldPath] at h
    simp only [applyFieldTransform, fieldPath, appendMissingElements, h]
    split <;> simp [Except.map]
  | removeAllFromArray p values =>
    rw [fieldPath] at h
    simp only [applyFieldTransform, fieldPath, removeAllFromArray, h]
    split <;> simp_all [Except.map]

/-- A path without dots names a top-level field, and everything is about that field. -/
theorem reachesNested_of_no_dot (fields : Fields) {path : String} (h : '.' ∉ path.toList) :
    ReachesNested fields path := by
  have hkeys := keysOf_of_no_dot h
  have hfield : fields[path]? = (fields.promote path)[path]? := by
    rw [getElem?_promote, hkeys, Fields.at_singleton]
  have hrow : ∀ base64, (fieldsToJson base64 fields).get path =
      (fieldsToJson base64 (fields.promote path)).get path := by
    intro base64
    rw [get_fieldsToJson, get_fieldsToJson, hfield]
  refine ⟨?_, ?_, ?_, ?_, ?_⟩
  · rintro base64 engine f pred rfl hpred
    exact eval_congr engine hpred (hrow base64)
  · intro base64 engine
    exact textAt_congr engine (hrow base64) "v"
  · intro base64 engine
    simp only [aggregateTerm, textAt_congr engine (hrow base64)]
  · rintro t now rfl
    simp only [hkeys, Fields.at_singleton]
    exact applyFieldTransform_congr now hfield
  · rintro t now fields' value rfl hok key keys huncovered
    refine Fields.at_congr (applyFieldTransform_frame hok ?_) keys
    rintro rfl
    exact (huncovered _ (List.mem_singleton.mpr rfl)).1 (by simp [hkeys])

/-- A server timestamp is stored in the field that has the whole path as its name. -/
theorem not_reachesNested_of_dot (fields : Fields) {path : String} (hdot : '.' ∈ path.toList) :
    ¬ ReachesNested fields path := by
  intro h
  obtain ⟨now, hnow⟩ : ∃ now : Timestamp, fields[path]? ≠ some now.toValue := by
    by_cases h0 : fields[path]? = some (Timestamp.toValue ⟨0, 0⟩)
    · exact ⟨⟨1, 0⟩, by rw [h0]; decide⟩
    · exact ⟨⟨0, 0⟩, h0⟩
  have hframe := h.frame (.serverTimestamp path) now _ _ rfl rfl path [] (uncovered_of_dot hdot _)
  rw [Fields.at_singleton, Fields.at_singleton, Std.ExtTreeMap.getElem?_insert_self] at hframe
  exact hnow hframe.symm

end Embyr
