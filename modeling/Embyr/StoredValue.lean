import Embyr.FieldValue
import Embyr.Lib.Json

/-!
# The stored form of a value

A field value is stored as a JSON object with a type tag
(`encoding/field_value.rs`): `{"t": "S", "v": "Ada"}`. Doubles that JSON cannot
write are the strings `NaN`, `Inf` and `-Inf`, bytes are base64 text, a timestamp
has its seconds and nanoseconds under keys of their own.

* `fieldValueToJson`, `jsonToFieldValue` and, for a document, `fieldsToJson`,
  `jsonToFields` — the codec. Base64 is a parameter that carries its law.
* `jsonToFieldValue_fieldValueToJson` — decoding gives the value back.
* `eqv_fieldValueToJson` — two stored objects are equal as JSON exactly when the
  values are equal, as soon as one of them has no NaN in it.
-/

namespace Embyr

open Binary64 Std.ExtTreeMap

/-- Standard base64: decoding inverts encoding. -/
structure Base64 where
  encode : List UInt8 → String
  decode : String → Option (List UInt8)
  decode_encode (b : List UInt8) : decode (encode b) = some b

/-- An object with a type tag and a payload. -/
def tagged (tag : String) (payload : Json) : Json := .obj [("t", .str tag), ("v", payload)]

/-! ## The encoder -/

/-- The payload of a double: JSON has no NaN and no infinities. -/
def doublePayload : Double → Json
  | .nan => .str "NaN"
  | .inf negative => .str (if negative then "-Inf" else "Inf")
  | .fin negative magnitude => .float negative magnitude

section Codec

variable (base64 : Base64)

mutual

def fieldValueToJson : FieldValue → Json
  | .null => .obj [("t", .str "N")]
  | .boolean b => tagged "B" (.bool b)
  | .integer i => tagged "I" (.int i.toInt)
  | .double d => tagged "D" (doublePayload d)
  | .string s => tagged "S" (.str s)
  | .bytes b => tagged "BY" (.str (base64.encode b))
  | .reference r => tagged "R" (.str r)
  -- the object is an ordered map, so the keys are listed in their order
  | .timestamp s n => .obj [("n", .int n.toInt), ("s", .int s.toInt), ("t", .str "TS")]
  | .array items => tagged "A" (.arr (itemsToJson items))
  | .map entries => tagged "M" (.obj (entriesToJson entries))

def itemsToJson : List FieldValue → List Json
  | [] => []
  | item :: items => fieldValueToJson item :: itemsToJson items

def entriesToJson : List (String × FieldValue) → List (String × Json)
  | [] => []
  | (k, v) :: entries => (k, fieldValueToJson v) :: entriesToJson entries

end

/-- The type tag of a stored value. -/
def FieldValue.tag : FieldValue → String
  | .null => "N"
  | .boolean _ => "B"
  | .integer _ => "I"
  | .double _ => "D"
  | .string _ => "S"
  | .bytes _ => "BY"
  | .reference _ => "R"
  | .timestamp _ _ => "TS"
  | .array _ => "A"
  | .map _ => "M"

/-- What stands under `v` in the stored form. -/
def payloadOf : FieldValue → Option Json
  | .null | .timestamp _ _ => none
  | .boolean b => some (.bool b)
  | .integer i => some (.int i.toInt)
  | .double d => some (doublePayload d)
  | .string s => some (.str s)
  | .bytes b => some (.str (base64.encode b))
  | .reference r => some (.str r)
  | .array items => some (.arr (itemsToJson base64 items))
  | .map entries => some (.obj (entriesToJson base64 entries))

theorem get_tag (x : FieldValue) : (fieldValueToJson base64 x).get "t" = some (.str x.tag) := by
  cases x <;> (rw [fieldValueToJson]; rfl)

theorem get_payload (x : FieldValue) :
    (fieldValueToJson base64 x).get "v" = payloadOf base64 x := by
  cases x <;> (rw [fieldValueToJson]; rfl)

theorem get_secs (s : Int64) (n : Int32) :
    (fieldValueToJson base64 (.timestamp s n)).get "s" = some (.int s.toInt) := by
  rw [fieldValueToJson]
  rfl

theorem get_nanos (s : Int64) (n : Int32) :
    (fieldValueToJson base64 (.timestamp s n)).get "n" = some (.int n.toInt) := by
  rw [fieldValueToJson]
  rfl

/-- A document's fields as one object of tagged values. -/
def fieldsToJson (fields : Fields) : Json := .obj (entriesToJson base64 fields.toList)

/-! ## The decoder -/

theorem sizeOf_get_lt {v w : Json} {key : String} (h : v.get key = some w) :
    sizeOf w < sizeOf v := by
  cases v with
  | obj entries =>
    obtain ⟨before, after, rfl, -⟩ := List.lookup_eq_some_iff.mp h
    have hmem : (key, w) ∈ before ++ (key, w) :: after := by simp
    have hlt := List.sizeOf_lt_of_mem hmem
    simp only [Prod.mk.sizeOf_spec] at hlt
    simp only [Json.obj.sizeOf_spec]
    omega
  | null | bool | int | float | str | arr => simp [Json.get] at h

/-- The double a payload stands for. -/
def payloadDouble (payload : Json) : Option Double :=
  match payload.asStr with
  | some "NaN" => some .nan
  | some "Inf" => some (.inf false)
  | some "-Inf" => some (.inf true)
  | some _ => none
  | none => payload.asDouble

mutual

/-- `json_to_field_value`: `none` when the value has not the stored form. -/
def jsonToFieldValue (v : Json) : Option FieldValue :=
  match (v.get "t").bind Json.asStr with
  | some "N" => some .null
  | some "B" => ((v.get "v").bind Json.asBool).map .boolean
  | some "I" => ((v.get "v").bind Json.asInt64).map .integer
  | some "D" => ((v.get "v").bind payloadDouble).map .double
  | some "S" => ((v.get "v").bind Json.asStr).map .string
  | some "R" => ((v.get "v").bind Json.asStr).map .reference
  | some "BY" => (((v.get "v").bind Json.asStr).bind base64.decode).map .bytes
  | some "TS" => do
    let s ← (v.get "s").bind Json.asInt64
    let n ← (v.get "n").bind Json.asInt64
    return .timestamp s n.toInt32
  | some "A" =>
    match _h : v.get "v" with
    | some (.arr items) => (jsonToItems items).map .array
    | _ => none
  | some "M" =>
    match _h : v.get "v" with
    | some (.obj entries) => (jsonToEntries [] entries).map .map
    | _ => none
  | _ => none
termination_by sizeOf v
decreasing_by
  · have := sizeOf_get_lt _h
    simp only [Json.arr.sizeOf_spec] at this
    omega
  · have := sizeOf_get_lt _h
    simp only [Json.obj.sizeOf_spec] at this
    omega

def jsonToItems : List Json → Option (List FieldValue)
  | [] => some []
  | item :: items => do
    let x ← jsonToFieldValue item
    let xs ← jsonToItems items
    return x :: xs
termination_by items => sizeOf items

/-- The loop that fills the map of a `"M"` value. -/
def jsonToEntries (map : List (String × FieldValue)) :
    List (String × Json) → Option (List (String × FieldValue))
  | [] => some map
  | (k, val) :: entries => do
    let x ← jsonToFieldValue val
    jsonToEntries (Json.insertEntry k x map) entries
termination_by entries => sizeOf entries

end

/-- `json_to_fields`. -/
def jsonToFields (v : Json) : Option Fields :=
  match v with
  | .obj entries => entries.foldlM (fun (fields : Fields) (e : String × Json) => do
      let x ← jsonToFieldValue base64 e.2
      return fields.insert e.1 x) ∅
  | _ => none

end Codec

/-! ## Decoding inverts encoding -/

namespace FieldValue

mutual

/-- The entries of every map in the value are in key order, as a `BTreeMap`'s
are. -/
def Ordered : FieldValue → Prop
  | .array items => OrderedItems items
  | .map entries => Json.SortedKeys entries ∧ OrderedEntries entries
  | _ => True

def OrderedItems : List FieldValue → Prop
  | [] => True
  | item :: items => item.Ordered ∧ OrderedItems items

def OrderedEntries : List (String × FieldValue) → Prop
  | [] => True
  | (_, v) :: entries => v.Ordered ∧ OrderedEntries entries

end

end FieldValue

section RoundTrip

variable (base64 : Base64)

@[simp] theorem get_tag_tagged (tag : String) (payload : Json) :
    (tagged tag payload).get "t" = some (.str tag) := rfl

@[simp] theorem get_payload_tagged (tag : String) (payload : Json) :
    (tagged tag payload).get "v" = some payload := rfl

theorem jsonToFieldValue_array (items : List Json) :
    jsonToFieldValue base64 (tagged "A" (.arr items)) = (jsonToItems base64 items).map .array := by
  rw [jsonToFieldValue]
  simp [Json.asStr]

theorem jsonToFieldValue_map (entries : List (String × Json)) :
    jsonToFieldValue base64 (tagged "M" (.obj entries)) =
      (jsonToEntries base64 [] entries).map .map := by
  rw [jsonToFieldValue]
  simp [Json.asStr]

@[simp] theorem asInt64_int64 (i : Int64) : (Json.int i.toInt).asInt64 = some i := by
  have hrange : -2 ^ 63 ≤ i.toInt ∧ i.toInt < 2 ^ 63 := ⟨i.le_toInt, i.toInt_lt⟩
  rw [Json.asInt64, if_pos hrange, Int64.ofInt_toInt]

@[simp] theorem asInt64_int32 (n : Int32) : (Json.int n.toInt).asInt64 = some n.toInt64 := by
  rw [← Int32.toInt_toInt64, asInt64_int64]

@[simp] theorem payloadDouble_doublePayload (d : Double) :
    payloadDouble (doublePayload d) = some d := by
  rcases d with _ | (_ | _) | _ <;> rfl

mutual

theorem jsonToFieldValue_fieldValueToJson :
    ∀ v : FieldValue, v.Ordered → jsonToFieldValue base64 (fieldValueToJson base64 v) = some v
  | .null, _ => by
    rw [jsonToFieldValue]
    simp [fieldValueToJson, Json.asStr, Json.get]
  | .boolean _, _ | .integer _, _ | .double _, _ | .string _, _ | .reference _, _ => by
    rw [jsonToFieldValue]
    simp [fieldValueToJson, Json.asStr, Json.asBool]
  | .bytes b, _ => by
    rw [jsonToFieldValue]
    simp [fieldValueToJson, Json.asStr, base64.decode_encode]
  | .timestamp s n, _ => by
    rw [jsonToFieldValue]
    simp [get_tag, FieldValue.tag, get_secs, get_nanos, Json.asStr]
  | .array items, h => by
    rw [fieldValueToJson, jsonToFieldValue_array, jsonToItems_itemsToJson items h]
    rfl
  | .map entries, h => by
    rw [fieldValueToJson, jsonToFieldValue_map, jsonToEntries_entriesToJson entries h.2,
      Json.foldl_insertEntry (by simpa using h.1)]
    rfl

theorem jsonToItems_itemsToJson :
    ∀ items : List FieldValue, FieldValue.OrderedItems items →
      jsonToItems base64 (itemsToJson base64 items) = some items
  | [], _ => by rw [itemsToJson, jsonToItems]
  | item :: items, h => by
    rw [itemsToJson, jsonToItems, jsonToFieldValue_fieldValueToJson item h.1,
      jsonToItems_itemsToJson items h.2]
    rfl

/-- The decoding loop inserts the entries in turn. -/
theorem jsonToEntries_entriesToJson :
    ∀ (entries : List (String × FieldValue)), FieldValue.OrderedEntries entries →
      ∀ map, jsonToEntries base64 map (entriesToJson base64 entries) =
        some (entries.foldl (fun map e => Json.insertEntry e.1 e.2 map) map)
  | [], _, map => by rw [entriesToJson, jsonToEntries]; rfl
  | (k, v) :: entries, h, map => by
    rw [entriesToJson, jsonToEntries, jsonToFieldValue_fieldValueToJson v h.1]
    exact jsonToEntries_entriesToJson entries h.2 _

end

/-- The loop over a document's fields inserts them in turn. -/
theorem foldlM_entriesToJson :
    ∀ (entries : List (String × FieldValue)), FieldValue.OrderedEntries entries →
      ∀ fields : Fields, (entriesToJson base64 entries).foldlM
        (fun (fields : Fields) (e : String × Json) => do
          let x ← jsonToFieldValue base64 e.2
          return fields.insert e.1 x) fields =
        some (entries.foldl (fun fields e => fields.insert e.1 e.2) fields)
  | [], _, fields => by rw [entriesToJson]; rfl
  | (k, v) :: entries, h, fields => by
    rw [entriesToJson, List.foldlM_cons, jsonToFieldValue_fieldValueToJson base64 v h.1]
    exact foldlM_entriesToJson entries h.2 _

theorem orderedEntries_iff {entries : List (String × FieldValue)} :
    FieldValue.OrderedEntries entries ↔ ∀ e ∈ entries, e.2.Ordered := by
  induction entries with
  | nil => simp [FieldValue.OrderedEntries]
  | cons e entries ih => simp [FieldValue.OrderedEntries, ih]

/-- A map is the one its own entries fill. -/
theorem foldl_insert_toList (fields : Fields) :
    fields.toList.foldl (fun fields e => fields.insert e.1 e.2) (∅ : Fields) = fields := by
  rw [← ofList_eq_foldl]
  refine ext_getElem? fun k => ?_
  cases hk : fields[k]? with
  | none =>
    refine getElem?_ofList_of_contains_eq_false ?_
    rw [List.contains_eq_mem, decide_eq_false_iff_not]
    intro hmem
    obtain ⟨e, he, rfl⟩ := List.mem_map.mp hmem
    rw [mem_toList_iff_getElem?_eq_some.mp he] at hk
    cases hk
  | some v =>
    exact getElem?_ofList_of_mem Std.ReflCmp.compare_self
      distinct_keys_toList (mem_toList_iff_getElem?_eq_some.mpr hk)

theorem jsonToFields_fieldsToJson {fields : Fields}
    (h : ∀ (k : String) (v : FieldValue), fields[k]? = some v → v.Ordered) :
    jsonToFields base64 (fieldsToJson base64 fields) = some fields := by
  have hordered : FieldValue.OrderedEntries fields.toList :=
    orderedEntries_iff.mpr fun e he =>
      h e.1 e.2 (mem_toList_iff_getElem?_eq_some.mp he)
  have hloop := foldlM_entriesToJson base64 fields.toList hordered ∅
  rw [foldl_insert_toList] at hloop
  exact hloop

end RoundTrip

/-! ## Equality of stored values -/

namespace FieldValue

mutual

/-- No double in the value is NaN. -/
def NoNan : FieldValue → Prop
  | .double d => d ≠ .nan
  | .array items => NoNanItems items
  | .map entries => NoNanEntries entries
  | _ => True

def NoNanItems : List FieldValue → Prop
  | [] => True
  | item :: items => item.NoNan ∧ NoNanItems items

def NoNanEntries : List (String × FieldValue) → Prop
  | [] => True
  | (_, v) :: entries => v.NoNan ∧ NoNanEntries entries

end

end FieldValue

section Equality

variable (base64 : Base64)

theorem encode_inj {b c : List UInt8} : base64.encode b = base64.encode c ↔ b = c := by
  refine ⟨fun h => ?_, fun h => h ▸ rfl⟩
  have hdecode := congrArg base64.decode h
  rwa [base64.decode_encode, base64.decode_encode, Option.some.injEq] at hdecode

theorem eqv_doublePayload (d : Double) {e : Double} (he : e ≠ .nan) :
    (doublePayload d).eqv (doublePayload e) = d.feq e := by
  rcases d with _ | (_ | _) | _ <;> rcases e with _ | (_ | _) | _ <;>
    simp_all [doublePayload, Double.feq, Double.partialCmp, Bool.beq_eq_decide_eq]

open FieldValue in
mutual

theorem eqv_fieldValueToJson :
    ∀ (a b : FieldValue), b.NoNan →
      (fieldValueToJson base64 a).eqv (fieldValueToJson base64 b) = eqvWith Double.feq a b
  | .null, b, _ | .boolean _, b, _ | .string _, b, _ | .reference _, b, _ => by
    cases b <;> simp [fieldValueToJson, tagged, eqvWith]
  | .integer _, b, _ => by
    cases b <;> simp [fieldValueToJson, tagged, eqvWith, Int64.toInt_inj]
  | .timestamp _ _, b, _ => by
    cases b <;> simp [fieldValueToJson, tagged, eqvWith, Bool.beq_eq_decide_eq, Int64.toInt_inj,
      Int32.toInt_inj, Bool.and_comm]
  | .bytes _, b, _ => by
    cases b <;> simp [fieldValueToJson, tagged, eqvWith, encode_inj]
  | .double d, b, hb => by
    cases b <;> simp [fieldValueToJson, tagged, eqvWith]
    exact eqv_doublePayload d hb
  | .array items, b, hb => by
    cases b <;> simp [fieldValueToJson, tagged, eqvWith]
    exact eqvItems_itemsToJson items _ hb
  | .map entries, b, hb => by
    cases b <;> simp [fieldValueToJson, tagged, eqvWith]
    exact eqvEntries_entriesToJson entries _ hb

theorem eqvItems_itemsToJson :
    ∀ (xs ys : List FieldValue), NoNanItems ys →
      Json.eqvItems (itemsToJson base64 xs) (itemsToJson base64 ys) = eqvItems Double.feq xs ys
  | [], [], _ | [], _ :: _, _ | _ :: _, [], _ => rfl
  | x :: xs, y :: ys, h => by
    rw [itemsToJson, itemsToJson, Json.eqvItems, eqvItems, eqv_fieldValueToJson x y h.1,
      eqvItems_itemsToJson xs ys h.2]

theorem eqvEntries_entriesToJson :
    ∀ (xs ys : List (String × FieldValue)), NoNanEntries ys →
      Json.eqvEntries (entriesToJson base64 xs) (entriesToJson base64 ys) =
        eqvEntries Double.feq xs ys
  | [], [], _ | [], _ :: _, _ | _ :: _, [], _ => rfl
  | (k, x) :: xs, (l, y) :: ys, h => by
    rw [entriesToJson, entriesToJson, Json.eqvEntries, eqvEntries, eqv_fieldValueToJson x y h.1,
      eqvEntries_entriesToJson xs ys h.2]

end

/-- Stored values survive: decoding gives the value back, on values without NaN
the stored objects are equal exactly when the values are, and a document's fields
come back key by key. -/
theorem stored_values_survive :
    (∀ v : FieldValue, v.Ordered → jsonToFieldValue base64 (fieldValueToJson base64 v) = some v) ∧
    (∀ a b : FieldValue, a.NoNan → b.NoNan →
      ((fieldValueToJson base64 a).eqv (fieldValueToJson base64 b) = true ↔ a.eqv b = true)) ∧
    (∀ a b : FieldValue, a.Ordered → b.Ordered →
      fieldValueToJson base64 a = fieldValueToJson base64 b → a = b) ∧
    ∀ fields : Fields, (∀ (k : String) (v : FieldValue), fields[k]? = some v → v.Ordered) →
      jsonToFields base64 (fieldsToJson base64 fields) = some fields := by
  refine ⟨jsonToFieldValue_fieldValueToJson base64, fun a b _ hb => ?_, fun a b ha hb h => ?_,
    fun fields => jsonToFields_fieldsToJson base64⟩
  · rw [eqv_fieldValueToJson base64 a b hb, FieldValue.eqv]
  · have hdecode := congrArg (jsonToFieldValue base64) h
    rwa [jsonToFieldValue_fieldValueToJson base64 a ha,
      jsonToFieldValue_fieldValueToJson base64 b hb, Option.some.injEq] at hdecode

/-- Bytes written as the characters of their codes: a codec with the law of
base64, for concrete values. -/
def byteText : Base64 where
  encode b := String.ofList (b.map fun x => Char.ofNat x.toNat)
  decode s := some (s.toList.map fun c => UInt8.ofNat c.toNat)
  decode_encode b := by
    have hchar (x : UInt8) : (Char.ofNat x.toNat).toNat = x.toNat := by
      have hvalid : x.toNat.isValidChar := .inl (by have := x.toNat_lt; omega)
      simp [Char.ofNat, hvalid, Char.ofNatAux, Char.toNat]
    simp [hchar, Function.comp_def]

/-- A map with a NaN in an array and a timestamp comes back, and its two integers
one apart stay different. -/
theorem stored_values_survive_nested :
    jsonToFieldValue byteText (fieldValueToJson byteText
        (.map [("readings", .array [.null, .double .nan]), ("when", .timestamp 1 2)])) =
      some (.map [("readings", .array [.null, .double .nan]), ("when", .timestamp 1 2)]) ∧
    ((fieldValueToJson byteText (.integer 1)).eqv (fieldValueToJson byteText (.integer 2)) = true ↔
      (FieldValue.integer 1).eqv (.integer 2) = true) := by
  obtain ⟨hround, hequal, -, -⟩ := stored_values_survive byteText
  refine ⟨hround _ ?_, hequal _ _ trivial trivial⟩
  refine ⟨?_, ⟨trivial, trivial, trivial⟩, trivial, trivial⟩
  simpa [Json.SortedKeys] using (by decide : "readings" < "when")

end Equality

end Embyr
