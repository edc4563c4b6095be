import Embyr.HandlerRuns
import Embyr.JudgedDocument
import Embyr.SoftDelete

/-!
# Field masks

An update may come with an `update_mask`: the fields it is about. `handle_update_document` and
`translate_one_write_for_commit` never look at it and store the proposed map as it is. The
agent's own `update_document` does look at it, and takes a path with dots for the name of
one field.

* `Protects` — what a mask is for: the fields it covers become those of the proposal, the
  others stay.
* `protects_iff_agrees` — storing the proposal does this exactly when the proposal repeats
  what it does not cover.
* `agent_protects_iff` — when the agent's merge does.
* `field_masks_protect_iff` — both, for the calls that store.
-/

namespace Embyr

open Program ReadCommitted World Documents

/-! ## Fields by path -/

/-- The value under a path inside a value. -/
def FieldValue.at : List String → FieldValue → Option FieldValue
  | [], value => some value
  | key :: path, .map entries => (entries.lookup key).bind (FieldValue.at path)
  | _ :: _, _ => none

/-- The value under a path inside a document. -/
def Fields.at (fields : Fields) : List String → Option FieldValue
  | [] => none
  | key :: path => (fields[key]?).bind (FieldValue.at path)

/-- The keys of a field path. -/
abbrev keysOf (fieldPath : String) : List String := Text.split '.' fieldPath

/-- A path that the mask does not speak of: it neither covers the path nor runs through it. -/
def Uncovered (mask : List String) (path : List String) : Prop :=
  ∀ fieldPath ∈ mask, ¬ keysOf fieldPath <+: path ∧ ¬ path <+: keysOf fieldPath

/-- What a mask is for. The fields of `touched` are left to the transforms of the write. -/
structure Protects (touched mask : List String) (before proposed after : Fields) : Prop where
  kept : ∀ key path, key ∉ touched → Uncovered mask (key :: path) →
    after.at (key :: path) = before.at (key :: path)
  masked : ∀ fieldPath ∈ mask, (∀ key ∈ (keysOf fieldPath).head?, key ∉ touched) →
    after.at (keysOf fieldPath) = proposed.at (keysOf fieldPath)

/-- The proposal repeats the stored document wherever the mask does not speak. -/
def Agrees (touched mask : List String) (before proposed : Fields) : Prop :=
  ∀ key path, key ∉ touched → Uncovered mask (key :: path) →
    proposed.at (key :: path) = before.at (key :: path)

theorem Fields.at_congr {fields fields' : Fields} {key : String} (h : fields[key]? = fields'[key]?)
    (path : List String) : fields.at (key :: path) = fields'.at (key :: path) := by
  rw [Fields.at, Fields.at, h]

theorem keysOf_eq_cons (fieldPath : String) : ∃ key path, keysOf fieldPath = key :: path :=
  List.exists_cons_of_ne_nil (Text.split_ne_nil '.' fieldPath)

variable {mask : List String}

/-- What is stored is the proposal, save for what is transformed: the mask does its work
exactly when it has none to do. -/
theorem protects_iff_agrees {touched : List String} {before proposed after : Fields}
    (hstored : ∀ key, key ∉ touched → after[key]? = proposed[key]?) :
    Protects touched mask before proposed after ↔ Agrees touched mask before proposed := by
  constructor
  · intro h key path hkey huncovered
    rw [← Fields.at_congr (hstored key hkey)]
    exact h.kept key path hkey huncovered
  · intro h
    refine ⟨fun key path hkey huncovered => ?_, fun fieldPath _ hhead => ?_⟩
    · rw [Fields.at_congr (hstored key hkey)]
      exact h key path hkey huncovered
    · obtain ⟨key, path, hkeys⟩ := keysOf_eq_cons fieldPath
      rw [hkeys] at hhead ⊢
      exact Fields.at_congr (hstored key (hhead key rfl)) path

/-! ## The agent's merge -/

/-- The loop over the mask in the agent's `update_document`. -/
def mergeMasked (updateFields : Fields) : List String → Fields → Fields
  | [], merged => merged
  | fieldPath :: mask, merged =>
    mergeMasked updateFields mask
      (match updateFields[fieldPath]? with
        | some value => merged.insert fieldPath value
        | none => merged.erase fieldPath)

theorem getElem?_mergeMasked (updateFields : Fields) (mask : List String) (merged : Fields)
    (key : String) :
    (mergeMasked updateFields mask merged)[key]? =
      if key ∈ mask then updateFields[key]? else merged[key]? := by
  induction mask generalizing merged with
  | nil => simp [mergeMasked]
  | cons fieldPath mask ih =>
    rw [mergeMasked, ih]
    by_cases hmem : key ∈ mask
    · simp [hmem]
    · by_cases hkey : key = fieldPath
      · subst hkey
        rcases updateFields[key]? with _ | value <;> simp [hmem]
      · rcases updateFields[fieldPath]? with _ | value <;>
          simp [hmem, hkey, Std.ExtTreeMap.getElem?_erase, Std.ExtTreeMap.getElem?_insert,
            Ne.symm hkey]

/-- For a path with dots the agent's merge changes nothing under the path, and may change the
field that is named like it. -/
def AgentAgrees (mask : List String) (before proposed : Fields) : Prop :=
  ∀ fieldPath ∈ mask, '.' ∈ fieldPath.toList →
    (before.at (keysOf fieldPath) = proposed.at (keysOf fieldPath) ∨
      ∃ key ∈ (keysOf fieldPath).head?, key ∈ mask) ∧
    before[fieldPath]? = proposed[fieldPath]?

/-- A field whose name has a dot is not reached by any field path. -/
theorem uncovered_of_dot {name : String} (hdot : '.' ∈ name.toList) (mask : List String) :
    Uncovered mask [name] := by
  intro fieldPath _
  obtain ⟨key, path, hkeys⟩ := keysOf_eq_cons fieldPath
  have hkey : key ≠ name := by
    rintro rfl
    exact Text.not_mem_of_mem_split (show key ∈ keysOf fieldPath by simp [hkeys]) hdot
  rw [hkeys]
  simp [List.cons_prefix_cons, hkey, Ne.symm hkey]

theorem keysOf_of_no_dot {fieldPath : String} (h : '.' ∉ fieldPath.toList) :
    keysOf fieldPath = [fieldPath] :=
  Text.split_of_not_mem h

section Agent

variable {mask : List String} {before proposed : Fields}

/-- Where the agent's merge takes a value from. -/
theorem at_mergeMasked (key : String) (path : List String) :
    (mergeMasked proposed mask before).at (key :: path) =
      if key ∈ mask then proposed.at (key :: path) else before.at (key :: path) := by
  have hkey := getElem?_mergeMasked proposed mask before key
  by_cases hmem : key ∈ mask
  · rw [if_pos hmem] at hkey ⊢
    exact Fields.at_congr hkey path
  · rw [if_neg hmem] at hkey ⊢
    exact Fields.at_congr hkey path

/-- The agent's merge does what the mask is for exactly when no path with dots matters. -/
theorem agent_protects_iff :
    Protects [] mask before proposed (mergeMasked proposed mask before) ↔
      AgentAgrees mask before proposed := by
  constructor
  · intro h fieldPath hmem hdot
    constructor
    · obtain ⟨key, path, hkeys⟩ := keysOf_eq_cons fieldPath
      have hmasked := h.masked fieldPath hmem fun _ _ => List.not_mem_nil
      rw [hkeys, at_mergeMasked] at hmasked
      rw [hkeys]
      by_cases hkey : key ∈ mask
      · exact .inr ⟨key, rfl, hkey⟩
      · rw [if_neg hkey] at hmasked
        exact .inl hmasked
    · have hkept := h.kept fieldPath [] List.not_mem_nil (uncovered_of_dot hdot mask)
      rw [at_mergeMasked, if_pos hmem] at hkept
      simpa [Fields.at, FieldValue.at] using hkept.symm
  · intro h
    refine ⟨fun key path _ huncovered => ?_, fun fieldPath hmem _ => ?_⟩
    · rw [at_mergeMasked]
      split
      · rename_i hmem
        by_cases hdot : '.' ∈ key.toList
        · exact (Fields.at_congr (h key hmem hdot).2 path).symm
        · -- a key of the mask without dots covers the path
          have := (huncovered key hmem).1
          rw [keysOf_of_no_dot hdot] at this
          exact absurd (by simp) this
      · rfl
    · by_cases hdot : '.' ∈ fieldPath.toList
      · obtain ⟨key, path, hkeys⟩ := keysOf_eq_cons fieldPath
        have hagrees := (h fieldPath hmem hdot).1
        rw [hkeys] at hagrees ⊢
        rw [at_mergeMasked]
        split
        · rfl
        · rename_i hkey
          rcases hagrees with heq | ⟨key', hhead, hmask⟩
          · exact heq
          · cases hhead
            exact absurd hmask hkey
      · rw [keysOf_of_no_dot hdot, at_mergeMasked, if_pos hmem]

end Agent

/-! ## The calls that store

No handler of the server reads a mask, so what holds for every mask holds for whatever mask a
request brings. -/

/-- The final field set of the agent's `update_document`: with a mask, the current document is
read and merged into. -/
def agentFinalFields (path : DocumentPath) (updateFields : Fields) :
    Option (List String) → Adapter Fields
  | some (fieldPath :: rest) => do
    match ← getDocument path none with
    | some current => pure (mergeMasked updateFields (fieldPath :: rest) current.fields)
    | none => .error (.documentNotFound (documentName path))
  | _ => pure updateFields

/-- The agent's `update_document`. -/
def agentUpdateDocument (path : DocumentPath) (updateFields : Fields) (mask : Option (List String))
    (precondition : Option WritePrecondition) : Adapter (Option FirestoreDocument) := do
  let finalFields ← agentFinalFields path updateFields mask
  let _ ← updateDocument path finalFields precondition
  getDocument path none

/-- The document now at a path is what a mask demands of an update, exactly if `condition`. -/
def MaskedAt (w w' : World) (path : DocumentPath) (touched mask : List String) (proposed : Fields)
    (condition : Prop) : Prop :=
  ∃ after, w'.document path = some after ∧
    (Protects touched mask (Documents.stored w.document path) proposed after ↔ condition)

section Calls

variable {w w' : World} {path : DocumentPath} {fields : Fields}

variable {precondition : Option WritePrecondition}

/-- An update that succeeds has stored its fields. -/
theorem document_of_updateDocument {result : WriteResult}
    (h : w.run (updateDocument path fields precondition) = (.ok result, w')) :
    w'.document path = some fields := by
  rcases run_updateDocument w path fields precondition with ⟨-, hleaves⟩ | ⟨-, hfails⟩
  · obtain ⟨r, w'', hrun, hrows⟩ := hleaves
    obtain ⟨-, rfl⟩ := Prod.mk.inj (hrun.symm.trans h)
    rw [document, hrows, Function.update_self, written]
    rcases w.documentRow path with _ | row <;> rfl
  · exact absurd (congrArg Prod.fst h) (hfails.not_ok result)

variable {project : ProjectId} {id : TransactionId} {transforms : List FieldTransform}
  {results : List WriteResult}

/-- A commit that succeeds has stored the fields of an update that is alone on its document,
and has computed the transforms from the document it found. -/
theorem document_of_commit {writes before after : List Write} {version : Option Version}
    (hidle : w.txn = none) (h : w.run (commitTransaction project id writes) = (.ok results, w'))
    (hwrites : writes = before ++ .update path fields version precondition transforms :: after)
    (hafter : ∀ other ∈ after, other.path ≠ path) :
    ∃ persisted, w'.document path = some persisted ∧
      ∀ key, key ∉ transforms.map FieldTransform.fieldPath → persisted[key]? = fields[key]? := by
  obtain ⟨docs, values, hall, -, hdocs⟩ := run_commitTransaction_applyAll hidle h
  rw [hwrites] at hall
  obtain ⟨vs, heffect⟩ := applyAll_alone hall hafter
  obtain ⟨⟨final, values'⟩, hseeded, heq⟩ := map_eq_ok heffect
  obtain ⟨hfinal, -⟩ := Prod.mk.inj heq
  refine ⟨final, (congrFun hdocs path).trans hfinal.symm, fun key hkey => ?_⟩
  refine applySeededTransforms_frame hseeded fun t ht hkt => ?_
  exact hkey (hkt ▸ List.mem_map_of_mem ht)

/-- The agent's update stores the merged map. -/
theorem document_of_agentUpdateDocument (hmask : mask ≠ []) {result : Option FirestoreDocument}
    (h : w.run (agentUpdateDocument path fields (some mask) precondition) = (.ok result, w')) :
    w'.document path = some (mergeMasked fields mask (stored w.document path)) := by
  obtain ⟨fieldPath, rest, rfl⟩ := List.exists_cons_of_ne_nil hmask
  obtain ⟨final, w₁, hfinal, h⟩ := run_bind_eq_ok h
  obtain ⟨current, w₂, hget, hmerge⟩ := run_bind_eq_ok hfinal
  obtain ⟨hcurrent, rfl⟩ := Prod.mk.inj ((run_getDocument w path).symm.trans hget)
  obtain ⟨written, w₃, hupdate, h⟩ := run_bind_eq_ok h
  obtain ⟨-, rfl⟩ := Prod.mk.inj ((run_getDocument w₃ path).symm.trans h)
  have hfields : (current.map FirestoreDocument.fields) = w.document path := by
    rw [← Except.ok.inj hcurrent, fields_visibleDocument]
  rcases current with _ | current
  · cases hmerge
  · obtain ⟨hvalue, rfl⟩ := Prod.mk.inj hmerge
    rw [document_of_updateDocument hupdate, ← Except.ok.inj hvalue, stored, ← hfields]
    rfl

/-- The request updates the document, and none of its later writes names it. -/
def UpdateAlone (messages : List ProtoWrite) (path : DocumentPath) (fields : Fields)
    (transforms : List FieldTransform) : Prop :=
  ∃ before message after precondition, messages = before ++ message :: after ∧
    message.Becomes (.update path fields none precondition transforms) ∧
    ∀ other ∈ after, ∀ write, other.Becomes write → write.path ≠ path

/-- What a commit stores of an update that is alone on its document. -/
theorem masked_of_commit {messages : List ProtoWrite} {writes : List Write} (hidle : w.txn = none)
    (htranslated : World.Translated messages writes)
    (h : w.run (commitTransaction project id writes) = (.ok results, w'))
    (halone : UpdateAlone messages path fields transforms) (mask : List String) :
    let touched := transforms.map FieldTransform.fieldPath
    MaskedAt w w' path touched mask fields
      (Agrees touched mask (stored w.document path) fields) := by
  obtain ⟨before, message, after, precondition, rfl, hbecomes, hothers⟩ := halone
  obtain ⟨earlier, later, rfl, hlater⟩ := translated_append htranslated hbecomes
  have hafter : ∀ other ∈ later, other.path ≠ path := by
    intro other hmem
    obtain ⟨m, hm, hother⟩ := becomes_of_translated hlater hmem
    exact hothers m hm other hother
  obtain ⟨persisted, hpersisted, hframe⟩ := document_of_commit hidle h rfl hafter
  exact ⟨persisted, hpersisted, protects_iff_agrees hframe⟩

theorem MaskedAt.of_apart {w₁ w₂ : World} {touched : List String} (hstart : World.Apart w w₁)
    (hend : World.Apart w₂ w')
    (h : MaskedAt w₁ w₂ path touched mask fields (Agrees touched mask (stored w₁.document path) fields)) :
    MaskedAt w w' path touched mask fields
      (Agrees touched mask (stored w.document path) fields) := by
  rw [MaskedAt, hstart.document_eq] at h
  rw [MaskedAt, hend.document_eq]
  exact h

end Calls

/-- **Field masks.** In every world, whatever mask a request brings: an update that succeeds
leaves the fields as the mask demands exactly when the proposed map repeats everything that
the mask does not cover. The agent's update does so exactly when no path with dots makes a
difference. -/
theorem field_masks_protect_iff {w w' : World} (hidle : w.txn = none) (mask : List String) :
    (∀ metadata req response, w.run (handleUpdateDocument metadata req) = (.ok response, w') →
      ∃ name fields path, req.document = some (name, some fields) ∧
        parseDocumentPath name = .ok path ∧
        MaskedAt w w' path [] mask fields
          (Agrees [] mask (Documents.stored w.document path) fields)) ∧
    (∀ metadata req response, w.run (handleCommit metadata req) = (.ok response, w') →
      ∀ path fields transforms, UpdateAlone req.writes path fields transforms →
        let touched := transforms.map FieldTransform.fieldPath
        MaskedAt w w' path touched mask fields
          (Agrees touched mask (Documents.stored w.document path) fields)) ∧
    (∀ project identity token message response,
      w.run (writeMessage project identity token message) = (.ok response, w') →
      ∀ path fields transforms, UpdateAlone message.writes path fields transforms →
        let touched := transforms.map FieldTransform.fieldPath
        MaskedAt w w' path touched mask fields
          (Agrees touched mask (Documents.stored w.document path) fields)) ∧
    (∀ project path fields precondition transforms result,
      w.run (applyAlone project (.update path fields none precondition transforms)) =
        (.ok (.ok result), w') →
      let touched := transforms.map FieldTransform.fieldPath
      MaskedAt w w' path touched mask fields
        (Agrees touched mask (Documents.stored w.document path) fields)) ∧
    ∀ path fields precondition result, mask ≠ [] →
      w.run (agentUpdateDocument path fields (some mask) precondition) = (.ok result, w') →
      MaskedAt w w' path [] mask fields
        (AgentAgrees mask (Documents.stored w.document path) fields) := by
  refine ⟨?_, ?_, ?_, ?_, ?_⟩
  · intro metadata req response h
    obtain ⟨name, fields, path, result, hdocument, hpath, hrun, -⟩ :=
      run_handleUpdateDocument_eq_ok h
    refine ⟨name, fields, path, hdocument, hpath, fields, document_of_updateDocument hrun, ?_⟩
    exact protects_iff_agrees fun _ _ => rfl
  · intro metadata req response h path fields transforms halone
    obtain ⟨project, writes, htranslated, hrun⟩ := run_handleCommit_eq_ok h
    exact masked_of_commit hidle htranslated hrun halone mask
  · rintro project identity token message ⟨token', results⟩ h path fields transforms halone
    obtain ⟨writes, id, w₁, w₂, htranslated, hbefore, hrun, hafter⟩ :=
      run_writeMessage_eq_ok h
    have hmasked := masked_of_commit (hbefore.idle hidle) htranslated hrun halone mask
    exact hmasked.of_apart hbefore hafter
  · intro project path fields precondition transforms result h
    obtain ⟨id, w₁, results, hbefore, hrun⟩ := run_applyAlone_eq_ok h
    have hnone : ∀ other ∈ ([] : List Write), other.path ≠ path := nofun
    obtain ⟨persisted, hpersisted, hframe⟩ :=
      document_of_commit (hbefore.idle hidle) hrun (List.nil_append _).symm hnone
    refine ⟨persisted, hpersisted, ?_⟩
    rw [← hbefore.document_eq]
    exact protects_iff_agrees hframe
  · intro path fields precondition result hmask h
    exact ⟨_, document_of_agentUpdateDocument hmask h, agent_protects_iff⟩

/-! ## A profile -/

/-- A user's fields. -/
def profile (age : Int64) : Fields :=
  ((∅ : Fields).insert "age" (.integer age)).insert "name" (.string "u")

/-- The document of the user. -/
def userPath : DocumentPath := ⟨demo, "users", "u"⟩

/-- One user, and one open transaction. -/
def profileWorld : World :=
  .holding .still ((AList.singleton (.document userPath) (DocumentRow.fresh (profile 1) ⟨0, 0⟩)).insert
    (.transaction (uuidOf 1)) (⟨demo, .active, ⟨0, 0⟩, ∅⟩ : TransactionRow))

/-- The request to store these fields of the user. -/
def profileRequest (fields : Fields) : UpdateDocumentRequest :=
  ⟨some ("projects/demo/databases/(default)/documents/users/u", some fields), none⟩

/-- A caller with a key. -/
def keyHolder : Metadata := ⟨some (some "Bearer key"), none⟩

/-- A proposal that repeats what the mask leaves out. -/
theorem agrees_profile (age age' : Int64) : Agrees [] ["age"] (profile age) (profile age') := by
  intro key path _ huncovered
  have hkey : "age" ≠ key := by
    rintro rfl
    exact (huncovered "age" (List.mem_singleton.mpr rfl)).1 ⟨path, rfl⟩
  refine Fields.at_congr ?_ path
  simp [profile, Std.ExtTreeMap.getElem?_insert, hkey]

/-- The age is changed under a mask, and the name is kept because the proposal repeats it. -/
theorem field_masks_protect_profile :
    let updated := (profileWorld.run (handleUpdateDocument keyHolder (profileRequest (profile 2)))).2
    updated.document userPath = some (profile 2) ∧
      Protects [] ["age"] (profile 1) (profile 2) (profile 2) := by
  intro updated
  have hdocument : updated.document userPath = some (profile 2) := rfl
  obtain ⟨response, hresponse⟩ : ∃ response, (profileWorld.run
      (handleUpdateDocument keyHolder (profileRequest (profile 2)))).1 = .ok response := ⟨_, rfl⟩
  have hparse : parseDocumentPath "projects/demo/databases/(default)/documents/users/u" =
      .ok userPath := by decide
  obtain ⟨name, fields, path, hrequest, hpath, after, hafter, hiff⟩ :=
    (field_masks_protect_iff (w := profileWorld) rfl ["age"]).1 keyHolder
      (profileRequest (profile 2)) response (Prod.ext hresponse rfl)
  obtain ⟨rfl, hfields⟩ := Prod.mk.inj (Option.some.inj hrequest)
  cases hfields
  obtain rfl := Except.ok.inj (hparse.symm.trans hpath)
  obtain rfl := Option.some.inj (hdocument.symm.trans hafter)
  exact ⟨hdocument, hiff.mpr (agrees_profile 1 2)⟩

/-- With the mask `age`, everything but the age is lost: by `UpdateDocument`, and by the write
of a commit. -/
theorem unmasked_field_lost :
    let proposed : Fields := (∅ : Fields).insert "age" (.integer 2)
    let update := profileWorld.run (handleUpdateDocument keyHolder (profileRequest proposed))
    let commit := profileWorld.run (commitTransaction demo (uuidOf 1).bytes
      [.update userPath proposed none none []])
    update.1.toOption.isSome = true ∧ update.2.document userPath = some proposed ∧
      commit.1.toOption.isSome = true ∧ commit.2.document userPath = some proposed ∧
      ¬ Protects [] ["age"] (profile 1) proposed proposed := by
  refine ⟨rfl, rfl, rfl, rfl, fun h => ?_⟩
  have huncovered : Uncovered ["age"] ["name"] := by
    intro fieldPath hmem
    obtain rfl := List.mem_singleton.mp hmem
    exact ⟨by decide, by decide⟩
  exact nomatch (show none = some (FieldValue.string "u") from
    h.kept "name" [] List.not_mem_nil huncovered)

end Embyr
