import Embyr.Condition

/-!
# Query compliance: admitting a query by its shape

`check_query_compliance` (`access_control/mod.rs`) decides from a rule and the
filter of a query alone, before any document is read, whether the query may run.

* `QueryFilter.selects` — what a filter tree selects. Equality is fixed; every
  other operator is an arbitrary predicate, so nothing here depends on how the
  storage layer reads it.
* `decomposeDecidable` — the rule as a list of atoms. An atom has a meaning of its
  own, `Atom.Holds`, and the decomposition is exact: the rule evaluates to true
  precisely when all its atoms hold (`evalBool_iff_atoms`).
* `filterBindsFieldToUid` — the walk over the filter. A filter that binds a field
  to a uid selects only documents with that string in that field
  (`bindsField_sound`).

The two meet in `checkQueryCompliance_sound`.
-/

namespace Embyr

/-! ## Query filters -/

inductive FilterOp where
  | lessThan
  | lessThanOrEqual
  | greaterThan
  | greaterThanOrEqual
  | equal
  | notEqual
  | arrayContains
  | isIn
  | notIn
  | arrayContainsAny
  | isNan
  | isNotNan
  | isNull
  | isNotNull
  deriving DecidableEq

/-- A comparison by order. -/
def FilterOp.isRange : FilterOp → Bool
  | .lessThan | .lessThanOrEqual | .greaterThan | .greaterThanOrEqual => true
  | _ => false

structure FieldFilter where
  fieldPath : String
  op : FilterOp
  value : FieldValue

inductive QueryFilter where
  | field (ff : FieldFilter)
  /-- all of them -/
  | composite (filters : List QueryFilter)
  /-- at least one of them -/
  | compositeOr (filters : List QueryFilter)

/-- A field filter on a field map. `==` asks for the flat key with an equal value;
`other` stands for every other operator. -/
def FieldFilter.selects (other : FieldFilter → Fields → Bool) (ff : FieldFilter)
    (fields : Fields) : Bool :=
  if ff.op = .equal then
    match fields[ff.fieldPath]? with
    | some v => v.eqv ff.value
    | none => false
  else other ff fields

namespace QueryFilter

variable (other : FieldFilter → Fields → Bool)

mutual

/-- The documents a filter tree selects. -/
def selects (fields : Fields) : QueryFilter → Bool
  | .field ff => ff.selects other fields
  | .composite filters => allSelect fields filters
  | .compositeOr filters => anySelects fields filters

def allSelect (fields : Fields) : List QueryFilter → Bool
  | [] => true
  | f :: fs => selects fields f && allSelect fields fs

def anySelects (fields : Fields) : List QueryFilter → Bool
  | [] => false
  | f :: fs => selects fields f || anySelects fields fs

end

/-- A query without a filter selects everything. -/
def optionSelects (filter : Option QueryFilter) (fields : Fields) : Bool :=
  match filter with
  | none => true
  | some f => f.selects other fields

end QueryFilter

/-! ## The walk over the filter -/

mutual

/-- `filter_binds_field_to_uid` on a present filter. -/
def bindsField (fieldPath uid : String) : QueryFilter → Bool
  | .field ff => ff.fieldPath = fieldPath && ff.op = .equal && ff.value.eqv (.string uid)
  | .composite filters => anyBindsField fieldPath uid filters
  | .compositeOr filters => allBindField fieldPath uid filters

def anyBindsField (fieldPath uid : String) : List QueryFilter → Bool
  | [] => false
  | f :: fs => bindsField fieldPath uid f || anyBindsField fieldPath uid fs

def allBindField (fieldPath uid : String) : List QueryFilter → Bool
  | [] => true
  | f :: fs => bindsField fieldPath uid f && allBindField fieldPath uid fs

end

/-- `filter_binds_field_to_uid`. -/
def filterBindsFieldToUid (filter : Option QueryFilter) (fieldPath uid : String) : Bool :=
  match filter with
  | none => false
  | some f => bindsField fieldPath uid f

section Binding

variable {other : FieldFilter → Fields → Bool} {fields : Fields} {fieldPath uid : String}

mutual

/-- A filter that binds the field selects only documents whose field is the uid. In
the `or` case one branch holds and every branch binds, so the branch that holds
binds; with no branches nothing is selected. -/
theorem bindsField_sound : ∀ f : QueryFilter, bindsField fieldPath uid f = true →
    f.selects other fields = true → fields[fieldPath]? = some (.string uid)
  | .field ff, hb, hm => by
    simp only [bindsField, Bool.and_eq_true, decide_eq_true_eq,
      FieldValue.eqv_string_iff] at hb
    obtain ⟨⟨hpath, hop⟩, hval⟩ := hb
    simp only [QueryFilter.selects, FieldFilter.selects, hop, if_true, hpath, hval] at hm
    rcases hv : fields[fieldPath]? with _ | v
    · simp [hv] at hm
    · simpa [hv] using hm
  | .composite filters, hb, hm => by
    rw [bindsField] at hb
    rw [QueryFilter.selects] at hm
    exact anyBindsField_sound filters hb hm
  | .compositeOr filters, hb, hm => by
    rw [bindsField] at hb
    rw [QueryFilter.selects] at hm
    exact allBindField_sound filters hb hm

theorem anyBindsField_sound : ∀ fs : List QueryFilter,
    anyBindsField fieldPath uid fs = true → QueryFilter.allSelect other fields fs = true →
      fields[fieldPath]? = some (.string uid)
  | [], hb, _ => by simp [anyBindsField] at hb
  | f :: fs, hb, hm => by
    simp only [anyBindsField, Bool.or_eq_true] at hb
    simp only [QueryFilter.allSelect, Bool.and_eq_true] at hm
    rcases hb with hb | hb
    · exact bindsField_sound f hb hm.1
    · exact anyBindsField_sound fs hb hm.2

theorem allBindField_sound : ∀ fs : List QueryFilter,
    allBindField fieldPath uid fs = true → QueryFilter.anySelects other fields fs = true →
      fields[fieldPath]? = some (.string uid)
  | [], _, hm => by simp [QueryFilter.anySelects] at hm
  | f :: fs, hb, hm => by
    simp only [allBindField, Bool.and_eq_true] at hb
    simp only [QueryFilter.anySelects, Bool.or_eq_true] at hm
    rcases hm with hm | hm
    · exact bindsField_sound f hb.1 hm
    · exact allBindField_sound fs hb.2 hm

end

end Binding

/-! ## Atoms -/

/-- A conjunct of a decidable rule (`Atom`). -/
inductive Atom where
  | ownershipEquality (field : String)
  | literal (b : Bool)
  | authRequired

/-- What an atom says about a context. -/
def Atom.Holds (ctx : EvalContext) : Atom → Prop
  | .ownershipEquality field =>
    ∃ auth, ctx.auth = some auth ∧ ctx.resourceFields[field]? = some (.string auth.uid)
  | .literal b => b = true
  | .authRequired => ctx.auth.isSome = true

/-- `decompose_decidable`; `none` is `Err(Undecidable)`. -/
def decomposeDecidable : Condition → Option (List Atom)
  | .literal b => some [.literal b]
  | .compare .authNullSentinel .ne .nullLiteral => some [.authRequired]
  | .compare .authUid .eq (.resourceField f) | .compare (.resourceField f) .eq .authUid =>
    some [.ownershipEquality f]
  | .and left right => do
    let l ← decomposeDecidable left
    let r ← decomposeDecidable right
    some (l ++ r)
  | _ => none

theorem uidEqualsField_eq_true {ctx : EvalContext} {fields : Fields} {name : String} :
    uidEqualsField ctx fields name = some true ↔
      ∃ auth, ctx.auth = some auth ∧ fields[name]? = some (.string auth.uid) := by
  rcases ha : ctx.auth with _ | auth
  · simp [uidEqualsField, ha]
  · rcases hf : fields[name]? with _ | field <;> simp [uidEqualsField, ha, hf]

/-- The decomposition is exact: a rule in the decidable shape evaluates to true
exactly where all its atoms hold. -/
theorem evalBool_iff_atoms {ctx : EvalContext} {condition : Condition} {atoms : List Atom}
    (h : decomposeDecidable condition = some atoms) :
    evalBool ctx condition = some true ↔ ∀ a ∈ atoms, a.Holds ctx := by
  fun_induction decomposeDecidable condition generalizing atoms with
  | case1 b =>
    cases h
    simp [evalBool, Atom.Holds]
  | case2 =>
    cases h
    simp [evalBool, compareOperands, Atom.Holds, Option.isSome_iff_ne_none]
  | case3 f =>
    cases h
    simp [evalBool, compareOperands, Atom.Holds, uidEqualsField_eq_true]
  | case4 f =>
    cases h
    simp [evalBool, compareOperands, Atom.Holds, uidEqualsField_eq_true]
  | case5 left right ihl ihr =>
    rcases hl : decomposeDecidable left with _ | l
    · simp [hl] at h
    rcases hr : decomposeDecidable right with _ | r
    · simp [hl, hr] at h
    obtain rfl : l ++ r = atoms := by simpa [hl, hr] using h
    rw [evalBool_and_eq_true, ihl hl, ihr hr, List.forall_mem_append]
  | case6 => cases h

/-! ## The check -/

/-- `UnsatisfiedConjunct`. -/
inductive UnsatisfiedConjunct where
  | ownershipFilterMissing (fieldPath : String)
  | denyAll
  | authRequired
  deriving DecidableEq

/-- `QueryComplianceOutcome`. -/
inductive QueryComplianceOutcome where
  | admitted
  | rejected (unsatisfiedConjuncts : List UnsatisfiedConjunct)
  | rejectedUnsupportedRuleShape
  deriving DecidableEq

/-- The loop of `check_query_compliance` over the atoms; `unsatisfied` accumulates. -/
def complianceLoop (filter : Option QueryFilter) (auth : Option AuthContext) :
    List UnsatisfiedConjunct → List Atom → QueryComplianceOutcome
  | [], [] => .admitted
  | unsatisfied, [] => .rejected unsatisfied
  | unsatisfied, .literal true :: atoms => complianceLoop filter auth unsatisfied atoms
  -- deny-all ends the check whatever else is unsatisfied
  | _, .literal false :: _ => .rejected [.denyAll]
  | unsatisfied, .authRequired :: atoms =>
    complianceLoop filter auth
      (if auth.isNone then unsatisfied ++ [.authRequired] else unsatisfied) atoms
  | unsatisfied, .ownershipEquality field :: atoms =>
    let satisfied := (auth.map fun a => filterBindsFieldToUid filter field a.uid).getD false
    complianceLoop filter auth
      (if satisfied then unsatisfied else unsatisfied ++ [.ownershipFilterMissing field]) atoms

/-- `check_query_compliance`. -/
def checkQueryCompliance (condition : Condition) (filter : Option QueryFilter)
    (auth : Option AuthContext) : QueryComplianceOutcome :=
  match decomposeDecidable condition with
  | none => .rejectedUnsupportedRuleShape
  | some atoms => complianceLoop filter auth [] atoms

/-- The loop admits only if it never recorded an unsatisfied conjunct, so every
atom holds in every context of this caller whose document the filter selects. -/
theorem complianceLoop_admitted {other : FieldFilter → Fields → Bool}
    {filter : Option QueryFilter} {ctx : EvalContext}
    (hselect : QueryFilter.optionSelects other filter ctx.resourceFields = true) :
    ∀ {atoms : List Atom} {unsatisfied : List UnsatisfiedConjunct},
      complianceLoop filter ctx.auth unsatisfied atoms = .admitted →
        unsatisfied = [] ∧ ∀ a ∈ atoms, a.Holds ctx := by
  intro atoms
  induction atoms with
  | nil =>
    intro unsatisfied h
    cases unsatisfied with
    | nil => simp
    | cons u us => simp [complianceLoop] at h
  | cons atom atoms ih =>
    intro unsatisfied h
    cases atom with
    | literal b =>
      cases b with
      | false => simp [complianceLoop] at h
      | true =>
        rw [complianceLoop] at h
        simpa [Atom.Holds] using ih h
    | authRequired =>
      rw [complianceLoop] at h
      obtain ⟨hnil, hatoms⟩ := ih h
      rcases ha : ctx.auth with _ | auth
      · simp [ha] at hnil
      · simp only [ha, Option.isNone_some, Bool.false_eq_true, if_false] at hnil
        exact ⟨hnil, List.forall_mem_cons.mpr ⟨by simp [Atom.Holds, ha], hatoms⟩⟩
    | ownershipEquality field =>
      rw [complianceLoop] at h
      obtain ⟨hnil, hatoms⟩ := ih h
      rcases ha : ctx.auth with _ | auth
      · simp [ha] at hnil
      · -- the filter binds the field to this caller's uid, and it selected the document
        rcases filter with _ | f
        · simp [ha, filterBindsFieldToUid] at hnil
        · by_cases hb : bindsField field auth.uid f = true
          · simp only [ha, filterBindsFieldToUid, hb, Option.map_some, Option.getD_some,
              if_true] at hnil
            have hfield := bindsField_sound f hb hselect
            exact ⟨hnil, List.forall_mem_cons.mpr ⟨⟨auth, ha, hfield⟩, hatoms⟩⟩
          · simp [ha, filterBindsFieldToUid, hb] at hnil

/-- **Soundness of query compliance.** A query admitted by its shape returns only
documents the rule allows: whatever the other operators mean and whatever the rest
of the context holds, every document the filter selects evaluates to `allow` for
the same caller. -/
theorem checkQueryCompliance_sound {condition : Condition} {filter : Option QueryFilter}
    {auth : Option AuthContext}
    (hadmitted : checkQueryCompliance condition filter auth = .admitted)
    (other : FieldFilter → Fields → Bool) (ctx : EvalContext) (hauth : ctx.auth = auth)
    (hselect : QueryFilter.optionSelects other filter ctx.resourceFields = true) :
    evaluate condition ctx = .allow := by
  subst hauth
  unfold checkQueryCompliance at hadmitted
  split at hadmitted
  · cases hadmitted
  · rename_i atoms hatoms
    rw [evaluate_eq_allow_iff, evalBool_iff_atoms hatoms]
    exact (complianceLoop_admitted hselect hadmitted).2

/-- `request.auth != null && resource.data.owner == request.auth.uid`. -/
def ownerRule : Condition :=
  .and (.compare .authNullSentinel .ne .nullLiteral)
    (.compare (.resourceField "owner") .eq .authUid)

/-- `where("owner", "==", uid)`, in both branches of an `or`. -/
def ownerFilter (uid : String) : QueryFilter :=
  .compositeOr [.field ⟨"owner", .equal, .string uid⟩,
    .composite [.field ⟨"age", .lessThan, .integer 7⟩, .field ⟨"owner", .equal, .string uid⟩]]

/-- A context of the caller `uid` reading a document they own. -/
def ownerContext (uid : String) : EvalContext :=
  { auth := some ⟨uid, ∅⟩
    resourceFields := (∅ : Fields).insert "owner" (.string uid)
    requestResourceFields := ∅
    pathVariableValue := none
    ancestorPathVariableValues := ∅
    requestTime := none
    crossDocumentReads := ∅ }

theorem checkQueryCompliance_sound_owner :
    checkQueryCompliance ownerRule (some (ownerFilter "ana")) (some ⟨"ana", ∅⟩) = .admitted ∧
      evaluate ownerRule (ownerContext "ana") = .allow :=
  have hadmitted : checkQueryCompliance ownerRule (some (ownerFilter "ana"))
      (some ⟨"ana", ∅⟩) = .admitted := by decide
  ⟨hadmitted, checkQueryCompliance_sound hadmitted (fun _ _ => false) (ownerContext "ana") rfl
    (by decide)⟩

end Embyr
