import Embyr.QueryCompliance

/-!
# Query compliance: rejecting and narrowing

The other side of `checkQueryCompliance_sound`. A filter is looked at as the list of its
conjuncts, which is all that the walk over it depends on.

* `QueryFilter.conjuncts` — an `and` of `and`s, flattened.
* `checkQueryCompliance_admitted_iff` — what the loop asks of each atom, `Atom.Met`.
* `exists_denied_of_not_met` — where an atom is not met, a document is denied: if the filter does
  not bind the owner, then a selected document can do without one.
* `compliance_justified_and_narrowing` — rejections are justified, and an `and` only narrows.
-/

namespace Embyr

/-! ## Conjuncts -/

namespace QueryFilter

mutual

/-- The conjuncts of a filter, at any nesting. -/
def conjuncts : QueryFilter → List QueryFilter
  | .composite filters => allConjuncts filters
  | .field ff => [.field ff]
  | .compositeOr filters => [.compositeOr filters]

def allConjuncts : List QueryFilter → List QueryFilter
  | [] => []
  | f :: fs => f.conjuncts ++ allConjuncts fs

end

/-- A query without a filter has no conjuncts. -/
def optionConjuncts (filter : Option QueryFilter) : List QueryFilter :=
  (filter.map conjuncts).getD []

variable {other : FieldFilter → Fields → Bool} {fields : Fields}

mutual

theorem selects_iff_conjuncts : ∀ f : QueryFilter,
    f.selects other fields = true ↔ ∀ c ∈ f.conjuncts, c.selects other fields = true
  | .field ff => by simp [conjuncts]
  | .compositeOr filters => by simp [conjuncts]
  | .composite filters => by
    rw [selects, conjuncts]
    exact allSelect_iff_conjuncts filters

theorem allSelect_iff_conjuncts : ∀ fs : List QueryFilter,
    allSelect other fields fs = true ↔ ∀ c ∈ allConjuncts fs, c.selects other fields = true
  | [] => by simp [allSelect, allConjuncts]
  | f :: fs => by
    rw [allSelect, allConjuncts, Bool.and_eq_true, List.forall_mem_append,
      selects_iff_conjuncts f, allSelect_iff_conjuncts fs]

end

theorem optionSelects_iff {filter : Option QueryFilter} :
    optionSelects other filter fields = true ↔
      ∀ c ∈ optionConjuncts filter, c.selects other fields = true := by
  rcases filter with _ | f
  · simp [optionSelects, optionConjuncts]
  · exact selects_iff_conjuncts f

end QueryFilter

section Binding

variable {fieldPath uid : String}

mutual

theorem bindsField_iff_conjunct : ∀ f : QueryFilter,
    bindsField fieldPath uid f = true ↔ ∃ c ∈ f.conjuncts, bindsField fieldPath uid c = true
  | .field ff => by simp [QueryFilter.conjuncts]
  | .compositeOr filters => by simp [QueryFilter.conjuncts]
  | .composite filters => by
    rw [bindsField, QueryFilter.conjuncts]
    exact anyBindsField_iff_conjunct filters

theorem anyBindsField_iff_conjunct : ∀ fs : List QueryFilter,
    anyBindsField fieldPath uid fs = true ↔
      ∃ c ∈ QueryFilter.allConjuncts fs, bindsField fieldPath uid c = true
  | [] => by simp [anyBindsField, QueryFilter.allConjuncts]
  | f :: fs => by
    rw [anyBindsField, QueryFilter.allConjuncts, Bool.or_eq_true, bindsField_iff_conjunct f,
      anyBindsField_iff_conjunct fs]
    simp only [List.mem_append, or_and_right, exists_or]

end

theorem filterBindsFieldToUid_iff {filter : Option QueryFilter} :
    filterBindsFieldToUid filter fieldPath uid = true ↔
      ∃ c ∈ QueryFilter.optionConjuncts filter, bindsField fieldPath uid c = true := by
  rcases filter with _ | f
  · simp [filterBindsFieldToUid, QueryFilter.optionConjuncts]
  · exact bindsField_iff_conjunct f

end Binding

/-! ## What the loop asks of an atom -/

section Met

variable {filter : Option QueryFilter} {auth : Option AuthContext}

/-- The loop records nothing for this atom. -/
def Atom.Met (filter : Option QueryFilter) (auth : Option AuthContext) : Atom → Prop
  | .ownershipEquality field =>
    ∃ a, auth = some a ∧ filterBindsFieldToUid filter field a.uid = true
  | .literal b => b = true
  | .authRequired => auth.isSome = true

/-- The loop admits exactly if it has recorded nothing. -/
theorem complianceLoop_admitted_iff {atoms : List Atom} {unsatisfied : List UnsatisfiedConjunct} :
    complianceLoop filter auth unsatisfied atoms = .admitted ↔
      unsatisfied = [] ∧ ∀ a ∈ atoms, a.Met filter auth := by
  induction atoms generalizing unsatisfied with
  | nil => cases unsatisfied <;> simp [complianceLoop]
  | cons atom atoms ih =>
    rw [List.forall_mem_cons]
    cases atom with
    | literal b =>
      cases b with
      | false => simp [complianceLoop, Atom.Met]
      | true =>
        rw [complianceLoop, ih]
        simp [Atom.Met]
    | authRequired =>
      rw [complianceLoop, ih]
      rcases auth with _ | a <;> simp [Atom.Met]
    | ownershipEquality field =>
      rw [complianceLoop, ih]
      rcases auth with _ | a
      · simp [Atom.Met]
      · rcases hbinds : filterBindsFieldToUid filter field a.uid with _ | _ <;>
          simp [Atom.Met, hbinds]

theorem checkQueryCompliance_admitted_iff {condition : Condition} :
    checkQueryCompliance condition filter auth = .admitted ↔
      ∃ atoms, decomposeDecidable condition = some atoms ∧ ∀ a ∈ atoms, a.Met filter auth := by
  rw [checkQueryCompliance]
  rcases decomposeDecidable condition with _ | atoms
  · simp
  · simp [complianceLoop_admitted_iff]

/-! ## Narrowing -/

/-- More conjuncts bind at least as much. -/
theorem Atom.Met.mono {filter' : Option QueryFilter} {atom : Atom}
    (hsubset : QueryFilter.optionConjuncts filter ⊆ QueryFilter.optionConjuncts filter')
    (h : atom.Met filter auth) : atom.Met filter' auth := by
  cases atom with
  | literal | authRequired => exact h
  | ownershipEquality field =>
    obtain ⟨a, rfl, hbinds⟩ := h
    obtain ⟨c, hc, hfield⟩ := filterBindsFieldToUid_iff.mp hbinds
    exact ⟨a, rfl, filterBindsFieldToUid_iff.mpr ⟨c, hsubset hc, hfield⟩⟩

/-! ## Rejecting -/

/-- The filter is built from equalities by `and`. -/
def QueryFilter.Equalities (filter : Option QueryFilter) : Prop :=
  ∀ c ∈ optionConjuncts filter, ∃ path value, c = .field ⟨path, .equal, value⟩

theorem string_eqv_iff {v : FieldValue} {s : String} :
    (FieldValue.string s).eqv v = true ↔ v = .string s := by
  cases v with
  | string t => simpa [FieldValue.eqv, FieldValue.eqvWith] using eq_comm
  | _ => simp [FieldValue.eqv, FieldValue.eqvWith]

variable {other : FieldFilter → Fields → Bool} {fields : Fields}

theorem selects_equal_iff {path : String} {value : FieldValue} :
    QueryFilter.selects other fields (.field ⟨path, .equal, value⟩) = true ↔
      ∃ v, fields[path]? = some v ∧ v.eqv value = true := by
  rw [QueryFilter.selects, FieldFilter.selects, if_pos rfl]
  rcases fields[path]? with _ | v <;> simp

/-- Without a binding of the field, a selected document whose field is the uid stays selected when
the field is taken away: an equality on the field would be one with the uid. -/
theorem selects_erase {field uid : String} (hequalities : QueryFilter.Equalities filter)
    (hbinds : filterBindsFieldToUid filter field uid = false)
    (hfield : fields[field]? = some (.string uid))
    (hselects : QueryFilter.optionSelects other filter fields = true) :
    QueryFilter.optionSelects other filter (fields.erase field) = true := by
  rw [QueryFilter.optionSelects_iff] at hselects ⊢
  intro c hc
  obtain ⟨path, value, rfl⟩ := hequalities c hc
  obtain ⟨v, hv, heqv⟩ := selects_equal_iff.mp (hselects _ hc)
  rw [selects_equal_iff]
  refine ⟨v, ?_, heqv⟩
  -- an equality on the field itself would bind it
  have hne : field ≠ path := by
    rintro rfl
    obtain rfl := Option.some.inj (hfield.symm.trans hv)
    obtain rfl := string_eqv_iff.mp heqv
    have hbound : filterBindsFieldToUid filter field uid = true :=
      filterBindsFieldToUid_iff.mpr ⟨_, hc, by simp [bindsField]⟩
    simp [hbound] at hbinds
  rw [Std.ExtTreeMap.getElem?_erase]
  simp [hne, hv]

/-- Where an atom is not met, some selected document does not satisfy it, whatever else is in the
context. -/
theorem exists_denied_of_not_met {atom : Atom} (hequalities : QueryFilter.Equalities filter)
    (hselects : QueryFilter.optionSelects other filter fields = true)
    (hunmet : ¬ atom.Met filter auth) :
    ∃ fields', QueryFilter.optionSelects other filter fields' = true ∧
      ∀ ctx : EvalContext, ctx.auth = auth → ctx.resourceFields = fields' → ¬ atom.Holds ctx := by
  cases atom with
  | literal b => exact ⟨fields, hselects, fun _ _ _ => hunmet⟩
  | authRequired =>
    refine ⟨fields, hselects, ?_⟩
    rintro ctx rfl -
    exact hunmet
  | ownershipEquality field =>
    rcases auth with _ | a
    · refine ⟨fields, hselects, ?_⟩
      rintro ctx hauth - ⟨a, ha, -⟩
      cases hauth.symm.trans ha
    · have hbinds : filterBindsFieldToUid filter field a.uid = false := by
        rw [← Bool.not_eq_true]
        exact fun hbinds => hunmet ⟨a, rfl, hbinds⟩
      by_cases hfield : fields[field]? = some (.string a.uid)
      · -- the document is the caller's own by chance only
        refine ⟨fields.erase field, selects_erase hequalities hbinds hfield hselects, ?_⟩
        rintro ctx hauth hresource ⟨a', ha', howner⟩
        rw [hresource, Std.ExtTreeMap.getElem?_erase_self] at howner
        cases howner
      · refine ⟨fields, hselects, ?_⟩
        rintro ctx hauth rfl ⟨a', ha', howner⟩
        obtain rfl := Option.some.inj (hauth.symm.trans ha')
        exact hfield howner

theorem evaluate_eq_deny_iff {condition : Condition} {ctx : EvalContext} :
    evaluate condition ctx = .deny ↔ ¬ evaluate condition ctx = .allow := by
  rcases evaluate condition ctx with _ | _ <;> simp

end Met

/-! ## The claim of the check -/

/-- Flattened, `filter` has the conjuncts of `f` and `g` and no others. -/
def IsAndOf (f g filter : Option QueryFilter) : Prop :=
  ∀ c, c ∈ QueryFilter.optionConjuncts filter ↔
    c ∈ QueryFilter.optionConjuncts f ∨ c ∈ QueryFilter.optionConjuncts g

/-- If a query with equalities is rejected, then the rule denies the caller a document that the
query selects; and an admitted query stays admitted under an `and`. -/
theorem compliance_justified_and_narrowing :
    (∀ (condition : Condition) (atoms : List Atom) (filter : Option QueryFilter)
        (auth : Option AuthContext) (other : FieldFilter → Fields → Bool),
      decomposeDecidable condition = some atoms → QueryFilter.Equalities filter →
      (∃ fields, QueryFilter.optionSelects other filter fields = true) →
      checkQueryCompliance condition filter auth ≠ .admitted →
      ∃ fields, QueryFilter.optionSelects other filter fields = true ∧
        ∀ ctx : EvalContext, ctx.auth = auth → ctx.resourceFields = fields →
          evaluate condition ctx = .deny) ∧
    ∀ (condition : Condition) (auth : Option AuthContext) (f g filter : Option QueryFilter),
      IsAndOf f g filter → checkQueryCompliance condition f auth = .admitted →
      checkQueryCompliance condition filter auth = .admitted := by
  constructor
  · rintro condition atoms filter auth other hatoms hequalities ⟨fields, hselects⟩ hrejected
    obtain ⟨atom, hatom, hunmet⟩ : ∃ atom ∈ atoms, ¬ atom.Met filter auth := by
      by_contra hall
      push Not at hall
      exact hrejected (checkQueryCompliance_admitted_iff.mpr ⟨atoms, hatoms, hall⟩)
    obtain ⟨fields', hselects', hdenied⟩ :=
      exists_denied_of_not_met hequalities hselects hunmet
    refine ⟨fields', hselects', fun ctx hauth hresource => ?_⟩
    rw [evaluate_eq_deny_iff, evaluate_eq_allow_iff, evalBool_iff_atoms hatoms]
    exact fun hholds => hdenied ctx hauth hresource (hholds atom hatom)
  · intro condition auth f g filter hand hadmitted
    obtain ⟨atoms, hatoms, hmet⟩ := checkQueryCompliance_admitted_iff.mp hadmitted
    refine checkQueryCompliance_admitted_iff.mpr ⟨atoms, hatoms, fun atom hatom => ?_⟩
    exact (hmet atom hatom).mono fun c hc => (hand c).mpr (.inl hc)

/-- An open document of anybody is selected, so the owner's rule rejects the query; with the owner
added, before or after, the rule admits it. -/
theorem compliance_justified_and_narrowing_owner :
    let isOpen : QueryFilter := .field ⟨"open", .equal, .boolean true⟩
    let owned : QueryFilter := .field ⟨"owner", .equal, .string "ana"⟩
    (∃ fields, QueryFilter.optionSelects (fun _ _ => false) (some isOpen) fields = true ∧
      ∀ ctx : EvalContext, ctx.auth = some ⟨"ana", ∅⟩ → ctx.resourceFields = fields →
        evaluate ownerRule ctx = .deny) ∧
    checkQueryCompliance ownerRule (some (.composite [owned, isOpen])) (some ⟨"ana", ∅⟩) =
        .admitted ∧
    checkQueryCompliance ownerRule (some (.composite [isOpen, .composite [owned]]))
        (some ⟨"ana", ∅⟩) = .admitted := by
  intro isOpen owned
  have hadmitted : checkQueryCompliance ownerRule (some owned) (some ⟨"ana", ∅⟩) = .admitted := by
    decide
  refine ⟨?_, ?_, ?_⟩
  · refine compliance_justified_and_narrowing.1 ownerRule _ (some isOpen) (some ⟨"ana", ∅⟩)
      (fun _ _ => false) rfl ?_ ⟨{("open", .boolean true)}, by decide⟩ (by decide)
    intro c hc
    rw [List.mem_singleton.mp hc]
    exact ⟨_, _, rfl⟩
  · refine compliance_justified_and_narrowing.2 ownerRule _ (some owned) (some isOpen) _ ?_ hadmitted
    intro c
    simp [QueryFilter.optionConjuncts, QueryFilter.conjuncts, QueryFilter.allConjuncts, owned, isOpen]
  · refine compliance_justified_and_narrowing.2 ownerRule _ (some owned) (some isOpen) _ ?_ hadmitted
    intro c
    simp [QueryFilter.optionConjuncts, QueryFilter.conjuncts, QueryFilter.allConjuncts, owned,
      isOpen, or_comm]

end Embyr
