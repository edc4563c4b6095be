import Embyr.Condition

/-!
# More information never turns a verdict

A condition is evaluated to `none` where something it names is missing. If a context is
replaced by one that knows more, a verdict that was reached stands, as long as the condition
never draws a conclusion from something being missing. Two constructs do: `exists(…)`, which is
`false` for a document that was not fetched, and an item of a list literal that does not
resolve, which matches nothing.

* `EvalContext.Within` — one context knows at most what another does.
* `resolveFieldValue_within`, `compareOperands_within` — operands.
* `Condition.Settled` — no `in` whose answer `false` counts lost an item.
* `evalBool_within` — conditions, the two verdicts apart: `&&`, `||` and `in` keep `true` under
  weaker assumptions than `false`.
* `EvalContext.Below`, `evalBool_mono`, `evaluate_mono` — contexts that differ in path variables,
  clock and documents, and the conditions (`Condition.positive`) that are safe for all of them.
-/

namespace Embyr

open Condition List

/-! ## Contexts -/

/-- `less` knows at most what `more` does: the same caller, perhaps fewer claims, fields and other
documents, perhaps no clock; of the path variables in `names` those it has are the same. -/
structure EvalContext.Within (names : List String) (less more : EvalContext) : Prop where
  uid : less.auth.map AuthContext.uid = more.auth.map AuthContext.uid
  claims : ∀ {l m : AuthContext} {key : String} {value : FieldValue}, less.auth = some l → more.auth = some m →
    l.claims[key]? = some value → m.claims[key]? = some value
  resource : ∀ {name : String} {value : FieldValue}, less.resourceFields[name]? = some value →
    more.resourceFields[name]? = some value
  request : ∀ {name : String} {value : FieldValue}, less.requestResourceFields[name]? = some value →
    more.requestResourceFields[name]? = some value
  bindings : ∀ name ∈ names, ∀ {value : String},
    resolvePathVariable less.pathVariableValue less.ancestorPathVariableValues name = some value →
      resolvePathVariable more.pathVariableValue more.ancestorPathVariableValues name = some value
  time : ∀ {value}, less.requestTime = some value → more.requestTime = some value
  documents : ∀ {path doc}, less.crossDocument path = some doc →
    more.crossDocument path = some doc

/-- The two contexts have the same other documents. -/
def EvalContext.SameDocuments (less more : EvalContext) : Prop :=
  ∀ path, less.crossDocument path = more.crossDocument path

/-! ## The path variables a condition names -/

def PathTemplateSegment.variable? : PathTemplateSegment → Option String
  | .pathVariable name => some name
  | _ => none

def PathTemplate.pathVariables (template : PathTemplate) : List String :=
  template.segments.filterMap PathTemplateSegment.variable?

mutual

def Operand.pathVariables : Operand → List String
  | .pathVariable name => [name]
  | .arithmetic left _ right => left.pathVariables ++ right.pathVariables
  | .crossDocumentExists template | .crossDocumentGet template _ => template.pathVariables
  | .listLiteral items => itemsPathVariables items
  | _ => []

def itemsPathVariables : List Operand → List String
  | [] => []
  | item :: items => item.pathVariables ++ itemsPathVariables items

end

def Condition.pathVariables : Condition → List String
  | .literal _ => []
  | .not inner => inner.pathVariables
  | .and left right | .or left right => left.pathVariables ++ right.pathVariables
  | .compare left _ right | .isIn left right => left.pathVariables ++ right.pathVariables

variable {item : Operand}

theorem pathVariables_subset_of_mem {items : List Operand} (h : item ∈ items) :
    item.pathVariables ⊆ itemsPathVariables items := by
  induction items with
  | nil => cases h
  | cons first items ih =>
    rw [itemsPathVariables]
    rcases mem_cons.mp h with rfl | h
    · exact subset_append_left ..
    · exact subset_append_of_subset_right _ (ih h)

variable {names names' : List String} {less more : EvalContext}

theorem EvalContext.Within.subset
    (h : less.Within names' more) (hsub : names ⊆ names') : less.Within names more :=
  { h with bindings := fun name hname => h.bindings name (hsub hname) }

theorem EvalContext.Within.left
    (h : less.Within (names ++ names') more) : less.Within names more :=
  h.subset (subset_append_left ..)

theorem EvalContext.Within.right
    (h : less.Within (names ++ names') more) : less.Within names' more :=
  h.subset (subset_append_right ..)

/-! ## Operands -/

/-- The operand does not ask whether a document exists. -/
def Operand.positive : Operand → Bool
  | .crossDocumentExists _ => false
  | .arithmetic left _ right => left.positive && right.positive
  | _ => true

/-- The operand looks only at the caller and the two documents of the request. -/
def Operand.closed : Operand → Bool
  | .pathVariable _ | .requestTime | .crossDocumentExists _ | .crossDocumentGet _ _ => false
  | .arithmetic left _ right => left.closed && right.closed
  | _ => true

variable {right : Operand} {b : Bool} {left : Operand}

section Operands

variable {less more : EvalContext}

theorem EvalContext.Within.auth_some (h : less.Within names more)
    {l : AuthContext} (hl : less.auth = some l) : ∃ m, more.auth = some m ∧ m.uid = l.uid := by
  have huid := h.uid
  rw [hl, Option.map_some] at huid
  exact Option.map_eq_some_iff.mp huid.symm

theorem EvalContext.Within.resolveTemplate {template : PathTemplate}
    (h : less.Within template.pathVariables more) {path : String}
    (hpath : less.resolveTemplate template = some path) :
    more.resolveTemplate template = some path := by
  obtain ⟨segments⟩ := template
  obtain ⟨texts, htexts, hjoin⟩ := Option.map_eq_some_iff.mp hpath
  refine Option.map_eq_some_iff.mpr ⟨texts, ?_, hjoin⟩
  clear hpath hjoin
  induction segments generalizing texts with
  | nil => exact htexts
  | cons segment segments ih =>
    rw [mapM_cons] at htexts ⊢
    obtain ⟨text, htext, htexts⟩ := Option.bind_eq_some_iff.mp htexts
    obtain ⟨rest, hrest, htexts⟩ := Option.bind_eq_some_iff.mp htexts
    have hsegment : resolveTemplateSegment more.auth more.pathVariableValue
        more.ancestorPathVariableValues segment = some text := by
      cases segment with
      | literal s => exact htext
      | authUid => exact h.uid.symm.trans htext
      | pathVariable name => exact h.bindings name mem_cons_self htext
    have hsegments := ih (h.subset (fun name hname => by
      rw [PathTemplate.pathVariables, filterMap_cons]
      split
      · exact hname
      · exact mem_cons_of_mem _ hname)) rest hrest
    rw [hsegment, Option.bind_eq_bind, Option.bind_some, hsegments]
    exact htexts

theorem arithmeticResult_mono {op : ArithmeticOp} {leftValue value : FieldValue}
    {rightValue rightValue' : Option FieldValue}
    (h : ∀ {v}, rightValue = some v → rightValue' = some v)
    (hvalue : arithmeticResult op leftValue right rightValue = some value) :
    arithmeticResult op leftValue right rightValue' = some value := by
  fun_cases arithmeticResult op leftValue right rightValue with
  | case1 => exact hvalue
  | case2 =>
    rename_i hnot
    rw [arithmeticResult.eq_2 _ _ _ _ hnot] at hvalue ⊢
    obtain ⟨v, hv, hvalue⟩ := Option.bind_eq_some_iff.mp hvalue
    rw [h hv]
    exact hvalue

/-- What an operand resolves to stands. -/
theorem resolveFieldValue_within {operand : Operand} (h : less.Within operand.pathVariables more)
    (hexists : operand.positive = true ∨ less.SameDocuments more) {value : FieldValue}
    (hvalue : resolveFieldValue less operand = some value) :
    resolveFieldValue more operand = some value := by
  cases operand with
  | authUid | authNullSentinel =>
    obtain ⟨l, hl, rfl⟩ := Option.map_eq_some_iff.mp hvalue
    obtain ⟨m, hm, huid⟩ := h.auth_some hl
    rw [resolveFieldValue, hm, Option.map_some, huid]
  | resourceField name => exact h.resource hvalue
  | requestResourceField name => exact h.request hvalue
  | authTokenClaim claim =>
    obtain ⟨l, hl, hclaim⟩ := Option.bind_eq_some_iff.mp hvalue
    obtain ⟨m, hm, -⟩ := h.auth_some hl
    exact Option.bind_eq_some_iff.mpr ⟨m, hm, h.claims hl hm hclaim⟩
  | boolLiteral b => exact hvalue
  | nullLiteral => exact hvalue
  | stringLiteral s => exact hvalue
  | pathVariable name =>
    obtain ⟨text, htext, rfl⟩ := Option.map_eq_some_iff.mp hvalue
    exact Option.map_eq_some_iff.mpr ⟨text, h.bindings name mem_cons_self htext, rfl⟩
  | intLiteral i => exact hvalue
  | doubleLiteral d => exact hvalue
  | listLiteral items => cases hvalue
  | requestTime => exact h.time hvalue
  | arithmetic left op right =>
    rw [Operand.pathVariables] at h
    have hexists' := hexists.imp_left Bool.and_eq_true_iff.mp
    rw [resolveFieldValue] at hvalue ⊢
    obtain ⟨leftValue, hl, hvalue⟩ := Option.bind_eq_some_iff.mp hvalue
    rw [resolveFieldValue_within h.left (hexists'.imp_left And.left) hl, Option.bind_eq_bind,
      Option.bind_some]
    exact arithmeticResult_mono
      (fun hr => resolveFieldValue_within h.right (hexists'.imp_left And.right) hr) hvalue
  | durationLiteral amount unit => cases hvalue
  | crossDocumentExists template =>
    rw [Operand.pathVariables] at h
    obtain ⟨path, hpath, hvalue⟩ := Option.bind_eq_some_iff.mp hvalue
    rcases hexists with hpositive | hsame
    · cases hpositive
    · rw [resolveFieldValue, h.resolveTemplate hpath, Option.bind_eq_bind, Option.bind_some,
        ← hsame path]
      exact hvalue
  | crossDocumentGet template field =>
    rw [Operand.pathVariables] at h
    obtain ⟨path, hpath, hvalue⟩ := Option.bind_eq_some_iff.mp hvalue
    obtain ⟨doc, hdoc, hvalue⟩ := Option.bind_eq_some_iff.mp hvalue
    rw [resolveFieldValue, h.resolveTemplate hpath, Option.bind_eq_bind, Option.bind_some,
      h.documents hdoc]
    exact hvalue

theorem uidEqualsField_within (h : less.Within names more) {fields fields' : Fields} {name : String}
    (hfields : ∀ {value}, fields[name]? = some value → fields'[name]? = some value)
    (hb : uidEqualsField less fields name = some b) : uidEqualsField more fields' name = some b := by
  obtain ⟨l, hl, hb⟩ := Option.bind_eq_some_iff.mp hb
  obtain ⟨field, hfield, hb⟩ := Option.bind_eq_some_iff.mp hb
  obtain ⟨m, hm, huid⟩ := h.auth_some hl
  rw [uidEqualsField, hm, Option.bind_eq_bind, Option.bind_some, hfields hfield,
    Option.bind_eq_bind, Option.bind_some, huid]
  exact hb

theorem EvalContext.Within.isNone_auth (h : less.Within names more) :
    less.auth.isNone = more.auth.isNone := by
  rw [← Option.isNone_map, h.uid, Option.isNone_map]

theorem compareOperands_within (hleft : less.Within left.pathVariables more)
    (hright : less.Within right.pathVariables more)
    (hexists : (left.positive = true ∧ right.positive = true) ∨ less.SameDocuments more)
    (hb : compareOperands less left right = some b) : compareOperands more left right = some b := by
  fun_cases compareOperands less left right
  case case9 h₁ h₂ h₃ h₄ h₅ h₆ h₇ h₈ =>
    rw [compareOperands.eq_9 _ _ _ h₁ h₂ h₃ h₄ h₅ h₆ h₇ h₈] at hb ⊢
    obtain ⟨leftValue, hl, hb⟩ := Option.bind_eq_some_iff.mp hb
    obtain ⟨rightValue, hr, hb⟩ := Option.bind_eq_some_iff.mp hb
    rw [resolveFieldValue_within hleft (hexists.imp_left And.left) hl,
      resolveFieldValue_within hright (hexists.imp_left And.right) hr]
    exact hb
  case case1 | case2 => exact uidEqualsField_within hleft hleft.resource hb
  case case3 | case4 => exact uidEqualsField_within hleft hleft.request hb
  all_goals
    rw [compareOperands, ← hleft.isNone_auth]
    exact hb

end Operands

/-! ## Conditions -/

/-- Every item that resolves in `more` resolves in `less`. -/
def ItemsSettled (less more : EvalContext) (items : List Operand) : Prop :=
  ∀ item ∈ items, (resolveFieldValue more item).isSome → (resolveFieldValue less item).isSome

/-- No `in` whose answer `false` counts has lost an item. `t` and `f` say which answers of the
condition count; the left side of `&&` has to be `true` for the right side to be asked. -/
def Condition.Settled (less more : EvalContext) : (t f : Bool) → Condition → Prop
  | _, _, .literal _ | _, _, .compare _ _ _ => True
  | t, f, .not inner => inner.Settled less more f t
  | t, f, .and left right => left.Settled less more (t || f) f ∧ right.Settled less more t f
  | t, f, .or left right => left.Settled less more t f ∧ right.Settled less more t f
  | _, f, .isIn _ (.listLiteral items) => f = true → ItemsSettled less more items
  | _, _, .isIn _ _ => True

/-- The condition does not ask whether a document exists. -/
def Condition.asksNoExists : Condition → Bool
  | .literal _ => true
  | .not inner => inner.asksNoExists
  | .and left right | .or left right => left.asksNoExists && right.asksNoExists
  | .compare left _ right => left.positive && right.positive
  | .isIn left (.listLiteral items) => left.positive && items.all Operand.positive
  | .isIn left _ => left.positive

variable {condition : Condition}

section Conditions

variable {less more : EvalContext}

theorem orElseMissing_eq_true {l r : Option Bool} :
    orElseMissing l r = some true ↔ l = some true ∨ r = some true := by
  rcases l with _ | _ | _ <;> rcases r with _ | _ | _ <;> simp [orElseMissing]

theorem orElseMissing_eq_false {l r : Option Bool} :
    orElseMissing l r = some false ↔ l = some false ∧ r = some false := by
  rcases l with _ | _ | _ <;> rcases r with _ | _ | _ <;> simp [orElseMissing]

/-- An item that matches goes on matching, provided it resolves the same in both. -/
theorem itemMatches_within {value : FieldValue}
    (h : ∀ {v}, resolveFieldValue less item = some v → resolveFieldValue more item = some v)
    (hmatch : itemMatches less value item = true) : itemMatches more value item = true := by
  rw [itemMatches] at hmatch ⊢
  rcases hv : resolveFieldValue less item with _ | v
  · rw [hv] at hmatch
    cases hmatch
  · rw [hv] at hmatch
    rw [h hv]
    exact hmatch

/-- An item that matches has matched before, provided it was there. -/
theorem itemMatches_of_within {value : FieldValue}
    (h : ∀ {v}, resolveFieldValue less item = some v → resolveFieldValue more item = some v)
    (hsettled : (resolveFieldValue more item).isSome → (resolveFieldValue less item).isSome)
    (hmatch : itemMatches more value item = true) : itemMatches less value item = true := by
  rw [itemMatches] at hmatch ⊢
  rcases hv : resolveFieldValue more item with _ | v
  · rw [hv] at hmatch
    cases hmatch
  · rw [hv] at hmatch hsettled
    obtain ⟨w, hw⟩ := Option.isSome_iff_exists.mp (hsettled rfl)
    obtain rfl := Option.some.inj (hv.symm.trans (h hw))
    rw [hw]
    exact hmatch

theorem evalBool_compare_within {op : CompareOp} (hleft : less.Within left.pathVariables more)
    (hright : less.Within right.pathVariables more)
    (hexists : (left.positive = true ∧ right.positive = true) ∨ less.SameDocuments more)
    (hb : evalBool less (.compare left op right) = some b) :
    evalBool more (.compare left op right) = some b := by
  cases op with
  | eq => exact compareOperands_within hleft hright hexists hb
  | ne =>
    obtain ⟨c, hc, rfl⟩ := Option.map_eq_some_iff.mp hb
    exact Option.map_eq_some_iff.mpr ⟨c, compareOperands_within hleft hright hexists hc, rfl⟩
  | lt | le | gt | ge =>
    obtain ⟨leftValue, hl, hb⟩ := Option.bind_eq_some_iff.mp hb
    obtain ⟨rightValue, hr, hb⟩ := Option.bind_eq_some_iff.mp hb
    simp only [evalBool, resolveFieldValue_within hleft (hexists.imp_left And.left) hl,
      resolveFieldValue_within hright (hexists.imp_left And.right) hr]
    exact hb

/-- `in` keeps `true`, and `false` if no item was lost. -/
theorem evalBool_isIn_within {items : List Operand} (hleft : less.Within left.pathVariables more)
    (hitems : less.Within (itemsPathVariables items) more)
    (hexists : (left.positive = true ∧ ∀ item ∈ items, item.positive = true) ∨
      less.SameDocuments more)
    (hb : evalBool less (.isIn left (.listLiteral items)) = some b)
    (hsettled : b = false → ItemsSettled less more items) :
    evalBool more (.isIn left (.listLiteral items)) = some b := by
  obtain ⟨value, hvalue, hany⟩ := Option.bind_eq_some_iff.mp hb
  have hitem : ∀ item ∈ items, ∀ {v}, resolveFieldValue less item = some v →
      resolveFieldValue more item = some v := fun item hmem =>
    resolveFieldValue_within (hitems.subset (pathVariables_subset_of_mem hmem))
      (hexists.imp_left fun h => h.2 item hmem)
  rw [evalBool, resolveFieldValue_within hleft (hexists.imp_left And.left) hvalue,
    Option.bind_eq_bind, Option.bind_some]
  have hless := Option.some.inj hany
  refine congrArg some ?_
  cases b with
  | true =>
    obtain ⟨item, hmem, hmatch⟩ := any_eq_true.mp hless
    exact any_eq_true.mpr ⟨item, hmem, itemMatches_within (hitem item hmem) hmatch⟩
  | false =>
    rw [any_eq_false] at hless ⊢
    intro item hmem hmatch
    exact hless item hmem (itemMatches_of_within (hitem item hmem) (hsettled rfl item hmem) hmatch)

/-- A verdict that counts stands when the context comes to know more. -/
theorem evalBool_within (h : less.Within condition.pathVariables more)
    (hexists : condition.asksNoExists = true ∨ less.SameDocuments more) {t f : Bool}
    (hsettled : condition.Settled less more t f) (hcounts : (if b then t else f) = true)
    (hb : evalBool less condition = some b) : evalBool more condition = some b := by
  induction condition generalizing t f b with
  | literal c => exact hb
  | compare left op right =>
    rw [pathVariables] at h
    exact evalBool_compare_within h.left h.right (hexists.imp_left Bool.and_eq_true_iff.mp) hb
  | not inner ih =>
    obtain ⟨c, hc, rfl⟩ := Option.map_eq_some_iff.mp hb
    refine Option.map_eq_some_iff.mpr ⟨c, ih h hexists hsettled ?_ hc, rfl⟩
    cases c <;> exact hcounts
  | and left right ihl ihr =>
    rw [pathVariables] at h
    have hexists' := hexists.imp_left Bool.and_eq_true_iff.mp
    obtain ⟨hleft, hright⟩ := hsettled
    obtain ⟨l, hl, hb⟩ := Option.bind_eq_some_iff.mp hb
    have hl' : evalBool more left = some l := by
      refine ihl h.left (hexists'.imp_left And.left) hleft ?_ hl
      cases l with
      | true => cases b <;> simp_all
      | false =>
        obtain rfl : false = b := Option.some.inj hb
        exact hcounts
    rw [evalBool, hl', Option.bind_eq_bind, Option.bind_some]
    cases l with
    | false => exact hb
    | true => exact ihr h.right (hexists'.imp_left And.right) hright hcounts hb
  | or left right ihl ihr =>
    rw [pathVariables] at h
    have hexists' := hexists.imp_left Bool.and_eq_true_iff.mp
    have hl := fun {b} => ihl h.left (hexists'.imp_left And.left) hsettled.1 (b := b)
    have hr := fun {b} => ihr h.right (hexists'.imp_left And.right) hsettled.2 (b := b)
    rw [evalBool] at hb ⊢
    cases b with
    | true =>
      rw [orElseMissing_eq_true] at hb ⊢
      exact hb.imp (hl hcounts) (hr hcounts)
    | false =>
      rw [orElseMissing_eq_false] at hb ⊢
      exact hb.imp (hl hcounts) (hr hcounts)
  | isIn left list =>
    rw [pathVariables] at h
    cases list with
    | listLiteral items =>
      have hitems := h.right
      rw [Operand.pathVariables] at hitems
      refine evalBool_isIn_within h.left hitems (hexists.imp_left fun hno => ?_) hb ?_
      · obtain ⟨hno, hall⟩ := Bool.and_eq_true_iff.mp hno
        exact ⟨hno, all_eq_true.mp hall⟩
      · rintro rfl
        exact hsettled hcounts
    | _ =>
      obtain ⟨value, hvalue, hb⟩ := Option.bind_eq_some_iff.mp hb
      rw [evalBool, resolveFieldValue_within h.left hexists hvalue]
      exact hb

end Conditions

/-! ## Contexts that differ in what was fetched -/

/-- `ctx'` knows what `ctx` knows: the same caller and the same documents, and perhaps
more path variables, the clock, and more of the other documents. -/
structure EvalContext.Below (ctx ctx' : EvalContext) : Prop where
  auth_eq : ctx'.auth = ctx.auth
  resource_eq : ctx'.resourceFields = ctx.resourceFields
  request_eq : ctx'.requestResourceFields = ctx.requestResourceFields
  variable_le : ∀ {name value},
    resolvePathVariable ctx.pathVariableValue ctx.ancestorPathVariableValues name = some value →
      resolvePathVariable ctx'.pathVariableValue ctx'.ancestorPathVariableValues name = some value
  time_le : ∀ {value}, ctx.requestTime = some value → ctx'.requestTime = some value
  cross_le : ∀ {path doc}, ctx.crossDocument path = some doc → ctx'.crossDocument path = some doc

/-- The condition draws no conclusion from something being missing. -/
def Condition.positive : Condition → Bool
  | .literal _ => true
  | .not inner => inner.positive
  | .and left right | .or left right => left.positive && right.positive
  | .compare left _ right => left.positive && right.positive
  | .isIn left (.listLiteral items) => left.positive && items.all Operand.closed
  | .isIn left _ => left.positive

section Below

variable {ctx ctx' : EvalContext}

theorem EvalContext.Below.within (h : ctx.Below ctx') (names : List String) :
    ctx.Within names ctx' where
  uid := by rw [h.auth_eq]
  claims hl hm hclaim := by
    rw [h.auth_eq, hl] at hm
    cases hm
    exact hclaim
  resource hvalue := by rwa [h.resource_eq]
  request hvalue := by rwa [h.request_eq]
  bindings _ _ := h.variable_le
  time := h.time_le
  documents := h.cross_le

/-- A closed operand resolves to the same, or fails to. -/
theorem resolveFieldValue_closed (h : ctx.Below ctx') {operand : Operand}
    (hclosed : operand.closed = true) :
    resolveFieldValue ctx' operand = resolveFieldValue ctx operand := by
  cases operand with
  | pathVariable | requestTime | crossDocumentExists | crossDocumentGet => cases hclosed
  | arithmetic left op right =>
    obtain ⟨hleft, hright⟩ := Bool.and_eq_true_iff.mp hclosed
    simp only [resolveFieldValue, resolveFieldValue_closed h hleft,
      resolveFieldValue_closed h hright]
  | _ => simp only [resolveFieldValue, h.auth_eq, h.resource_eq, h.request_eq]

theorem Operand.positive_of_closed {operand : Operand} (h : operand.closed = true) :
    operand.positive = true := by
  cases operand with
  | arithmetic left op right =>
    obtain ⟨hleft, hright⟩ := Bool.and_eq_true_iff.mp h
    exact Bool.and_eq_true_iff.mpr ⟨positive_of_closed hleft, positive_of_closed hright⟩
  | crossDocumentExists template => cases h
  | _ => rfl

theorem Condition.asksNoExists_of_positive
    (h : condition.positive = true) : condition.asksNoExists = true := by
  induction condition with
  | literal b => rfl
  | compare left op right => exact h
  | and left right ihl ihr =>
    obtain ⟨hleft, hright⟩ := Bool.and_eq_true_iff.mp h
    exact Bool.and_eq_true_iff.mpr ⟨ihl hleft, ihr hright⟩
  | or left right ihl ihr =>
    obtain ⟨hleft, hright⟩ := Bool.and_eq_true_iff.mp h
    exact Bool.and_eq_true_iff.mpr ⟨ihl hleft, ihr hright⟩
  | not inner ih => exact ih h
  | isIn left list =>
    cases list with
    | listLiteral items =>
      obtain ⟨hleft, hitems⟩ := Bool.and_eq_true_iff.mp h
      refine Bool.and_eq_true_iff.mpr ⟨hleft, all_eq_true.mpr fun item hitem => ?_⟩
      exact Operand.positive_of_closed (all_eq_true.mp hitems item hitem)
    | _ => exact h

/-- The items of a positive condition's lists are closed, so none is lost. -/
theorem Condition.settled_of_positive (h : ctx.Below ctx')
    (hpositive : condition.positive = true) (t f : Bool) : condition.Settled ctx ctx' t f := by
  induction condition generalizing t f with
  | literal | compare => trivial
  | and left right ihl ihr =>
    obtain ⟨hleft, hright⟩ := Bool.and_eq_true_iff.mp hpositive
    exact ⟨ihl hleft _ _, ihr hright _ _⟩
  | or left right ihl ihr =>
    obtain ⟨hleft, hright⟩ := Bool.and_eq_true_iff.mp hpositive
    exact ⟨ihl hleft _ _, ihr hright _ _⟩
  | not inner ih => exact ih hpositive _ _
  | isIn left list =>
    cases list with
    | listLiteral items =>
      obtain ⟨-, hitems⟩ := Bool.and_eq_true_iff.mp hpositive
      intro _ item hitem hsome
      rwa [resolveFieldValue_closed h (all_eq_true.mp hitems item hitem)] at hsome
    | _ => trivial

/-- A verdict stands when the context comes to know more. -/
theorem evalBool_mono (h : ctx.Below ctx') (hpositive : condition.positive = true)
    (hb : evalBool ctx condition = some b) : evalBool ctx' condition = some b :=
  evalBool_within (h.within _) (.inl (asksNoExists_of_positive hpositive))
    (settled_of_positive h hpositive true true) (by cases b <;> rfl) hb

theorem evaluate_mono (h : ctx.Below ctx') (hpositive : condition.positive = true)
    (hallow : evaluate condition ctx = .allow) :
    evaluate condition ctx' = .allow :=
  evaluate_eq_allow_iff.mpr (evalBool_mono h hpositive (evaluate_eq_allow_iff.mp hallow))

end Below

end Embyr
