import Embyr.InformationOrder

/-!
# What is missing does not grant

A rule that allows goes on allowing when fields, claims, path bindings or the clock are given to
it that it did without. Two rules of the evaluator speak against it, and both are meant: an item of
a list that does not resolve just does not match, so that a negated `in` can come to grant; and a
path variable without a binding of its own takes the leaf's.

* `EvalContext.Restricts` — some of that is removed, the caller and the other documents stay.
* `Uncovers` — a removed binding leaves the variable with the leaf's value.
* `missing_never_grants` — otherwise, what allows without allows with.
* `removed_item_grants` — the two cases.
-/

namespace Embyr

/-- `less` is `more` without some fields, claims, path bindings, or without the clock. -/
structure EvalContext.Restricts (less more : EvalContext) : Prop where
  uid : less.auth.map AuthContext.uid = more.auth.map AuthContext.uid
  claims : ∀ {l m : AuthContext} {key : String} {value : FieldValue}, less.auth = some l →
    more.auth = some m → l.claims[key]? = some value → m.claims[key]? = some value
  resource : ∀ {name : String} {value : FieldValue}, less.resourceFields[name]? = some value →
    more.resourceFields[name]? = some value
  request : ∀ {name : String} {value : FieldValue}, less.requestResourceFields[name]? = some value →
    more.requestResourceFields[name]? = some value
  leaf : ∀ {value : String}, less.pathVariableValue = some value →
    more.pathVariableValue = some value
  ancestors : ∀ {name value : String}, less.ancestorPathVariableValues[name]? = some value →
    more.ancestorPathVariableValues[name]? = some value
  time : ∀ {value : FieldValue}, less.requestTime = some value → more.requestTime = some value
  documents : less.crossDocumentReads = more.crossDocumentReads

/-- The binding of the variable was removed, and the leaf's value, which is another, stands in. -/
def Uncovers (less more : EvalContext) (name : String) : Prop :=
  ∃ value leaf, more.ancestorPathVariableValues[name]? = some value ∧
    less.ancestorPathVariableValues[name]? = none ∧ less.pathVariableValue = some leaf ∧
    leaf ≠ value

section Restricts

variable {less more : EvalContext}

/-- A variable that is not uncovered keeps the value it has. -/
theorem EvalContext.Restricts.resolvePathVariable_eq (h : less.Restricts more) {name value : String}
    (hcovered : ¬Uncovers less more name)
    (hvalue : resolvePathVariable less.pathVariableValue less.ancestorPathVariableValues name =
      some value) :
    resolvePathVariable more.pathVariableValue more.ancestorPathVariableValues name =
      some value := by
  rw [resolvePathVariable] at hvalue ⊢
  rcases hless : less.ancestorPathVariableValues[name]? with _ | own
  · rw [hless, Option.none_or] at hvalue
    rcases hmore : more.ancestorPathVariableValues[name]? with _ | own
    · rw [Option.none_or]
      exact h.leaf hvalue
    · rw [Option.some_or]
      by_contra hne
      exact hcovered ⟨own, value, hmore, hless, hvalue, fun heq => hne (congrArg some heq.symm)⟩
  · rw [hless, Option.some_or] at hvalue
    rw [h.ancestors hless, Option.some_or]
    exact hvalue

theorem EvalContext.Restricts.within (h : less.Restricts more) {names : List String}
    (hcovered : ∀ name ∈ names, ¬Uncovers less more name) : less.Within names more where
  uid := h.uid
  claims := h.claims
  resource := h.resource
  request := h.request
  bindings name hname := h.resolvePathVariable_eq (hcovered name hname)
  time := h.time
  documents hdoc := by
    rw [EvalContext.crossDocument, h.documents] at hdoc
    exact hdoc

theorem EvalContext.Restricts.sameDocuments (h : less.Restricts more) :
    less.SameDocuments more := by
  intro path
  rw [EvalContext.crossDocument, EvalContext.crossDocument, h.documents]

/-- A condition that allows without what was removed allows with it, unless one of its variables is
uncovered or an `in` whose answer `false` counts lost an item. -/
theorem missing_never_grants {condition : Condition} (h : less.Restricts more)
    (hcovered : ∀ name ∈ condition.pathVariables, ¬Uncovers less more name)
    (hsettled : condition.Settled less more true false)
    (hallow : evaluate condition less = .allow) : evaluate condition more = .allow := by
  rw [evaluate_eq_allow_iff] at hallow ⊢
  exact evalBool_within (h.within hcovered) (.inr h.sameDocuments) hsettled rfl hallow

end Restricts

/-! ## A rule about blocked callers -/

/-- A caller at a document of a shelf, with the document's fields and the bindings of the path. -/
def shelfContext (fields : Fields) (ancestors : StrMap String) : EvalContext where
  auth := some ⟨"ann", ∅⟩
  resourceFields := fields
  requestResourceFields := ∅
  pathVariableValue := some "book"
  ancestorPathVariableValues := ancestors
  requestTime := none
  crossDocumentReads := ∅

theorem shelfContext_restricts {less more : Fields} {fewer ancestors : StrMap String}
    (hfields : ∀ {name : String} {value : FieldValue}, less[name]? = some value →
      more[name]? = some value)
    (hancestors : ∀ {name value : String}, fewer[name]? = some value →
      ancestors[name]? = some value) :
    (shelfContext less fewer).Restricts (shelfContext more ancestors) where
  uid := rfl
  claims hl hm hclaim := by
    cases hl
    cases hm
    exact hclaim
  resource := hfields
  request h := h
  leaf h := h
  ancestors := hancestors
  time h := h
  documents := rfl

def blocked : Fields := (∅ : Fields).insert "blocked" (.string "ann")

def shelves : StrMap String := (∅ : StrMap String).insert "shelf" "poetry"

theorem restricts_blocked : (shelfContext ∅ ∅).Restricts (shelfContext blocked ∅) :=
  shelfContext_restricts (fun h => by simp at h) (fun h => h)

theorem restricts_shelves : (shelfContext ∅ ∅).Restricts (shelfContext ∅ shelves) :=
  shelfContext_restricts (fun h => h) (fun h => by simp at h)

/-- `!(request.auth == null) || resource.data.blocked == "ann"`. -/
def signedInOrBlocked : Condition :=
  .or (.not (.compare .authNullSentinel .eq .nullLiteral))
    (.compare (.resourceField "blocked") .eq (.stringLiteral "ann"))

/-- A rule that allows without the field. -/
theorem missing_never_grants_signedIn :
    (shelfContext ∅ ∅).Restricts (shelfContext blocked ∅) ∧
    (∀ name ∈ signedInOrBlocked.pathVariables,
      ¬Uncovers (shelfContext ∅ ∅) (shelfContext blocked ∅) name) ∧
    signedInOrBlocked.Settled (shelfContext ∅ ∅) (shelfContext blocked ∅) true false ∧
    evaluate signedInOrBlocked (shelfContext ∅ ∅) = .allow ∧
    evaluate signedInOrBlocked (shelfContext blocked ∅) = .allow := by
  have hnone : ∀ name ∈ signedInOrBlocked.pathVariables,
      ¬Uncovers (shelfContext ∅ ∅) (shelfContext blocked ∅) name :=
    fun name hname => absurd hname List.not_mem_nil
  have hsettled : signedInOrBlocked.Settled (shelfContext ∅ ∅) (shelfContext blocked ∅) true false :=
    ⟨trivial, trivial⟩
  have hallow : evaluate signedInOrBlocked (shelfContext ∅ ∅) = .allow := by
    simp [signedInOrBlocked, evaluate, evalBool, compareOperands, shelfContext, orElseMissing]
  exact ⟨restricts_blocked, hnone, hsettled, hallow,
    missing_never_grants restricts_blocked hnone hsettled hallow⟩

/-- `!(request.auth.uid in [resource.data.blocked])`. -/
def notBlocked : Condition := .not (.isIn .authUid (.listLiteral [.resourceField "blocked"]))

/-- `request.path.shelf == "book"`. -/
def bookShelf : Condition := .compare (.pathVariable "shelf") .eq (.stringLiteral "book")

/-- Removing the list of blocked callers lets one in, and so does removing the binding of the
shelf, which leaves the name of the document in its place. -/
theorem removed_item_grants :
    ((shelfContext ∅ ∅).Restricts (shelfContext blocked ∅) ∧
      evaluate notBlocked (shelfContext ∅ ∅) = .allow ∧
      evaluate notBlocked (shelfContext blocked ∅) = .deny) ∧
    ((shelfContext ∅ ∅).Restricts (shelfContext ∅ shelves) ∧
      evaluate bookShelf (shelfContext ∅ ∅) = .allow ∧
      evaluate bookShelf (shelfContext ∅ shelves) = .deny) := by
  refine ⟨⟨restricts_blocked, ?_, ?_⟩, ⟨restricts_shelves, ?_, ?_⟩⟩
  · simp [notBlocked, evaluate, evalBool, resolveFieldValue, itemMatches, shelfContext]
  · simp [notBlocked, evaluate, evalBool, resolveFieldValue, itemMatches, shelfContext, blocked]
  · simp [bookShelf, evaluate, evalBool, compareOperands, resolveFieldValue, resolvePathVariable,
      shelfContext, FieldValue.eqv, FieldValue.eqvWith]
  · simp [bookShelf, evaluate, evalBool, compareOperands, resolveFieldValue, resolvePathVariable,
      shelfContext, shelves, FieldValue.eqv, FieldValue.eqvWith]

end Embyr
