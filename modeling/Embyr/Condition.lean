import Embyr.Document
import Embyr.Lib.Text

/-!
# Rule conditions and their evaluation

The condition language of a security rule (`access_control/mod.rs`): syntax,
evaluation context and the three-valued evaluator.

* `Condition`, `Operand`, `PathTemplate` — the syntax the parser builds.
* `EvalContext` — everything a condition can look at: caller, stored and proposed
  fields, path variables, clock, pre-fetched other documents.
* `evalBool` — truth, falsity, or `none` for the source's `Err(FieldMissing)`:
  something the condition names is not there. `evaluate` collapses the third
  value to `deny`.
* `discoverCrossDocumentPaths` — the documents an evaluation may look up, computed
  before it so that they can be fetched.

Machine integers wrap, as in the source's release build.
-/

namespace Embyr

open Binary64

/-! ## Syntax -/

/-- A segment of a `get()`/`exists()` path. -/
inductive PathTemplateSegment where
  | literal (s : String)
  /-- `$(request.auth.uid)` -/
  | authUid
  /-- `$(request.path.<name>)` -/
  | pathVariable (name : String)
  deriving DecidableEq

/-- A `get()`/`exists()` path below `/databases/$(database)/documents`. -/
structure PathTemplate where
  segments : List PathTemplateSegment
  deriving DecidableEq

inductive ArithmeticOp where
  | add
  | sub
  deriving DecidableEq

inductive DurationUnit where
  | seconds
  | minutes
  | hours
  | days
  deriving DecidableEq

/-- `DurationUnit::as_seconds`. -/
def DurationUnit.asSeconds (amount : Int64) : DurationUnit → Int64
  | .seconds => amount
  | .minutes => amount * 60
  | .hours => amount * 3600
  | .days => amount * 86400

inductive CompareOp where
  | eq
  | ne
  | lt
  | le
  | gt
  | ge
  deriving DecidableEq

inductive Operand where
  /-- `request.auth.uid` -/
  | authUid
  /-- `request.auth` -/
  | authNullSentinel
  /-- `resource.data.<name>` -/
  | resourceField (name : String)
  /-- `request.resource.data.<name>` -/
  | requestResourceField (name : String)
  /-- `request.auth.token.<claim>` -/
  | authTokenClaim (claim : String)
  | boolLiteral (b : Bool)
  | nullLiteral
  | stringLiteral (s : String)
  /-- `request.path.<name>` -/
  | pathVariable (name : String)
  | intLiteral (i : Int64)
  | doubleLiteral (d : Double)
  | listLiteral (items : List Operand)
  /-- `request.time` -/
  | requestTime
  | arithmetic (left : Operand) (op : ArithmeticOp) (right : Operand)
  | durationLiteral (amount : Int64) (unit : DurationUnit)
  /-- `exists(<template>)` -/
  | crossDocumentExists (template : PathTemplate)
  /-- `get(<template>).data.<field>` -/
  | crossDocumentGet (template : PathTemplate) (field : String)

inductive Condition where
  | literal (b : Bool)
  | compare (left : Operand) (op : CompareOp) (right : Operand)
  | and (left right : Condition)
  | or (left right : Condition)
  | not (inner : Condition)
  /-- `<operand> in <list literal>` -/
  | isIn (left list : Operand)

/-! ## The evaluation context -/

/-- The verified caller (`AuthContext`). -/
structure AuthContext where
  uid : String
  claims : StrMap FieldValue

/-- `EvalContext`. -/
structure EvalContext where
  auth : Option AuthContext
  /-- the stored document's fields, empty where there is none -/
  resourceFields : Fields
  /-- the proposed document's fields, empty for reads and deletes -/
  requestResourceFields : Fields
  /-- the leaf path variable, `none` at call sites that do not supply it -/
  pathVariableValue : Option String
  ancestorPathVariableValues : StrMap String
  requestTime : Option FieldValue
  /-- other documents by path, absent ones as `none` -/
  crossDocumentReads : StrMap (Option FirestoreDocument)

inductive EvaluationOutcome where
  | allow
  | deny
  deriving DecidableEq

/-! ## Resolving operands -/

/-- The value of the path variable `name`: an ancestor capture of that name, else
the leaf capture, whatever its name. -/
def resolvePathVariable (leaf : Option String) (ancestors : StrMap String) (name : String) :
    Option String :=
  ancestors[name]?.or leaf

/-- One step of `resolve_path_template`. -/
def resolveTemplateSegment (auth : Option AuthContext) (leaf : Option String)
    (ancestors : StrMap String) : PathTemplateSegment → Option String
  | .literal s => some s
  | .authUid => auth.map (·.uid)
  | .pathVariable name => resolvePathVariable leaf ancestors name

/-- `resolve_path_template`: the concrete path, segments joined by `/`. -/
def resolvePathTemplate (template : PathTemplate) (auth : Option AuthContext)
    (leaf : Option String) (ancestors : StrMap String) : Option String :=
  (template.segments.mapM (resolveTemplateSegment auth leaf ancestors)).map (Text.join '/')

/-- The document an evaluation finds under `path` among the pre-fetched ones. -/
def EvalContext.crossDocument (ctx : EvalContext) (path : String) : Option FirestoreDocument :=
  ctx.crossDocumentReads[path]?.join

/-- `resolve_path_template` on the context's own bindings. -/
def EvalContext.resolveTemplate (ctx : EvalContext) (template : PathTemplate) : Option String :=
  resolvePathTemplate template ctx.auth ctx.pathVariableValue ctx.ancestorPathVariableValues

/-- `+` and `-` on two resolved values: two integers or two doubles. -/
def arithmeticValue (op : ArithmeticOp) : FieldValue → FieldValue → Option FieldValue
  | .integer l, .integer r =>
    some (.integer (match op with | .add => l + r | .sub => l - r))
  | .double l, .double r =>
    some (.double (match op with | .add => l.add r | .sub => l.sub r))
  | _, _ => none

/-- A timestamp moved by a duration. -/
def shiftTimestamp (op : ArithmeticOp) (secs : Int64) (nanos : Int32) (offset : Int64) :
    FieldValue :=
  .timestamp (match op with | .add => secs + offset | .sub => secs - offset) nanos

/-- The value of a sum or difference: a timestamp and a duration, or two numbers. -/
def arithmeticResult (op : ArithmeticOp) (leftValue : FieldValue) (right : Operand)
    (rightValue : Option FieldValue) : Option FieldValue :=
  match leftValue, right with
  | .timestamp secs nanos, .durationLiteral amount unit =>
    some (shiftTimestamp op secs nanos (unit.asSeconds amount))
  | leftValue, _ => rightValue.bind (arithmeticValue op leftValue)

/-- `resolve_field_value`. List and duration literals have no value of their own. -/
def resolveFieldValue (ctx : EvalContext) : Operand → Option FieldValue
  | .resourceField name => ctx.resourceFields[name]?
  | .requestResourceField name => ctx.requestResourceFields[name]?
  | .boolLiteral b => some (.boolean b)
  | .nullLiteral => some .null
  | .stringLiteral s => some (.string s)
  | .authTokenClaim key => ctx.auth.bind fun auth => auth.claims[key]?
  | .authUid | .authNullSentinel => ctx.auth.map fun auth => .string auth.uid
  | .pathVariable name =>
    (resolvePathVariable ctx.pathVariableValue ctx.ancestorPathVariableValues name).map .string
  | .intLiteral i => some (.integer i)
  | .doubleLiteral d => some (.double d)
  | .listLiteral _ => none
  | .requestTime => ctx.requestTime
  | .arithmetic left op right => do
    let leftValue ← resolveFieldValue ctx left
    arithmeticResult op leftValue right (resolveFieldValue ctx right)
  | .durationLiteral _ _ => none
  | .crossDocumentExists template => do
    let path ← ctx.resolveTemplate template
    some (.boolean (ctx.crossDocument path).isSome)
  | .crossDocumentGet template field => do
    let path ← ctx.resolveTemplate template
    let doc ← ctx.crossDocument path
    doc.fields[field]?

/-! ## Comparing -/

/-- `numeric_value`. -/
def numericValue : FieldValue → Option Double
  | .integer i => some (.ofInt i.toInt)
  | .double d => some d
  | _ => none

/-- A relational operator read off a comparison; a comparison with NaN satisfies
none of them. -/
def CompareOp.holds : CompareOp → Option Ordering → Bool
  | .lt, c => c = some .lt
  | .le, c => c = some .lt || c = some .eq
  | .gt, c => c = some .gt
  | .ge, c => c = some .gt || c = some .eq
  -- the source's `unreachable!` arms: `==` and `!=` never get here
  | .eq, _ | .ne, _ => false

/-- `compare_relational`: timestamps by seconds then nanoseconds, otherwise as
doubles; anything else does not compare. -/
def compareRelational (op : CompareOp) : FieldValue → FieldValue → Bool
  | .timestamp s n, .timestamp t m =>
    op.holds (some ((compare s.toInt t.toInt).then (compare n.toInt m.toInt)))
  | left, right =>
    match numericValue left, numericValue right with
    | some l, some r => op.holds (l.partialCmp r)
    | _, _ => false

/-- The caller's uid against a field: both must be there, and the field must be
that string. -/
def uidEqualsField (ctx : EvalContext) (fields : Fields) (name : String) : Option Bool := do
  let auth ← ctx.auth
  let field ← fields[name]?
  some (field = .string auth.uid)

/-- `compare_operands`. -/
def compareOperands (ctx : EvalContext) : Operand → Operand → Option Bool
  | .authUid, .resourceField name | .resourceField name, .authUid =>
    uidEqualsField ctx ctx.resourceFields name
  | .authUid, .requestResourceField name | .requestResourceField name, .authUid =>
    uidEqualsField ctx ctx.requestResourceFields name
  -- `request.auth == null` asks whether anybody is signed in
  | .authNullSentinel, .nullLiteral | .nullLiteral, .authNullSentinel
  | .authUid, .nullLiteral | .nullLiteral, .authUid => some ctx.auth.isNone
  | left, right => do
    let leftValue ← resolveFieldValue ctx left
    let rightValue ← resolveFieldValue ctx right
    some (leftValue.eqv rightValue)

/-! ## Evaluating -/

/-- Three-valued disjunction: a definite `true` on either side wins. -/
def orElseMissing : Option Bool → Option Bool → Option Bool
  | some true, _ | _, some true => some true
  | some false, some false => some false
  | _, _ => none

/-- Does a list item match? An item that does not resolve matches nothing. -/
def itemMatches (ctx : EvalContext) (value : FieldValue) (item : Operand) : Bool :=
  match resolveFieldValue ctx item with
  | some v => v.eqv value
  | none => false

/-- `eval_bool`; `none` is `Err(FieldMissing)`. -/
def evalBool (ctx : EvalContext) : Condition → Option Bool
  | .literal b => some b
  | .not inner => (evalBool ctx inner).map (!·)
  | .and left right => do
    let l ← evalBool ctx left
    if l then evalBool ctx right else some false
  | .or left right => orElseMissing (evalBool ctx left) (evalBool ctx right)
  | .compare left .eq right => compareOperands ctx left right
  | .compare left .ne right => (compareOperands ctx left right).map (!·)
  | .compare left op right => do
    let leftValue ← resolveFieldValue ctx left
    let rightValue ← resolveFieldValue ctx right
    some (compareRelational op leftValue rightValue)
  | .isIn left list => do
    let value ← resolveFieldValue ctx left
    match list with
    | .listLiteral items => some (items.any (itemMatches ctx value))
    | _ => some false

/-- `evaluate`: whatever is not a definite `true` denies. -/
def evaluate (condition : Condition) (ctx : EvalContext) : EvaluationOutcome :=
  match evalBool ctx condition with
  | some true => .allow
  | _ => .deny

@[simp] theorem evaluate_eq_allow_iff {condition : Condition} {ctx : EvalContext} :
    evaluate condition ctx = .allow ↔ evalBool ctx condition = some true := by
  unfold evaluate
  split <;> simp_all

theorem evalBool_and_eq_true {ctx : EvalContext} {left right : Condition} :
    evalBool ctx (.and left right) = some true ↔
      evalBool ctx left = some true ∧ evalBool ctx right = some true := by
  rcases hl : evalBool ctx left with _ | _ | _ <;> simp [evalBool, hl]

/-! ## Finding the documents a condition names -/

mutual

/-- `walk_operand_for_cross_document_paths`: a template that does not resolve adds
nothing. -/
def operandCrossDocumentPaths (resolve : PathTemplate → Option String) : Operand → List String
  | .crossDocumentExists template | .crossDocumentGet template _ => (resolve template).toList
  | .arithmetic left _ right =>
    operandCrossDocumentPaths resolve left ++ operandCrossDocumentPaths resolve right
  | .listLiteral items => itemsCrossDocumentPaths resolve items
  | _ => []

/-- The walk over the items of a list literal. -/
def itemsCrossDocumentPaths (resolve : PathTemplate → Option String) : List Operand → List String
  | [] => []
  | item :: items =>
    operandCrossDocumentPaths resolve item ++ itemsCrossDocumentPaths resolve items

end

/-- `walk_condition_for_cross_document_paths`. -/
def conditionCrossDocumentPaths (resolve : PathTemplate → Option String) :
    Condition → List String
  | .literal _ => []
  | .not inner => conditionCrossDocumentPaths resolve inner
  | .and left right | .or left right =>
    conditionCrossDocumentPaths resolve left ++ conditionCrossDocumentPaths resolve right
  | .compare left _ right | .isIn left right =>
    operandCrossDocumentPaths resolve left ++ operandCrossDocumentPaths resolve right

/-- `discover_cross_document_paths`. The source collects a `BTreeSet`; only which
paths occur matters to the caller. -/
def discoverCrossDocumentPaths (condition : Condition) (auth : Option AuthContext)
    (leaf : Option String) (ancestors : StrMap String) : List String :=
  conditionCrossDocumentPaths (resolvePathTemplate · auth leaf ancestors) condition

end Embyr
