import Embyr.FilterTranslation
import Embyr.StoredValue
import Embyr.Lib.Sql

/-!
# The SQL text of a filter

`append_filter` writes a filter into a query builder: text is pushed as it is,
values are bound, and the builder writes a numbered placeholder for each.

* `Push`, `sqlText`, `binds` — a builder as the list of what was pushed, the text
  it holds and the parameters it binds.
* `appendFieldFilter`, `appendFilter` — what the source pushes; `none` is a panic.
* `SqlAtom`, `FieldPredicate`, `fieldPredicate` — the predicate a field filter is
  written as, with its tokens.
* `writes_fieldFilter` — the text of an accepted field filter is read back as the
  tokens of its predicate, whatever stands before and after it.
-/

namespace Embyr

open Binary64 Sql

/-! ## The builder -/

/-- A bound parameter, with the type it is bound at. -/
inductive Bind where
  | bigint (i : Int64)
  | int4 (n : Int32)
  | float8 (d : Double)
  | boolean (b : Bool)
  | text (s : String)
  | json (j : Json)

/-- What is appended to a builder: text as it is, or a bound parameter. -/
inductive Push where
  | text (s : String)
  | bind (b : Bind)

/-- The text of a builder, `bound` parameters being bound before. -/
def sqlText (bound : ℕ) : List Push → List Char
  | [] => []
  | .text s :: pushes => s.toList ++ sqlText bound pushes
  | .bind _ :: pushes => '$' :: Nat.toDigits 10 (bound + 1) ++ sqlText (bound + 1) pushes

def binds : List Push → List Bind
  | [] => []
  | .text _ :: pushes => binds pushes
  | .bind b :: pushes => b :: binds pushes

/-- The loops over targets and children: a separator before each but the first. -/
def separated (separator : String) : List (List Push) → List Push
  | [] => []
  | [pushes] => pushes
  | pushes :: rest => pushes ++ .text separator :: separated separator rest

/-! ## Field filters -/

/-- The range operators. -/
inductive RangeOp where
  | lt
  | le
  | gt
  | ge
  deriving DecidableEq

def RangeOp.text : RangeOp → String
  | .lt => "<"
  | .le => "<="
  | .gt => ">"
  | .ge => ">="

section Emission

variable (base64 : Base64)

/-- `push_scalar_comparison`; `none` is its panic on a value without an order. -/
def pushScalarComparison (fieldPath : String) (op : RangeOp) : FieldValue → Option (List Push)
  | .integer v =>
    some [.text ("(fields->'" ++ fieldPath ++ "'->>'v')::bigint " ++ op.text ++ " "),
      .bind (.bigint v)]
  | .string s => some [.text ("fields->'" ++ fieldPath ++ "'->>'v' " ++ op.text ++ " "), .bind (.text s)]
  | .double d =>
    some [.text ("(fields->'" ++ fieldPath ++ "'->>'v')::float8 " ++ op.text ++ " "),
      .bind (.float8 d)]
  | .boolean b =>
    some [.text ("(fields->'" ++ fieldPath ++ "'->>'v')::boolean " ++ op.text ++ " "),
      .bind (.boolean b)]
  | .timestamp s n =>
    some [.text ("ROW((fields->'" ++ fieldPath ++ "'->'s')::bigint, (fields->'" ++ fieldPath ++
        "'->'n')::int) " ++ op.text ++ " ROW("),
      .bind (.bigint s), .text ", ", .bind (.int4 n), .text ")"]
  | .bytes b =>
    some [.text ("decode(fields->'" ++ fieldPath ++ "'->>'v', 'base64') " ++ op.text ++ " decode("),
      .bind (.text (base64.encode b)), .text ", 'base64')"]
  | .reference r =>
    some [.text ("fields->'" ++ fieldPath ++ "'->>'v' " ++ op.text ++ " "), .bind (.text r)]
  | .null | .array _ | .map _ => none

def pushArrayContains (fieldPath : String) (target : FieldValue) : List Push :=
  [.text ("fields->'" ++ fieldPath ++ "'->'v' @> "),
    .bind (.json (.arr [fieldValueToJson base64 target])), .text "::jsonb"]

def pushValueEquality (fieldPath : String) (negate : Bool) (target : FieldValue) : List Push :=
  [.text ("fields->'" ++ fieldPath ++ "' " ++ (if negate then "!=" else "=") ++ " "),
    .bind (.json (fieldValueToJson base64 target)), .text "::jsonb"]

/-- The loop over the targets of a list operator, in brackets. -/
def pushTargets (separator : String) (push : FieldValue → List Push) (targets : List FieldValue) :
    List Push :=
  .text "(" :: separated separator (targets.map push) ++ [.text ")"]

/-- `append_field_filter`; `none` is a panic. -/
def appendFieldFilter (f : FieldFilter) : Option (List Push) :=
  let fp := f.fieldPath
  match validateFieldPath fp with
  | .error _ => none
  | .ok () =>
    match f.op, f.value with
    | .isNan, _ => some [.text ("fields->'" ++ fp ++ "'->>'v' = 'NaN'")]
    | .isNotNan, _ =>
      some [.text ("(fields->'" ++ fp ++ "' IS NULL OR fields->'" ++ fp ++ "'->>'v' != 'NaN')")]
    | .isNull, _ => some [.text ("fields->'" ++ fp ++ "'->>'t' = 'N'")]
    | .isNotNull, _ =>
      some [.text ("(fields->'" ++ fp ++ "' IS NOT NULL AND fields->'" ++ fp ++ "'->>'t' != 'N')")]
    | .lessThan, value => pushScalarComparison base64 fp .lt value
    | .lessThanOrEqual, value => pushScalarComparison base64 fp .le value
    | .greaterThan, value => pushScalarComparison base64 fp .gt value
    | .greaterThanOrEqual, value => pushScalarComparison base64 fp .ge value
    | .equal, value => some (pushValueEquality base64 fp false value)
    | .notEqual, value => some (pushValueEquality base64 fp true value)
    | .arrayContains, value => some (pushArrayContains base64 fp value)
    | .arrayContainsAny, .array [] => some [.text "FALSE"]
    | .arrayContainsAny, .array targets =>
      some (pushTargets " OR " (pushArrayContains base64 fp) targets)
    | .isIn, .array [] => some [.text "FALSE"]
    | .isIn, .array targets => some (pushTargets " OR " (pushValueEquality base64 fp false) targets)
    | .notIn, .array [] => some [.text ("fields->'" ++ fp ++ "' IS NOT NULL")]
    | .notIn, .array targets =>
      some (pushTargets " AND " (pushValueEquality base64 fp true) targets)
    | .arrayContainsAny, _ | .isIn, _ | .notIn, _ => none

/-! ## Filter trees -/

mutual

def appendFilter : QueryFilter → Option (List Push)
  | .field f => appendFieldFilter base64 f
  | .composite filters => (appendFilters filters).map (separated " AND ")
  | .compositeOr filters =>
    (appendFilters filters).map fun children =>
      .text "(" :: separated " OR " children ++ [.text ")"]

def appendFilters : List QueryFilter → Option (List (List Push))
  | [] => some []
  | f :: fs => do
    let pushes ← appendFilter f
    let rest ← appendFilters fs
    return pushes :: rest

end

end Emission

/-! ## The predicate of a field filter -/

/-- A value with an order: the targets of the range operators. -/
inductive Scalar where
  | integer (i : Int64)
  | string (s : String)
  | double (d : Double)
  | boolean (b : Bool)
  | timestamp (secs : Int64) (nanos : Int32)
  | bytes (b : List UInt8)
  | reference (r : String)

def Scalar.toValue : Scalar → FieldValue
  | .integer i => .integer i
  | .string s => .string s
  | .double d => .double d
  | .boolean b => .boolean b
  | .timestamp s n => .timestamp s n
  | .bytes b => .bytes b
  | .reference r => .reference r

def scalarOf : FieldValue → Option Scalar
  | .integer i => some (.integer i)
  | .string s => some (.string s)
  | .double d => some (.double d)
  | .boolean b => some (.boolean b)
  | .timestamp s n => some (.timestamp s n)
  | .bytes b => some (.bytes b)
  | .reference r => some (.reference r)
  | .null | .array _ | .map _ => none

/-- A predicate about one field, without AND and OR. -/
inductive SqlAtom where
  | falsity
  /-- the field is absent, or present when negated -/
  | isNull (path : String) (negate : Bool)
  /-- the stored object is the target's, or another when negated -/
  | valueEq (path : String) (negate : Bool) (target : FieldValue)
  /-- the text under a key of the stored object is a constant, or another when negated -/
  | textEq (path key : String) (negate : Bool) (constant : String)
  /-- the payload contains the one-element array of the target -/
  | contains (path : String) (target : FieldValue)
  /-- the payload, cast to the target's type, is in an order relation to it -/
  | compares (path : String) (op : RangeOp) (target : Scalar)

/-- The predicate of a field filter: an atom, or atoms in brackets. -/
inductive FieldPredicate where
  | atom (a : SqlAtom)
  | any (atoms : List SqlAtom)
  | all (atoms : List SqlAtom)

/-- The predicate a field filter is written as, its path being valid. -/
def fieldPredicate (f : FieldFilter) : Option FieldPredicate :=
  let fp := f.fieldPath
  match f.op, f.value with
  | .isNan, _ => some (.atom (.textEq fp "v" false "NaN"))
  | .isNotNan, _ => some (.any [.isNull fp false, .textEq fp "v" true "NaN"])
  | .isNull, _ => some (.atom (.textEq fp "t" false "N"))
  | .isNotNull, _ => some (.all [.isNull fp true, .textEq fp "t" true "N"])
  | .lessThan, value => (scalarOf value).map fun target => .atom (.compares fp .lt target)
  | .lessThanOrEqual, value => (scalarOf value).map fun target => .atom (.compares fp .le target)
  | .greaterThan, value => (scalarOf value).map fun target => .atom (.compares fp .gt target)
  | .greaterThanOrEqual, value => (scalarOf value).map fun target => .atom (.compares fp .ge target)
  | .equal, value => some (.atom (.valueEq fp false value))
  | .notEqual, value => some (.atom (.valueEq fp true value))
  | .arrayContains, value => some (.atom (.contains fp value))
  | .arrayContainsAny, .array [] => some (.atom .falsity)
  | .arrayContainsAny, .array targets => some (.any (targets.map (.contains fp)))
  | .isIn, .array [] => some (.atom .falsity)
  | .isIn, .array targets => some (.any (targets.map (.valueEq fp false)))
  | .notIn, .array [] => some (.atom (.isNull fp true))
  | .notIn, .array targets => some (.all (targets.map (.valueEq fp true)))
  | .arrayContainsAny, _ | .isIn, _ | .notIn, _ => none

section Tokens

variable (base64 : Base64)

/-- The parameters a range comparison binds: a timestamp binds two. -/
def Scalar.binds : Scalar → List Bind
  | .integer i => [.bigint i]
  | .string s => [.text s]
  | .double d => [.float8 d]
  | .boolean b => [.boolean b]
  | .timestamp s n => [.bigint s, .int4 n]
  | .bytes b => [.text (base64.encode b)]
  | .reference r => [.text r]

def SqlAtom.binds : SqlAtom → List Bind
  | .falsity | .isNull _ _ | .textEq _ _ _ _ => []
  | .valueEq _ _ target => [.json (fieldValueToJson base64 target)]
  | .contains _ target => [.json (.arr [fieldValueToJson base64 target])]
  | .compares _ _ target => target.binds base64

/-- The tokens of `fields->'path'`. -/
def fieldTokens (path : String) : List Sql.Token := [.word "fields", .symbol "->", .quoted path]

/-- The tokens of `fields->'path'->>'v'`. -/
def payloadTokens (path : String) : List Sql.Token := fieldTokens path ++ [.symbol "->>", .quoted "v"]

/-- The placeholder of the next parameter. -/
def nextParam (bound : ℕ) : Sql.Token := .param (String.ofList (Nat.toDigits 10 (bound + 1)))

def Scalar.tokens (bound : ℕ) (path : String) (op : RangeOp) : Scalar → List Sql.Token
  | .integer _ => .lParen :: payloadTokens path ++
      [.rParen, .symbol "::", .word "bigint", .symbol op.text, nextParam bound]
  | .double _ => .lParen :: payloadTokens path ++
      [.rParen, .symbol "::", .word "float8", .symbol op.text, nextParam bound]
  | .boolean _ => .lParen :: payloadTokens path ++
      [.rParen, .symbol "::", .word "boolean", .symbol op.text, nextParam bound]
  | .string _ | .reference _ => payloadTokens path ++ [.symbol op.text, nextParam bound]
  | .timestamp _ _ => [.word "ROW", .lParen, .lParen] ++ fieldTokens path ++
      [.symbol "->", .quoted "s", .rParen, .symbol "::", .word "bigint", .symbol ",", .lParen] ++
      fieldTokens path ++ [.symbol "->", .quoted "n", .rParen, .symbol "::", .word "int", .rParen,
        .symbol op.text, .word "ROW", .lParen, nextParam bound, .symbol ",", nextParam (bound + 1),
        .rParen]
  | .bytes _ => [.word "decode", .lParen] ++ payloadTokens path ++
      [.symbol ",", .quoted "base64", .rParen, .symbol op.text, .word "decode", .lParen,
        nextParam bound, .symbol ",", .quoted "base64", .rParen]

/-- The tokens of an atom, `bound` parameters being bound before. -/
def SqlAtom.tokens (bound : ℕ) : SqlAtom → List Sql.Token
  | .falsity => [.word "FALSE"]
  | .isNull path negate =>
    fieldTokens path ++ .word "IS" :: (if negate then [.word "NOT"] else []) ++ [.word "NULL"]
  | .valueEq path negate _ => fieldTokens path ++
      [.symbol (if negate then "!=" else "="), nextParam bound, .symbol "::", .word "jsonb"]
  | .textEq path key negate constant => fieldTokens path ++
      [.symbol "->>", .quoted key, .symbol (if negate then "!=" else "="), .quoted constant]
  | .contains path _ => fieldTokens path ++
      [.symbol "->", .quoted "v", .symbol "@>", nextParam bound, .symbol "::", .word "jsonb"]
  | .compares path op target => target.tokens bound path op

/-- Items with the number of parameters bound before each. -/
def numbered {α β : Type} (count : α → ℕ) (f : ℕ → α → β) (bound : ℕ) : List α → List β
  | [] => []
  | a :: as => f bound a :: numbered count f (bound + count a) as

def SqlAtom.bindCount (a : SqlAtom) : ℕ := (a.binds base64).length

def FieldPredicate.binds : FieldPredicate → List Bind
  | .atom a => a.binds base64
  | .any atoms | .all atoms => atoms.flatMap (SqlAtom.binds base64)

def FieldPredicate.tokens (bound : ℕ) : FieldPredicate → List Sql.Token
  | .atom a => a.tokens bound
  | .any atoms =>
    .lParen :: join orTok (numbered (SqlAtom.bindCount base64) SqlAtom.tokens bound atoms) ++ [.rParen]
  | .all atoms =>
    .lParen :: join andTok (numbered (SqlAtom.bindCount base64) SqlAtom.tokens bound atoms) ++ [.rParen]

/-- The structure of the predicate over its atoms. -/
def FieldPredicate.formula (bound : ℕ) : FieldPredicate → Formula
  | .atom a => .atom (a.tokens bound)
  | .any atoms => disj ((numbered (SqlAtom.bindCount base64) SqlAtom.tokens bound atoms).map .atom)
  | .all atoms => conj ((numbered (SqlAtom.bindCount base64) SqlAtom.tokens bound atoms).map .atom)

end Tokens

/-! ## Reading the text back -/

@[simp] theorem sqlText_append (bound : ℕ) (p q : List Push) :
    sqlText bound (p ++ q) = sqlText bound p ++ sqlText (bound + (binds p).length) q := by
  induction p generalizing bound with
  | nil => rfl
  | cons push p ih =>
    cases push with
    | text s => simp [sqlText, binds, ih]
    | bind b =>
      simp only [List.cons_append, sqlText, binds, ih, List.length_cons, List.append_assoc]
      rw [Nat.add_right_comm, Nat.add_assoc]

@[simp] theorem binds_append (p q : List Push) : binds (p ++ q) = binds p ++ binds q := by
  induction p with
  | nil => rfl
  | cons push p ih => cases push <;> simp [binds, ih]

variable {path : String}

/-- A valid path has no quote that could end the constant it is written in. -/
theorem quote_not_mem_of_valid (h : isValidFieldPath path = true) :
    '\'' ∉ path.toList := by
  unfold isValidFieldPath at h
  intro hmem
  split at h
  · simp_all
  · rename_i c rest hpath
    rw [Bool.and_eq_true] at h
    rw [hpath] at hmem
    rcases List.mem_cons.mp hmem with rfl | hmem
    · exact absurd h.1 (by decide)
    · exact absurd (List.all_eq_true.mp h.2 _ hmem) (by decide)

/-- After a path the scanner is inside the constant that the path is. -/
theorem lex_path (h : '\'' ∉ path.toList) (rest : List Char) :
    lexFrom (.quoted []) (path.toList ++ rest) = lexFrom (.quoted path.toList.reverse) rest := by
  rw [lexFrom_quoted h, List.append_nil]

theorem lex_nextParam (bound : ℕ) {rest : List Char} (hrest : Stops rest) :
    lex ('$' :: (Nat.toDigits 10 (bound + 1) ++ rest)) = nextParam bound :: lex rest := by
  have hdigits : ∀ c ∈ Nat.toDigits 10 (bound + 1), c.isDigit = true := fun c hc =>
    Nat.isDigit_of_mem_toDigits (by norm_num) (by norm_num) hc
  exact lexFrom_param hdigits hrest []

theorem lex_rangeOp (op : RangeOp) (rest : List Char) :
    lex (op.text.toList ++ ' ' :: rest) = .symbol op.text :: lex rest := by
  cases op <;> rfl

/-- Pushes write a run of tokens and bind a list of parameters, whatever stands
before and after them. -/
structure Writes (pushes : List Push) (bound : List Bind) (tokens : ℕ → List Sql.Token) : Prop where
  lexes (n : ℕ) {rest : List Char} (hrest : Stops rest) :
    lex (sqlText n pushes ++ rest) = tokens n ++ lex rest
  binds : binds pushes = bound

variable {pushes : List Push} {bound : List Bind} {tokens : ℕ → List Sql.Token}

/-- The tokens of the text alone. -/
theorem Writes.lex_eq
    (h : Writes pushes bound tokens) (n : ℕ) : lex (sqlText n pushes) = tokens n := by
  have hlex : lex (sqlText n pushes ++ []) = tokens n ++ lex [] := h.lexes n (by simp [Stops])
  simpa [lex, lexFrom, Mode.flush] using hlex

/-- The text ends where a constant begins. -/
def Opens (text : String) (ts : List Sql.Token) : Prop :=
  ∀ rest, lex (text.toList ++ rest) = ts ++ lexFrom (.quoted []) rest

/-- The text begins where a constant ends. -/
def Closes (text : String) (ts : List Sql.Token) : Prop :=
  ∀ seen rest, lexFrom (.quoted seen) (text.toList ++ rest) =
    .quoted (String.ofList seen.reverse) :: ts ++ lex rest

/-- The text stands between two constants. -/
def Separates (text : String) (ts : List Sql.Token) : Prop :=
  ∀ seen rest, lexFrom (.quoted seen) (text.toList ++ rest) =
    .quoted (String.ofList seen.reverse) :: ts ++ lexFrom (.quoted []) rest

theorem opens_fields : Opens "fields->'" [.word "fields", .symbol "->"] := fun _ => rfl

section Atoms

variable (base64 : Base64) {path : String} (hpath : '\'' ∉ path.toList)
include hpath

variable {before between after : String} {first middle last : List Sql.Token}

/-- A range comparison of the text payload, cast or not. -/
theorem writes_payload (op : RangeOp) (b : Bind) (hbefore : Opens before first)
    (hafter : Closes after last) :
    Writes [.text (before ++ path ++ after ++ op.text ++ " "), .bind b] [b]
      fun n => first ++ .quoted path :: last ++ [.symbol op.text, nextParam n] := by
  refine ⟨fun n rest hrest => ?_, rfl⟩
  have hop (rest : List Char) : lex (op.text.toList ++ (" ".toList ++ rest)) =
      .symbol op.text :: lex rest := lex_rangeOp op rest
  simp only [sqlText, String.toList_append, List.append_assoc, List.cons_append, List.nil_append]
  rw [hbefore, lex_path hpath, hafter, hop, lex_nextParam n hrest]
  simp

theorem writes_scalar (op : RangeOp) (target : Scalar) :
    ∃ pushes, pushScalarComparison base64 path op target.toValue = some pushes ∧
      Writes pushes (target.binds base64) (fun n => target.tokens n path op) := by
  have hcast : Opens "(fields->'" [.lParen, .word "fields", .symbol "->"] := fun _ => rfl
  have hclose (rest : List Char) : lex (")".toList ++ rest) = .rParen :: lex rest := rfl
  cases target with
  | integer v =>
    have hafter : Closes "'->>'v')::bigint "
      [.symbol "->>", .quoted "v", .rParen, .symbol "::", .word "bigint"] := fun _ _ => rfl
    exact ⟨_, rfl, writes_payload hpath op _ hcast hafter⟩
  | double d =>
    have hafter : Closes "'->>'v')::float8 "
      [.symbol "->>", .quoted "v", .rParen, .symbol "::", .word "float8"] := fun _ _ => rfl
    exact ⟨_, rfl, writes_payload hpath op _ hcast hafter⟩
  | boolean b =>
    have hafter : Closes "'->>'v')::boolean "
      [.symbol "->>", .quoted "v", .rParen, .symbol "::", .word "boolean"] := fun _ _ => rfl
    exact ⟨_, rfl, writes_payload hpath op _ hcast hafter⟩
  | string s | reference s =>
    have hafter : Closes "'->>'v' " [.symbol "->>", .quoted "v"] := fun _ _ => rfl
    exact ⟨_, rfl, writes_payload hpath op _ opens_fields hafter⟩
  | timestamp secs nanos =>
    refine ⟨_, rfl, fun n rest hrest => ?_, rfl⟩
    have hfirst : Opens "ROW((fields->'"
      [.word "ROW", .lParen, .lParen, .word "fields", .symbol "->"] := fun _ => rfl
    have hmiddle : Separates "'->'s')::bigint, (fields->'" [.symbol "->", .quoted "s", .rParen,
      .symbol "::", .word "bigint", .symbol ",", .lParen, .word "fields", .symbol "->"] :=
      fun _ _ => rfl
    have hlast : Closes "'->'n')::int) "
      [.symbol "->", .quoted "n", .rParen, .symbol "::", .word "int", .rParen] := fun _ _ => rfl
    have hop (rest : List Char) : lex (op.text.toList ++ (" ROW(".toList ++ rest)) =
        [.symbol op.text, .word "ROW", .lParen] ++ lex rest := by
      cases op <;> rfl
    have hcomma (rest : List Char) : lex (", ".toList ++ rest) = .symbol "," :: lex rest := rfl
    have hnext (rest : List Char) : Stops (", ".toList ++ rest) := stops_cons (by decide)
    have hlastStop (rest : List Char) : Stops (")".toList ++ rest) := stops_cons (by decide)
    simp only [sqlText, String.toList_append, List.append_assoc, List.cons_append,
      List.nil_append]
    rw [hfirst, lex_path hpath, hmiddle, lex_path hpath, hlast, hop,
      lex_nextParam n (hnext _), hcomma, lex_nextParam (n + 1) (hlastStop _), hclose]
    simp [Scalar.tokens, fieldTokens]
  | bytes b =>
    refine ⟨_, rfl, fun n rest hrest => ?_, rfl⟩
    have hfirst : Opens "decode(fields->'"
      [.word "decode", .lParen, .word "fields", .symbol "->"] := fun _ => rfl
    have hafter : Closes "'->>'v', 'base64') "
      [.symbol "->>", .quoted "v", .symbol ",", .quoted "base64", .rParen] := fun _ _ => rfl
    have hop (rest : List Char) : lex (op.text.toList ++ (" decode(".toList ++ rest)) =
        [.symbol op.text, .word "decode", .lParen] ++ lex rest := by
      cases op <;> rfl
    have hend (rest : List Char) : lex (", 'base64')".toList ++ rest) =
        [.symbol ",", .quoted "base64", .rParen] ++ lex rest := rfl
    have hnext (rest : List Char) : Stops (", 'base64')".toList ++ rest) := stops_cons (by decide)
    simp only [sqlText, String.toList_append, List.append_assoc, List.cons_append,
      List.nil_append]
    rw [hfirst, lex_path hpath, hafter, hop, lex_nextParam n (hnext _), hend]
    simp [Scalar.tokens, payloadTokens, fieldTokens]

/-- A predicate without a parameter, written as one constant text around the
path. -/
theorem writes_constant (hbefore : Opens before first)
    (hafter : ∀ seen {rest}, Stops rest → lexFrom (.quoted seen) (after.toList ++ rest) =
      .quoted (String.ofList seen.reverse) :: last ++ lex rest) :
    Writes [.text (before ++ path ++ after)] [] fun _ => first ++ .quoted path :: last := by
  refine ⟨fun n rest hrest => ?_, rfl⟩
  simp only [sqlText, String.toList_append, List.append_assoc, List.nil_append]
  rw [hbefore, lex_path hpath, hafter _ hrest]
  simp

/-- A predicate without a parameter that names the path twice. -/
theorem writes_twice (hbefore : Opens before first) (hbetween : Separates between middle)
    (hafter : Closes after last) :
    Writes [.text (before ++ path ++ between ++ path ++ after)] []
      fun _ => first ++ .quoted path :: middle ++ .quoted path :: last := by
  refine ⟨fun n rest hrest => ?_, rfl⟩
  simp only [sqlText, String.toList_append, List.append_assoc, List.nil_append]
  rw [hbefore, lex_path hpath, hbetween, lex_path hpath, hafter]
  simp

/-- A comparison with a bound JSON value. -/
theorem writes_json (j : Json) (hafter : Closes after last) :
    Writes [.text ("fields->'" ++ path ++ after), .bind (.json j), .text "::jsonb"] [.json j]
      fun n => fieldTokens path ++ last ++ [nextParam n, .symbol "::", .word "jsonb"] := by
  refine ⟨fun n rest hrest => ?_, rfl⟩
  have hcast : lex ("::jsonb".toList ++ rest) = [.symbol "::", .word "jsonb"] ++ lex rest :=
    (congrArg (Sql.Token.symbol "::" :: ·) (lexFrom_word hrest _)).trans rfl
  have hnext : Stops ("::jsonb".toList ++ rest) := stops_cons (by decide)
  simp only [sqlText, String.toList_append, List.append_assoc, List.cons_append, List.nil_append]
  rw [opens_fields, lex_path hpath, hafter, lex_nextParam n hnext, hcast]
  simp [fieldTokens]

theorem writes_valueEq (negate : Bool) (target : FieldValue) :
    Writes (pushValueEquality base64 path negate target)
      ((SqlAtom.valueEq path negate target).binds base64)
      (SqlAtom.valueEq path negate target).tokens := by
  have htext (op : String) : "fields->'" ++ path ++ "' " ++ op ++ " " =
      "fields->'" ++ path ++ ("' " ++ op ++ " ") := by
    simp only [String.append_assoc]
  rw [pushValueEquality, htext]
  cases negate with
  | false =>
    have hafter : Closes "' = " [.symbol "="] := fun _ _ => rfl
    exact writes_json hpath _ hafter
  | true =>
    have hafter : Closes "' != " [.symbol "!="] := fun _ _ => rfl
    exact writes_json hpath _ hafter

theorem writes_contains (target : FieldValue) :
    Writes (pushArrayContains base64 path target) ((SqlAtom.contains path target).binds base64)
      (SqlAtom.contains path target).tokens :=
  have hafter : Closes "'->'v' @> " [.symbol "->", .quoted "v", .symbol "@>"] := fun _ _ => rfl
  writes_json hpath _ hafter

end Atoms

/-! ### Lists and brackets -/

theorem Writes.group (h : Writes pushes bound tokens) :
    Writes (.text "(" :: pushes ++ [.text ")"]) bound fun n => .lParen :: tokens n ++ [.rParen] := by
  refine ⟨fun n rest hrest => ?_, by simp [Embyr.binds, h.binds]⟩
  have hopen (rest : List Char) : lex ("(".toList ++ rest) = .lParen :: lex rest := rfl
  have hclose (rest : List Char) : lex (")".toList ++ rest) = .rParen :: lex rest := rfl
  have hstop (rest : List Char) : Stops (")".toList ++ rest) := stops_cons (by decide)
  simp only [List.cons_append, sqlText, sqlText_append, List.append_assoc, List.nil_append]
  rw [hopen, h.lexes n (hstop _), hclose]

variable {separator : String} {sep : Sql.Token}

/-- Items written one after another with a separator between them. -/
theorem writes_separated {α : Type}
    (hsep : ∀ rest, lex (separator.toList ++ rest) = sep :: lex rest)
    (hstop : ∀ rest, Stops (separator.toList ++ rest)) {push : α → List Push}
    {bindsOf : α → List Bind} {tokens : ℕ → α → List Sql.Token} {items : List α} (hne : items ≠ [])
    (h : ∀ a ∈ items, Writes (push a) (bindsOf a) fun n => tokens n a) :
    Writes (separated separator (items.map push)) (items.flatMap bindsOf) fun n =>
      join sep (numbered (fun a => (bindsOf a).length) tokens n items) := by
  induction items with
  | nil => exact absurd rfl hne
  | cons a items ih =>
    have ha := h a List.mem_cons_self
    cases items with
    | nil => exact ⟨ha.lexes, by simpa [separated] using ha.binds⟩
    | cons b items =>
      have hrest := ih (by simp) (List.forall_mem_cons.mp h).2
      refine ⟨fun n rest hstops => ?_, ?_⟩
      · simp only [List.map_cons, separated, sqlText_append, sqlText, List.append_assoc]
        have hrestn := hrest.lexes (n + (bindsOf a).length) hstops
        rw [List.map_cons] at hrestn
        rw [ha.lexes n (hstop _), hsep, ha.binds, hrestn]
        simp [numbered, join]
      · have hbinds := hrest.binds
        rw [List.map_cons] at hbinds
        simp [separated, binds, ha.binds, hbinds]

theorem lex_or (rest : List Char) : lex (" OR ".toList ++ rest) = orTok :: lex rest := rfl

theorem lex_and (rest : List Char) : lex (" AND ".toList ++ rest) = andTok :: lex rest := rfl

theorem stops_or (rest : List Char) : Stops (" OR ".toList ++ rest) := stops_cons (by decide)

theorem stops_and (rest : List Char) : Stops (" AND ".toList ++ rest) := stops_cons (by decide)

section Fields

variable (base64 : Base64)

theorem numbered_map {α β γ : Type} (count : β → ℕ) (f : ℕ → β → γ) (g : α → β) (bound : ℕ)
    (items : List α) :
    numbered count f bound (items.map g) =
      numbered (fun a => count (g a)) (fun n a => f n (g a)) bound items := by
  induction items generalizing bound with
  | nil => rfl
  | cons a items ih => simp [numbered, ih]

/-- The targets of a list operator, one atom each. -/
theorem writes_targets (hsep : ∀ rest, lex (separator.toList ++ rest) = sep :: lex rest)
    (hstop : ∀ rest, Stops (separator.toList ++ rest)) {push : FieldValue → List Push}
    {mk : FieldValue → SqlAtom}
    (h : ∀ t, Writes (push t) ((mk t).binds base64) fun n => (mk t).tokens n)
    {targets : List FieldValue} (hne : targets ≠ []) :
    Writes (pushTargets separator push targets) ((targets.map mk).flatMap (SqlAtom.binds base64))
      fun n => .lParen :: join sep
        (numbered (SqlAtom.bindCount base64) SqlAtom.tokens n (targets.map mk)) ++ [.rParen] := by
  have hlist := (writes_separated hsep hstop hne fun t _ => h t).group
  simp only [numbered_map, List.flatMap_map]
  exact hlist

variable {op : FilterOp} {value : FieldValue}

theorem exists_scalar (hop : op.isRange = true) (h : shapeError op value = none) :
    ∃ target : Scalar, value = target.toValue ∧ scalarOf value = some target := by
  cases value with
  | null | array | map => simp [shapeError, hop] at h
  | boolean b => exact ⟨.boolean b, rfl, rfl⟩
  | integer i => exact ⟨.integer i, rfl, rfl⟩
  | double d => exact ⟨.double d, rfl, rfl⟩
  | timestamp s n => exact ⟨.timestamp s n, rfl, rfl⟩
  | string s => exact ⟨.string s, rfl, rfl⟩
  | bytes b => exact ⟨.bytes b, rfl, rfl⟩
  | reference r => exact ⟨.reference r, rfl, rfl⟩

theorem exists_targets {name : String} (hop : op.listName = some name)
    (h : shapeError op value = none) :
    ∃ targets, value = .array targets := by
  cases value with
  | array targets => exact ⟨targets, rfl⟩
  | null | map | boolean | integer | double | timestamp | string | bytes | reference =>
    cases op <;> simp [shapeError, FilterOp.listName, FilterOp.isRange] at h hop

theorem writes_range (hpath : '\'' ∉ path.toList) (rangeOp : RangeOp) (hop : op.isRange = true)
    (hshape : shapeError op value = none) :
    ∃ pushes pred, pushScalarComparison base64 path rangeOp value = some pushes ∧
      (scalarOf value).map (fun target => .atom (.compares path rangeOp target)) = some pred ∧
      Writes pushes (FieldPredicate.binds base64 pred) fun n => pred.tokens base64 n := by
  obtain ⟨target, rfl, htarget⟩ := exists_scalar hop hshape
  obtain ⟨pushes, hpushes, hwrites⟩ := writes_scalar base64 hpath rangeOp target
  exact ⟨pushes, .atom (.compares path rangeOp target), hpushes, congrArg (Option.map _) htarget,
    hwrites⟩

/-- Every accepted field filter is written as its predicate. -/
theorem writes_fieldFilter {f : FieldFilter} (hvalid : isValidFieldPath f.fieldPath = true)
    (hshape : shapeError f.op f.value = none) :
    ∃ pushes pred, appendFieldFilter base64 f = some pushes ∧ fieldPredicate f = some pred ∧
      Writes pushes (pred.binds base64) fun n => pred.tokens base64 n := by
  obtain ⟨path, op, value⟩ := f
  have hpath : '\'' ∉ path.toList := quote_not_mem_of_valid hvalid
  have hok : validateFieldPath path = .ok () := if_pos hvalid
  simp only [appendFieldFilter, hok, fieldPredicate]
  have hgroup : Opens "(fields->'" [.lParen, .word "fields", .symbol "->"] := fun _ => rfl
  cases op with
  | lessThan => exact writes_range base64 hpath .lt rfl hshape
  | lessThanOrEqual => exact writes_range base64 hpath .le rfl hshape
  | greaterThan => exact writes_range base64 hpath .gt rfl hshape
  | greaterThanOrEqual => exact writes_range base64 hpath .ge rfl hshape
  | equal => exact ⟨_, _, rfl, rfl, writes_valueEq base64 hpath false value⟩
  | notEqual => exact ⟨_, _, rfl, rfl, writes_valueEq base64 hpath true value⟩
  | arrayContains => exact ⟨_, _, rfl, rfl, writes_contains base64 hpath value⟩
  | isNan =>
    exact ⟨_, _, rfl, rfl, writes_constant hpath opens_fields fun _ _ _ => rfl⟩
  | isNotNan =>
    have hbetween : Separates "' IS NULL OR fields->'"
      [.word "IS", .word "NULL", orTok, .word "fields", .symbol "->"] := fun _ _ => rfl
    have hafter : Closes "'->>'v' != 'NaN')"
      [.symbol "->>", .quoted "v", .symbol "!=", .quoted "NaN", .rParen] := fun _ _ => rfl
    exact ⟨_, _, rfl, rfl, writes_twice hpath hgroup hbetween hafter⟩
  | isNull =>
    exact ⟨_, _, rfl, rfl, writes_constant hpath opens_fields fun _ _ _ => rfl⟩
  | isNotNull =>
    have hbetween : Separates "' IS NOT NULL AND fields->'"
      [.word "IS", .word "NOT", .word "NULL", andTok, .word "fields", .symbol "->"] := fun _ _ => rfl
    have hafter : Closes "'->>'t' != 'N')"
      [.symbol "->>", .quoted "t", .symbol "!=", .quoted "N", .rParen] := fun _ _ => rfl
    exact ⟨_, _, rfl, rfl, writes_twice hpath hgroup hbetween hafter⟩
  | isIn =>
    obtain ⟨targets, rfl⟩ := exists_targets rfl hshape
    cases targets with
    | nil => exact ⟨_, _, rfl, rfl, ⟨fun n rest hrest => lexFrom_word hrest _, rfl⟩⟩
    | cons t targets =>
      exact ⟨_, _, rfl, rfl, writes_targets base64 lex_or stops_or
        (writes_valueEq base64 hpath false) (by simp)⟩
  | notIn =>
    obtain ⟨targets, rfl⟩ := exists_targets rfl hshape
    cases targets with
    | nil =>
      refine ⟨_, _, rfl, rfl, ?_⟩
      exact writes_constant hpath opens_fields fun seen rest hrest =>
          congrArg (fun ts => Sql.Token.quoted (String.ofList seen.reverse) :: Sql.Token.word "IS" ::
            Sql.Token.word "NOT" :: ts) (lexFrom_word hrest ['L', 'L', 'U', 'N'])
    | cons t targets =>
      exact ⟨_, _, rfl, rfl, writes_targets base64 lex_and stops_and
        (writes_valueEq base64 hpath true) (by simp)⟩
  | arrayContainsAny =>
    obtain ⟨targets, rfl⟩ := exists_targets rfl hshape
    cases targets with
    | nil => exact ⟨_, _, rfl, rfl, ⟨fun n rest hrest => lexFrom_word hrest _, rfl⟩⟩
    | cons t targets =>
      exact ⟨_, _, rfl, rfl, writes_targets base64 lex_or stops_or
        (writes_contains base64 hpath) (by simp)⟩

end Fields

end Embyr
