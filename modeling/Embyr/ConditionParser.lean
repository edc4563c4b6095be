import Embyr.Condition

/-!
# Parsing rule conditions

`parse_condition` (`access_control/mod.rs`): a quote-aware scan for constructs
outside the grammar, a tokenizer, and a recursive-descent parser.

The source walks indices into a character vector; here every scanner takes the
characters still to be read, together with the index they start at, which only
the error texts use. The parser takes the tokens still to be read and returns the
rest. Both are driven by fuel that exceeds what the input can consume: each
tokenizer step eats a character, and at most four nested parser calls pass between
two eaten tokens.
-/

namespace Embyr

open Binary64

/-! ## Errors -/

inductive UnsupportedConstruct where
  | customFunction
  | wildcardPath
  | unsupportedExpressionGrammar
  deriving DecidableEq

inductive ConditionParseError where
  | syntaxError (detail : String)
  | unsupportedConstruct (construct : UnsupportedConstruct) (detail : String)
  deriving DecidableEq

/-- Results of the parser. -/
abbrev ParseResult (α : Type) : Type := Except ConditionParseError α

/-- `Err(syntax_error(detail))`. -/
def syntaxError {α : Type} (detail : String) : ParseResult α := .error (.syntaxError detail)

/-- A recognised shape outside the grammar. -/
def unsupportedGrammar {α : Type} (detail : String) : ParseResult α :=
  .error (.unsupportedConstruct .unsupportedExpressionGrammar detail)

/-! ## Constructs outside the grammar -/

/-- The source with every double-quoted span, quotes included, blanked out. -/
def maskQuoted (inQuotes : Bool) : List Char → List Char
  | [] => []
  | c :: cs =>
    if c = '"' then ' ' :: maskQuoted (!inQuotes) cs
    else (if inQuotes then ' ' else c) :: maskQuoted inQuotes cs

/-- First character of an identifier. -/
def isIdentStart (c : Char) : Bool := c.isAlpha || c == '_'

/-- Further character of an identifier; dots are part of it. -/
def isIdentChar (c : Char) : Bool := c.isAlphanum || c == '_' || c == '.'

/-- The first identifier directly followed by `(`, other than the calls the grammar
knows. `ident` is the identifier being read. -/
def findCustomCall (ident : Option (List Char)) : List Char → Option String
  | [] => none
  | c :: cs =>
    match ident with
    | some word =>
      if isIdentChar c then findCustomCall (some (word ++ [c])) cs
      else if c = '(' ∧
          String.ofList word ∉ ["duration.value", "get", "exists"] then
        some (String.ofList word)
      else findCustomCall none cs
    | none => findCustomCall (if isIdentStart c then some [c] else none) cs

/-- `detect_unsupported_construct`. -/
def detectUnsupportedConstruct (source : String) : Option ConditionParseError :=
  let masked := maskQuoted false source.toList
  if Text.containsStr "**" (String.ofList masked) || masked.contains '\x7b' then
    some (.unsupportedConstruct .wildcardPath
      "wildcard/recursive path matching is not supported in v1")
  else
    (findCustomCall none masked).map fun ident =>
      .unsupportedConstruct .customFunction
        s!"custom function calls ('{ident}(...)') are not supported in v1"

/-! ## Tokens -/

inductive Token where
  | lParen
  | rParen
  | and
  | or
  | not
  | eq
  | ne
  | word (w : String)
  /-- double-quoted, quotes stripped -/
  | stringLiteral (s : String)
  | intLiteral (i : Int64)
  | doubleLiteral (d : Double)
  | lt
  | le
  | gt
  | ge
  | lBracket
  | rBracket
  | comma
  | plus
  | minus
  /-- single-quoted, the unit of a duration -/
  | singleQuotedUnit (u : String)
  | existsCall (rawPath : String)
  | getCall (rawPath field : String)
  deriving DecidableEq

/-- `char::is_whitespace`: the Unicode property `White_Space`. -/
def isWhitespace (c : Char) : Bool :=
  let n := c.toNat
  (9 ≤ n && n ≤ 13) || n == 0x20 || n == 0x85 || n == 0xA0 || n == 0x1680 ||
    (0x2000 ≤ n && n ≤ 0x200A) || n == 0x2028 || n == 0x2029 || n == 0x202F ||
    n == 0x205F || n == 0x3000

/-- The number a run of ASCII digits denotes. -/
def digitsValue (digits : List Char) : ℕ :=
  digits.foldl (fun n c => n * 10 + (c.toNat - '0'.toNat)) 0

/-- `str::parse::<i64>` on an optional sign and digits. -/
def parseI64 (negative : Bool) (digits : List Char) : Option Int64 :=
  let n : ℤ := if negative then -(digitsValue digits : ℤ) else digitsValue digits
  if -2 ^ 63 ≤ n ∧ n < 2 ^ 63 then some (.ofInt n) else none

/-- A numeric literal; `cs` starts with its first digit, which stands at `i`. -/
def scanNumber (negative : Bool) (i : ℕ) (cs : List Char) : ParseResult (Token × List Char) :=
  let whole := cs.takeWhile (·.isDigit)
  let rest := cs.dropWhile (·.isDigit)
  let sign := if negative then "-" else ""
  match rest with
  | '.' :: rest =>
    let frac := rest.takeWhile (·.isDigit)
    if frac.isEmpty then
      let pos := i + whole.length
      syntaxError s!"expected a digit after '.' in numeric literal at position {pos}"
    else
      .ok (.doubleLiteral (.ofDecimal negative (digitsValue (whole ++ frac)) frac.length),
        rest.dropWhile (·.isDigit))
  | rest =>
    match parseI64 negative whole with
    | some value => .ok (.intLiteral value, rest)
    | none =>
      let text := sign ++ String.ofList whole
      syntaxError s!"invalid integer literal '{text}'"

/-- `find_matching_paren`: the text up to the parenthesis that closes `depth` open
ones, and what follows it. -/
def findMatchingParen (depth : ℕ) : List Char → Option (List Char × List Char)
  | [] => none
  | '(' :: cs => (findMatchingParen (depth + 1) cs).map fun (inside, rest) => ('(' :: inside, rest)
  | ')' :: cs =>
    if depth ≤ 1 then some ([], cs)
    else (findMatchingParen (depth - 1) cs).map fun (inside, rest) => (')' :: inside, rest)
  | c :: cs => (findMatchingParen depth cs).map fun (inside, rest) => (c :: inside, rest)

/-- The argument of a call whose `(` ends just before index `start`. -/
def scanCallArgument (start : ℕ) (cs : List Char) : ParseResult (String × List Char) :=
  match findMatchingParen 1 cs with
  | some (inside, rest) => .ok (String.ofList inside, rest)
  | none => syntaxError s!"unterminated '(' starting search at position {start}"

/-- The rest of a `get(` call: the path and the required `.data.<field>`. -/
def scanGetCall (start : ℕ) (cs : List Char) : ParseResult (Token × List Char) := do
  let (rawPath, rest) ← scanCallArgument start cs
  match rest.dropPrefix? ".data.".toList with
  | none => syntaxError "expected '.data.<field>' immediately after 'get(...)'"
  | some rest =>
    let isFieldChar := fun c : Char => c.isAlphanum || c == '_'
    let field := rest.takeWhile isFieldChar
    if field.isEmpty then syntaxError "expected a field name after 'get(...).data.'"
    else .ok (.getCall rawPath (String.ofList field), rest.dropWhile isFieldChar)

/-- The text up to the closing `quote`, and what follows it. -/
def scanQuoted (quote : Char) (cs : List Char) : Option (String × List Char) :=
  match cs.dropWhile (· != quote) with
  | [] => none
  | _ :: rest => some (String.ofList (cs.takeWhile (· != quote)), rest)

/-- Tokens that start with a letter or an underscore, or that no other rule
accepts. The calls are tried before plain words, as in the source. -/
def scanWordLike (i : ℕ) (c : Char) (cs : List Char) : ParseResult (Token × List Char) :=
  match (c :: cs).dropPrefix? "exists(".toList, (c :: cs).dropPrefix? "get(".toList with
  | some rest, _ => do
    let (rawPath, rest) ← scanCallArgument (i + 7) rest
    return (.existsCall rawPath, rest)
  | none, some rest => scanGetCall (i + 4) rest
  | none, none =>
    if isIdentStart c then
      .ok (.word (String.ofList ((c :: cs).takeWhile isIdentChar)), (c :: cs).dropWhile isIdentChar)
    else if c = '"' then
      match scanQuoted '"' cs with
      | some (content, rest) => .ok (.stringLiteral content, rest)
      | none => syntaxError s!"unterminated string literal starting at position {i}"
    else if c = '\x27' then
      match scanQuoted '\x27' cs with
      | some (content, rest) => .ok (.singleQuotedUnit content, rest)
      | none => syntaxError s!"unterminated single-quoted unit starting at position {i}"
    else if c ∈ ['*', '/', '%'] then
      unsupportedGrammar
        s!"the arithmetic operator '{c}' is not supported in v1 — only '+' and '-' are"
    else syntaxError s!"unexpected character '{c}' at position {i}"

/-- One token; `c`, at index `i`, is not white space. -/
def scanToken (i : ℕ) (c : Char) (cs : List Char) : ParseResult (Token × List Char) :=
  match c, cs with
  | '(', cs => .ok (.lParen, cs)
  | ')', cs => .ok (.rParen, cs)
  | '[', cs => .ok (.lBracket, cs)
  | ']', cs => .ok (.rBracket, cs)
  | ',', cs => .ok (.comma, cs)
  | '&', '&' :: cs => .ok (.and, cs)
  | '|', '|' :: cs => .ok (.or, cs)
  | '=', '=' :: cs => .ok (.eq, cs)
  | '!', '=' :: cs => .ok (.ne, cs)
  | '!', cs => .ok (.not, cs)
  | '<', '=' :: cs => .ok (.le, cs)
  | '<', cs => .ok (.lt, cs)
  | '>', '=' :: cs => .ok (.ge, cs)
  | '>', cs => .ok (.gt, cs)
  | '+', cs => .ok (.plus, cs)
  | '-', cs =>
    -- a minus directly before a digit belongs to the literal
    if (cs.head?.map (·.isDigit)).getD false then scanNumber true (i + 1) cs
    else .ok (.minus, cs)
  | c, cs => if c.isDigit then scanNumber false i (c :: cs) else scanWordLike i c cs

/-- The loop of `tokenize`. -/
def tokenizeLoop : ℕ → ℕ → List Char → ParseResult (List Token)
  | _, _, [] => .ok []
  | 0, _, _ => .ok []
  | fuel + 1, i, c :: cs =>
    if isWhitespace c then tokenizeLoop fuel (i + 1) cs
    else do
      let (token, rest) ← scanToken i c cs
      let tokens ← tokenizeLoop fuel (i + (cs.length + 1 - rest.length)) rest
      return token :: tokens

/-- `tokenize`. -/
def tokenize (source : String) : ParseResult (List Token) :=
  tokenizeLoop source.toList.length 0 source.toList

/-! ## Operands -/

/-- One segment of a `get()`/`exists()` path. -/
def parseTemplateSegment (raw : String) : ParseResult PathTemplateSegment :=
  match (Text.stripPrefix "$(" raw).bind (Text.stripSuffix ")") with
  | some inner =>
    if inner = "request.auth.uid" then .ok .authUid
    else
      match Text.stripPrefix "request.path." inner with
      | some name =>
        if name.isEmpty then
          syntaxError "'request.path.' inside '$(...)' requires a variable name"
        else .ok (.pathVariable name)
      | none =>
        unsupportedGrammar
          s!"'$({inner})' is not supported in a get()/exists() path — only '$(request.auth.uid)' and '$(request.path.<var>)' are, in v1"
  | none =>
    if Text.containsChar '$' raw then
      unsupportedGrammar
        s!"'{raw}' is not a well-formed '$(...)' substitution in a get()/exists() path"
    else .ok (.literal raw)

/-- `parse_path_template`: the required database part is checked and dropped. -/
def parsePathTemplate (rawPath : String) : ParseResult PathTemplate :=
  match (Text.split '/' rawPath).filter (!·.isEmpty) with
  | "databases" :: "$(database)" :: "documents" :: segments =>
    if segments.isEmpty then
      syntaxError
        "a get()/exists() path must reference at least one collection/document segment"
    else do
      let segments ← segments.mapM parseTemplateSegment
      return ⟨segments⟩
  | _ =>
    syntaxError "a get()/exists() path must start with '/databases/$(database)/documents/'"

/-- A dotted operand family: the text after `root` names what it refers to. -/
def dottedOperand (root noun : String) (build : String → Operand) (w : String) :
    Option (ParseResult Operand) :=
  (Text.stripPrefix root w).map fun name =>
    if name.isEmpty then syntaxError s!"'{root}' requires a {noun} name" else .ok (build name)

/-- `word_to_operand`. -/
def wordToOperand (w : String) : ParseResult Operand :=
  if w = "request.auth.uid" then .ok .authUid
  else if w = "request.auth" then .ok .authNullSentinel
  else if w = "null" then .ok .nullLiteral
  else if w = "request.time" then .ok .requestTime
  else if w = "true" then .ok (.boolLiteral true)
  else if w = "false" then .ok (.boolLiteral false)
  else
    ((dottedOperand "request.auth.token." "claim" .authTokenClaim w).or
      ((dottedOperand "request.path." "variable" .pathVariable w).or
        ((dottedOperand "request.resource.data." "field" .requestResourceField w).or
          (dottedOperand "resource.data." "field" .resourceField w)))).getD
      (syntaxError s!"unrecognized operand '{w}'")

/-- `parse_base_operand`. -/
def parseBaseOperand : List Token → ParseResult (Operand × List Token)
  | .word w :: ts => do return (← wordToOperand w, ts)
  | .stringLiteral s :: ts => .ok (.stringLiteral s, ts)
  | .intLiteral v :: ts => .ok (.intLiteral v, ts)
  | .doubleLiteral v :: ts => .ok (.doubleLiteral v, ts)
  | .existsCall rawPath :: ts => do
    return (.crossDocumentExists (← parsePathTemplate rawPath), ts)
  | .getCall rawPath field :: ts => do
    return (.crossDocumentGet (← parsePathTemplate rawPath) field, ts)
  | _ => syntaxError "expected an operand"

/-- The unit of a duration. -/
def parseDurationUnit (unit : String) : ParseResult DurationUnit :=
  if unit = "s" then .ok .seconds
  else if unit = "m" then .ok .minutes
  else if unit = "h" then .ok .hours
  else if unit = "d" then .ok .days
  else
    unsupportedGrammar
      s!"unrecognized duration unit '{unit}' — only 's'/'m'/'h'/'d' are supported in v1"

/-- `parse_duration_value`, after the word `duration.value`. -/
def parseDurationValue : List Token → ParseResult (Operand × List Token)
  | .lParen :: .intLiteral amount :: .comma :: .singleQuotedUnit unitText :: ts => do
    let unit ← parseDurationUnit unitText
    match ts with
    | .rParen :: ts => return (.durationLiteral amount unit, ts)
    | _ => syntaxError "expected ')' to close 'duration.value(...)'"
  | .lParen :: .intLiteral _ :: .comma :: _ =>
    unsupportedGrammar
      "'duration.value(...)' requires a single-quoted unit string ('s'/'m'/'h'/'d')"
  | .lParen :: .intLiteral _ :: _ => syntaxError "expected ',' in 'duration.value(...)'"
  | .lParen :: _ => syntaxError "expected an integer literal amount in 'duration.value(...)'"
  | _ => syntaxError "expected '(' after 'duration.value'"

/-- `parse_arithmetic_rhs`: the one place a duration may stand. -/
def parseArithmeticRhs : List Token → ParseResult (Operand × List Token)
  | .word "duration.value" :: ts => parseDurationValue ts
  | ts => parseBaseOperand ts

/-- `+` or `-` at the head of the tokens. -/
def peekArithmeticOp : List Token → Option (ArithmeticOp × List Token)
  | .plus :: ts => some (.add, ts)
  | .minus :: ts => some (.sub, ts)
  | _ => none

/-- `parse_operand`: at most one `+` or `-`. -/
def parseOperand (ts : List Token) : ParseResult (Operand × List Token) := do
  let (base, ts) ← parseBaseOperand ts
  match peekArithmeticOp ts with
  | none => return (base, ts)
  | some (op, ts) =>
    let (right, ts) ← parseArithmeticRhs ts
    if (peekArithmeticOp ts).isSome then
      unsupportedGrammar
        "nested arithmetic (more than one '+'/'-' per comparison operand) is not supported in v1"
    else return (.arithmetic base op right, ts)

/-- The loop of `parse_list_literal`, after the first `[` of a non-empty list. -/
def parseListItems : ℕ → List Token → ParseResult (List Operand × List Token)
  | 0, _ => syntaxError "expected ',' or ']' in list literal"
  | fuel + 1, ts => do
    let (item, ts) ← parseOperand ts
    match ts with
    | .comma :: ts =>
      let (items, ts) ← parseListItems fuel ts
      return (item :: items, ts)
    | .rBracket :: ts => return ([item], ts)
    | _ => syntaxError "expected ',' or ']' in list literal"

/-- `parse_list_literal`, after the opening bracket. -/
def parseListLiteral : List Token → ParseResult (Operand × List Token)
  | .rBracket :: ts => .ok (.listLiteral [], ts)
  | ts => do
    let (items, ts) ← parseListItems ts.length ts
    return (.listLiteral items, ts)

/-- A comparison operator at the head of the tokens. -/
def parseCompareOp : List Token → ParseResult (CompareOp × List Token)
  | .eq :: ts => .ok (.eq, ts)
  | .ne :: ts => .ok (.ne, ts)
  | .lt :: ts => .ok (.lt, ts)
  | .le :: ts => .ok (.le, ts)
  | .gt :: ts => .ok (.gt, ts)
  | .ge :: ts => .ok (.ge, ts)
  | _ => syntaxError "expected a comparison operator"

/-- `parse_comparison`. -/
def parseComparison (ts : List Token) : ParseResult (Condition × List Token) := do
  let (left, ts) ← parseOperand ts
  match ts with
  | .word "in" :: .lBracket :: ts =>
    let (list, ts) ← parseListLiteral ts
    return (.isIn left list, ts)
  | .word "in" :: _ =>
    unsupportedGrammar "'in' is only supported against a bracketed list literal in v1"
  | ts =>
    let (op, ts) ← parseCompareOp ts
    let (right, ts) ← parseOperand ts
    return (.compare left op right, ts)

/-! ## Conditions -/

mutual

/-- `parse_or`. -/
def parseOr : ℕ → List Token → ParseResult (Condition × List Token)
  | 0, _ => syntaxError "expected a condition (operand, 'true'/'false', or '(')"
  | fuel + 1, ts => do
    let (left, ts) ← parseAnd fuel ts
    parseOrLoop fuel left ts

/-- The loop of `parse_or`: left-associative. -/
def parseOrLoop : ℕ → Condition → List Token → ParseResult (Condition × List Token)
  | fuel + 1, left, .or :: ts => do
    let (right, ts) ← parseAnd fuel ts
    parseOrLoop fuel (.or left right) ts
  | _, left, ts => .ok (left, ts)

/-- `parse_and`. -/
def parseAnd : ℕ → List Token → ParseResult (Condition × List Token)
  | 0, _ => syntaxError "expected a condition (operand, 'true'/'false', or '(')"
  | fuel + 1, ts => do
    let (left, ts) ← parseUnary fuel ts
    parseAndLoop fuel left ts

/-- The loop of `parse_and`: left-associative. -/
def parseAndLoop : ℕ → Condition → List Token → ParseResult (Condition × List Token)
  | fuel + 1, left, .and :: ts => do
    let (right, ts) ← parseUnary fuel ts
    parseAndLoop fuel (.and left right) ts
  | _, left, ts => .ok (left, ts)

/-- `parse_unary`. -/
def parseUnary : ℕ → List Token → ParseResult (Condition × List Token)
  | 0, _ => syntaxError "expected a condition (operand, 'true'/'false', or '(')"
  | fuel + 1, .not :: ts => do
    let (inner, ts) ← parseUnary fuel ts
    return (.not inner, ts)
  | fuel + 1, ts => parsePrimary fuel ts

/-- `parse_primary`. A bare `exists(...)` stands for `exists(...) == true`. -/
def parsePrimary : ℕ → List Token → ParseResult (Condition × List Token)
  | 0, _ => syntaxError "expected a condition (operand, 'true'/'false', or '(')"
  | fuel + 1, .lParen :: ts => do
    let (inner, ts) ← parseOr fuel ts
    match ts with
    | .rParen :: ts => return (inner, ts)
    | _ => syntaxError "expected closing ')'"
  | _ + 1, .word "true" :: ts => .ok (.literal true, ts)
  | _ + 1, .word "false" :: ts => .ok (.literal false, ts)
  | _ + 1, .existsCall rawPath :: ts => do
    let (operand, ts) ← parseBaseOperand (.existsCall rawPath :: ts)
    return (.compare operand .eq (.boolLiteral true), ts)
  | _ + 1, .word w :: ts => parseComparison (.word w :: ts)
  | _ + 1, .getCall rawPath field :: ts => parseComparison (.getCall rawPath field :: ts)
  | _ + 1, _ => syntaxError "expected a condition (operand, 'true'/'false', or '(')"

end

/-- `parse_condition`. -/
def parseCondition (source : String) : ParseResult Condition :=
  match detectUnsupportedConstruct source with
  | some err => .error err
  | none => do
    let tokens ← tokenize source
    let (condition, rest) ← parseOr (4 * (tokens.length + 1)) tokens
    if rest.isEmpty then return condition
    else syntaxError "unexpected trailing input after condition"

end Embyr
