import Embyr.ConditionParser
import Embyr.Lib.Table
import Embyr.PathPattern

/-!
# Importing a rules file

What becomes of the `match` blocks of a rules file: `decompose`
(`access_control/rules_file.rs`), the overlap check and the upserts of
`import_rules_file` (`admin/handlers/access_rules.rs`), over the rules of one
project as `adapters/system_db.rs` stores them.

The scanner that cuts blocks out of the file's text is left out: an import starts
from the blocks, and a `MatchBlock` carries the one fact the scanner owes the rest,
that each of its segments was read by `parse_one_segment` from text without `/`.
-/

namespace Embyr

/-! ## Blocks and what they decompose into -/

/-- The verbs of an `allow` clause. -/
inductive Verb where
  | read
  | get
  | list
  | write
  | create
  | update
  | delete
  deriving DecidableEq

/-- One parsed `match` block (`MatchBlock`). -/
structure MatchBlock where
  pathPattern : String
  segments : List PathSegment
  allowClauses : List (List Verb × String)
  /-- `parse_path_segments` never returns an empty path -/
  nonempty : segments ≠ []
  /-- and reads every segment from text -/
  written : ∀ s ∈ segments, s.Written

/-- `DecomposedRule`. -/
structure DecomposedRule where
  collectionPath : String
  readCondition : Option String
  writeCondition : Option String
  deriving DecidableEq

/-- `DecomposedPatternRule`. -/
structure DecomposedPatternRule where
  collectionPathPattern : String
  ancestorSegmentCount : UInt16
  literalSkeleton : String
  leafVariable : Option String
  readCondition : Option String
  writeCondition : Option String
  deriving DecidableEq

/-- `DecomposedRecursivePattern`. -/
structure DecomposedRecursivePattern where
  fixedPrefixPattern : String
  fixedPrefixSegmentCount : UInt16
  literalSkeletonPrefix : String
  readCondition : Option String
  writeCondition : Option String
  deriving DecidableEq

/-- `DecomposedTarget`. -/
inductive DecomposedTarget where
  | singleCollection (rule : DecomposedRule)
  | multiSegmentPattern (pattern : DecomposedPatternRule)
  | recursiveWildcardPattern (pattern : DecomposedRecursivePattern)
  deriving DecidableEq

/-- A character of a word, for the rewrite of path variables. -/
def isWordChar (c : Char) : Bool := c.isAlphanum || c == '_'

/-- The loop of `rewrite_path_variable`: `prev` is the character before the ones
still to be read, `skip` how many of those belong to an occurrence already
rewritten. -/
def rewriteFrom (var : List Char) (prev : Option Char) (skip : ℕ) : List Char → List Char
  | [] => []
  | c :: cs =>
    if 0 < skip then rewriteFrom var (some c) (skip - 1) cs
    else if var.isPrefixOf (c :: cs) && !prev.any isWordChar &&
        !((c :: cs).drop var.length).head?.any isWordChar then
      "request.path.".toList ++ var ++ rewriteFrom var (some c) (var.length - 1) cs
    else c :: rewriteFrom var (some c) 0 cs

/-- `rewrite_path_variable`. -/
def rewritePathVariable (condition var : String) : String :=
  String.ofList (rewriteFrom var.toList none 0 condition.toList)

/-- `construct_for`. -/
def constructFor : ConditionParseError → String
  | .syntaxError _ => "SYNTAX_ERROR"
  | .unsupportedConstruct .customFunction _ => "CUSTOM_FUNCTION"
  | .unsupportedConstruct .wildcardPath _ => "NESTED_PATH"
  | .unsupportedConstruct .unsupportedExpressionGrammar _ => "UNSUPPORTED_EXPRESSION_GRAMMAR"

/-- `detail_for`. -/
def detailFor : ConditionParseError → String
  | .syntaxError detail | .unsupportedConstruct _ detail => detail

/-- The read and the write condition collected so far. -/
structure Buckets where
  readCondition : Option String
  writeCondition : Option String
  deriving DecidableEq

/-- Puts a condition in its bucket; a different one already there is a conflict. -/
def fillBucket (pathPattern condition : String) :
    Option String → Except RulesFileError (Option String)
  | some existing =>
    if existing ≠ condition then
      RulesFileError.single pathPattern "CONFLICTING_VERB_CONDITIONS"
        "differing conditions for the same read/write bucket are not supported"
    else .ok (some condition)
  | none => .ok (some condition)

/-- The bucket a verb files its condition under. -/
def fileVerb (pathPattern condition : String) (buckets : Buckets) :
    Verb → Except RulesFileError Buckets
  | .read | .get | .list => do
    return { buckets with
      readCondition := ← fillBucket pathPattern condition buckets.readCondition }
  | .write | .create | .update | .delete => do
    return { buckets with
      writeCondition := ← fillBucket pathPattern condition buckets.writeCondition }

/-- One `allow` clause: rewrite the path variables, check that the condition parses,
file it under every verb. -/
def fileClause (pathPattern : String) (wildcardNames : List String) (buckets : Buckets)
    (clause : List Verb × String) : Except RulesFileError Buckets :=
  let rewritten := wildcardNames.foldl rewritePathVariable clause.2
  match parseCondition rewritten with
  | .error e => RulesFileError.single pathPattern (constructFor e) (detailFor e)
  | .ok _ => clause.1.foldlM (fileVerb pathPattern rewritten) buckets

/-- The loop over the `allow` clauses, which both halves of `decompose_block` run. -/
def bucketConditions (pathPattern : String) (wildcardNames : List String)
    (clauses : List (List Verb × String)) : Except RulesFileError Buckets :=
  clauses.foldlM (fileClause pathPattern wildcardNames) ⟨none, none⟩

/-- The name a wildcard segment captures. -/
def PathSegment.wildcardName? : PathSegment → Option String
  | .wildcard name => some name
  | _ => none

/-- `decompose_block`. -/
def decomposeBlock (block : MatchBlock) : Except RulesFileError DecomposedTarget := do
  validateSegmentShape block.pathPattern 0 block.segments
  let segments := block.segments
  if segments.getLast? = some .recursiveWildcard then
    let fixedPrefix := segments.dropLast
    let buckets ← bucketConditions block.pathPattern
      (fixedPrefix.filterMap PathSegment.wildcardName?) block.allowClauses
    return .recursiveWildcardPattern
      { fixedPrefixPattern := renderAncestorPattern fixedPrefix
        fixedPrefixSegmentCount := UInt16.ofNat fixedPrefix.length
        literalSkeletonPrefix := literalSkeleton fixedPrefix
        readCondition := buckets.readCondition
        writeCondition := buckets.writeCondition }
  else
    -- a leaf is there iff the length is even, so the ancestor's is odd
    let ancestor := if segments.length % 2 = 0 then segments.dropLast else segments
    let leaf := if segments.length % 2 = 0 then segments.getLast? else none
    let leafVariable := leaf.bind PathSegment.wildcardName?
    let buckets ← bucketConditions block.pathPattern
      (ancestor.filterMap PathSegment.wildcardName? ++ leafVariable.toList) block.allowClauses
    match ancestor with
    | [.literal collection] =>
      return .singleCollection ⟨collection, buckets.readCondition, buckets.writeCondition⟩
    | _ =>
      return .multiSegmentPattern
        { collectionPathPattern := renderAncestorPattern ancestor
          ancestorSegmentCount := UInt16.ofNat ancestor.length
          literalSkeleton := literalSkeleton ancestor
          leafVariable := leafVariable
          readCondition := buckets.readCondition
          writeCondition := buckets.writeCondition }

/-- The loop of `decompose`: targets and offending blocks collected so far. -/
def decomposeAll (offending : RulesFileError) (targets : List DecomposedTarget) :
    List MatchBlock → Except RulesFileError (List DecomposedTarget)
  | [] => if offending.isEmpty then .ok targets else .error offending
  | block :: blocks =>
    match decomposeBlock block with
    | .ok target => decomposeAll offending (targets ++ [target]) blocks
    | .error err => decomposeAll (offending ++ err) targets blocks

/-- `decompose`. -/
def decompose (blocks : List MatchBlock) : Except RulesFileError (List DecomposedTarget) :=
  decomposeAll [] [] blocks

/-! ## Stored rules -/

/-- A row of `access_rule_patterns`, for one project. -/
structure PatternRow where
  collectionPathPattern : String
  ancestorSegmentCount : Int16
  literalSkeleton : String
  leafVariable : Option String
  readCondition : Option String
  writeCondition : Option String
  isRecursive : Bool
  deriving DecidableEq

/-- The primary key, within the project. -/
def PatternRow.key (row : PatternRow) : String × Bool := (row.collectionPathPattern, row.isRecursive)

/-- The rules of one project: exact read and write rules by collection path, and
patterns. -/
structure RuleSet where
  readRules : StrMap String
  writeRules : StrMap String
  patterns : List PatternRow

/-- A project without rules. -/
def RuleSet.empty : RuleSet := ⟨∅, ∅, []⟩

/-- `list_access_rule_patterns_by_skeleton`. -/
def listAccessRulePatternsBySkeleton (patterns : List PatternRow) (count : Int16)
    (skeleton : String) : List PatternRow :=
  patterns.filter fun row =>
    row.ancestorSegmentCount = count && row.literalSkeleton = skeleton && !row.isRecursive

/-- `list_recursive_access_rule_patterns_up_to`. -/
def listRecursiveAccessRulePatternsUpTo (patterns : List PatternRow) (count : Int16) :
    List PatternRow :=
  patterns.filter fun row => row.isRecursive && row.ancestorSegmentCount ≤ count

/-- `get_access_rule_pattern`: by text alone. -/
def getAccessRulePattern (patterns : List PatternRow) (text : String) : Option PatternRow :=
  patterns.find? fun row => row.collectionPathPattern = text

/-! ## The overlap check -/

/-- `overlap_offending_block`. -/
def overlapOffendingBlock (pathPattern other : String) : OffendingBlock :=
  ⟨pathPattern, "PATTERN_OVERLAP", "structurally overlaps pattern '" ++ other ++ "'"⟩

/-- `overlap_rejection`. -/
def overlapRejection (a b : String) : RulesFileError :=
  [overlapOffendingBlock a b, overlapOffendingBlock b a]

/-- `parse_path_segments(..).expect(..)`; `none` is the panic. -/
def expectSegments (text : String) : Option (List PathSegment) :=
  (parsePathSegments text).toOption

/-- `parse_recursive_prefix`. -/
def parseRecursivePrefix (text : String) : Option (List PathSegment) :=
  if text.isEmpty then some [] else expectSegments text

/-- A pattern's text with the segments it was parsed into. -/
structure Parsed where
  text : String
  segments : List PathSegment

/-- Every pair of a list's elements, the earlier one first, in loop order. -/
def pairsOf {α : Type} : List α → List (α × α)
  | [] => []
  | x :: xs => xs.map (x, ·) ++ pairsOf xs

/-- The fixed-depth targets of an import. -/
def multiSegmentPatterns (targets : List DecomposedTarget) : List DecomposedPatternRule :=
  targets.filterMap fun
    | .multiSegmentPattern p => some p
    | _ => none

/-- The recursive targets of an import. -/
def recursivePatterns (targets : List DecomposedTarget) : List DecomposedRecursivePattern :=
  targets.filterMap fun
    | .recursiveWildcardPattern p => some p
    | _ => none

/-- Rejects two patterns when `clash` holds of them. -/
def rejectIf (clash : Bool) (a b : String) : Option RulesFileError :=
  if clash then some (overlapRejection a b) else none

/-- A reach and a prefix stand in an ambiguous relation. -/
def ambiguous (a b : List PathSegment) : Bool := classifyPrefixRelation a b = .ambiguousOverlap

/-- Intra-file, fixed depth against fixed depth. -/
def fixedOverlap (fixed : List Parsed) : Option RulesFileError :=
  (pairsOf fixed).findSome? fun (a, b) =>
    rejectIf (structurallyOverlap a.segments b.segments) a.text b.text

/-- Intra-file, recursive against recursive. -/
def recursiveOverlap (recursive : List Parsed) : Option RulesFileError :=
  (pairsOf recursive).findSome? fun (a, b) => rejectIf (ambiguous a.segments b.segments) a.text b.text

/-- Intra-file, recursive against fixed depth. -/
def mixedOverlap (recursive fixed : List Parsed) : Option RulesFileError :=
  recursive.findSome? fun r => fixed.findSome? fun f =>
    rejectIf (ambiguous r.segments (fixedDepthFullReach f.segments)) r.text f.text

/-- Cross-import, a fixed-depth pattern against the stored ones of its bucket. -/
def storedFixedOverlap (patterns : List PatternRow) (rule : DecomposedPatternRule)
    (ancestor : List PathSegment) : Option (Option RulesFileError) :=
  (listAccessRulePatternsBySkeleton patterns rule.ancestorSegmentCount.toInt16
      rule.literalSkeleton).findSomeM? fun row =>
    if row.collectionPathPattern = rule.collectionPathPattern then some none
    else (expectSegments row.collectionPathPattern).map fun rowAncestor =>
      rejectIf (structurallyOverlap ancestor rowAncestor) rule.collectionPathPattern
        row.collectionPathPattern

/-- Cross-import, a recursive pattern against every stored one. -/
def storedRecursiveOverlap (patterns : List PatternRow) (r : Parsed) :
    Option (Option RulesFileError) :=
  patterns.findSomeM? fun row =>
    if row.isRecursive ∧ row.collectionPathPattern = r.text then some none
    else
      let rowSegments :=
        if row.isRecursive then parseRecursivePrefix row.collectionPathPattern
        else (expectSegments row.collectionPathPattern).map fixedDepthFullReach
      rowSegments.map fun segs => rejectIf (ambiguous r.segments segs) r.text row.collectionPathPattern

/-- Cross-import, a fixed-depth pattern against the stored recursive ones. -/
def storedMixedOverlap (patterns : List PatternRow) (f : Parsed) :
    Option (Option RulesFileError) :=
  patterns.findSomeM? fun row =>
    if ¬row.isRecursive then some none
    else (parseRecursivePrefix row.collectionPathPattern).map fun rowPrefix =>
      rejectIf (ambiguous (fixedDepthFullReach f.segments) rowPrefix) f.text row.collectionPathPattern

/-- `check_pattern_overlap`: the first clash, in the order of the source's loops.
The outer `none` is a panic on a pattern that does not re-parse. -/
def checkPatternOverlap (patterns : List PatternRow) (targets : List DecomposedTarget) :
    Option (Option RulesFileError) := do
  let rules := multiSegmentPatterns targets
  let recursives := recursivePatterns targets
  if rules.isEmpty && recursives.isEmpty then return none
  let fixed ← rules.mapM fun p =>
    (expectSegments p.collectionPathPattern).map (Parsed.mk p.collectionPathPattern)
  let recursive ← recursives.mapM fun p =>
    (parseRecursivePrefix p.fixedPrefixPattern).map (Parsed.mk p.fixedPrefixPattern)
  if let some rejection := fixedOverlap fixed then return some rejection
  if let some rejection := recursiveOverlap recursive then return some rejection
  if let some rejection := mixedOverlap recursive fixed then return some rejection
  if let some rejection ← (rules.zip fixed).findSomeM? fun (p, f) =>
    storedFixedOverlap patterns p f.segments then return some rejection
  if let some rejection ← recursive.findSomeM? (storedRecursiveOverlap patterns) then
    return some rejection
  fixed.findSomeM? (storedMixedOverlap patterns)

/-! ## The import -/

/-- Stores an exact rule, unless it is the one already stored. -/
def upsertRule (rules : StrMap String) (collectionPath : String) : Option String → StrMap String
  | none => rules
  | some condition =>
    if rules[collectionPath]? = some condition then rules else rules.insert collectionPath condition

/-- The row a fixed-depth target is stored as. -/
def DecomposedPatternRule.toRow (p : DecomposedPatternRule) : PatternRow where
  collectionPathPattern := p.collectionPathPattern
  ancestorSegmentCount := p.ancestorSegmentCount.toInt16
  literalSkeleton := p.literalSkeleton
  leafVariable := p.leafVariable
  readCondition := p.readCondition
  writeCondition := p.writeCondition
  isRecursive := false

/-- The row a recursive target is stored as. -/
def DecomposedRecursivePattern.toRow (p : DecomposedRecursivePattern) : PatternRow where
  collectionPathPattern := p.fixedPrefixPattern
  ancestorSegmentCount := p.fixedPrefixSegmentCount.toInt16
  literalSkeleton := p.literalSkeletonPrefix
  leafVariable := none
  readCondition := p.readCondition
  writeCondition := p.writeCondition
  isRecursive := true

@[simp] theorem DecomposedPatternRule.toRow_isRecursive (p : DecomposedPatternRule) :
    p.toRow.isRecursive = false := rfl

@[simp] theorem DecomposedRecursivePattern.toRow_isRecursive (p : DecomposedRecursivePattern) :
    p.toRow.isRecursive = true := rfl

/-- The stored pattern of the same text already says what the new one would. The
recursive arm does not look at the leaf variable. -/
def alreadyCurrent (row existing : PatternRow) : Bool :=
  (row.isRecursive || existing.leafVariable = row.leafVariable) &&
    existing.readCondition = row.readCondition && existing.writeCondition = row.writeCondition

/-- Stores a pattern, unless the stored one is current. -/
def importPattern (patterns : List PatternRow) (row : PatternRow) : List PatternRow :=
  if (getAccessRulePattern patterns row.collectionPathPattern).any (alreadyCurrent row) then patterns
  else Table.upsertBy PatternRow.key row patterns

/-- One turn of the import loop. -/
def importTarget (rules : RuleSet) : DecomposedTarget → RuleSet
  | .singleCollection rule =>
    { rules with
      readRules := upsertRule rules.readRules rule.collectionPath rule.readCondition
      writeRules := upsertRule rules.writeRules rule.collectionPath rule.writeCondition }
  | .multiSegmentPattern p => { rules with patterns := importPattern rules.patterns p.toRow }
  | .recursiveWildcardPattern p => { rules with patterns := importPattern rules.patterns p.toRow }

/-- What an import request ends in. -/
inductive ImportOutcome where
  | imported (rules : RuleSet)
  | rejected (error : RulesFileError)
  | panicked

/-- `import_rules_file`, from the parsed blocks on. -/
def importRulesFile (rules : RuleSet) (blocks : List MatchBlock) : ImportOutcome :=
  match decompose blocks with
  | .error e => .rejected e
  | .ok targets =>
    match checkPatternOverlap rules.patterns targets with
    | none => .panicked
    | some (some rejection) => .rejected rejection
    | some none => .imported (targets.foldl importTarget rules)

/-- The rules a project can have: those any sequence of imports leaves, with the rows
of the pattern table in whatever order it returns them. -/
inductive Imported : RuleSet → Prop
  | empty : Imported RuleSet.empty
  | step {rules rules' : RuleSet} {blocks : List MatchBlock} :
    Imported rules → importRulesFile rules blocks = .imported rules' → Imported rules'
  | reorder {rules : RuleSet} {patterns : List PatternRow} :
    Imported rules → rules.patterns.Perm patterns → Imported { rules with patterns := patterns }

end Embyr
