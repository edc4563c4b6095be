import Embyr.ConditionText

/-!
# Printing conditions

A condition as text, and back.

* `Operand.tokens`, `Condition.tokens` — the tokens of a tree, with parentheses only where the level
  of precedence asks for them.
* `printTokens`, `Condition.print` — their texts, separated by blanks.
* `Derives.tokens` — the grammar derives the tree from its tokens.
* `Derives.visible` — apart from parentheses they are the tokens of any source of the tree.
* `parse_print` — so what the parser can produce it produces again from the printed text.
-/

namespace Embyr

open Binary64 Derives Token List

/-! ## The tokens of a tree -/

mutual

/-- The tokens of an operand. -/
def Operand.tokens : Operand → List Token
  | .authUid => [.word "request.auth.uid"]
  | .authNullSentinel => [.word "request.auth"]
  | .resourceField name => [.word ("resource.data." ++ name)]
  | .requestResourceField name => [.word ("request.resource.data." ++ name)]
  | .authTokenClaim claim => [.word ("request.auth.token." ++ claim)]
  | .boolLiteral b => [.word (if b then "true" else "false")]
  | .nullLiteral => [.word "null"]
  | .stringLiteral s => [.stringLiteral s]
  | .pathVariable name => [.word ("request.path." ++ name)]
  | .intLiteral i => [.intLiteral i]
  | .doubleLiteral d => [.doubleLiteral d]
  | .listLiteral items => .lBracket :: itemsTokens items
  | .requestTime => [.word "request.time"]
  | .arithmetic left op right => left.tokens ++ op.token :: right.tokens
  | .durationLiteral amount unit => durationTokens amount unit
  | .crossDocumentExists template => [.existsCall template.text]
  | .crossDocumentGet template field => [.getCall template.text field]

/-- The tokens of a list after its opening bracket. -/
def itemsTokens : List Operand → List Token
  | [] => [.rBracket]
  | [item] => item.tokens ++ [.rBracket]
  | item :: items => item.tokens ++ .comma :: itemsTokens items

end

/-- `exists(...) == true`, which is written without its right side. -/
def isBareExists (left : Operand) (op : CompareOp) (right : Operand) : Bool :=
  match left, op, right with
  | .crossDocumentExists _, .eq, .boolLiteral true => true
  | _, _, _ => false

/-- Parentheses, when the level of precedence asks for them. -/
def parenthesize (needed : Bool) (ts : List Token) : List Token :=
  if needed then .lParen :: ts ++ [.rParen] else ts

/-- The tokens of a condition at a level of precedence. -/
def Condition.tokens : Level → Condition → List Token
  | _, .literal b => [.word (if b then "true" else "false")]
  | _, .compare left op right =>
    if isBareExists left op right then left.tokens else left.tokens ++ op.token :: right.tokens
  | _, .isIn left list => left.tokens ++ .word "in" :: list.tokens
  | level, .not inner => parenthesize (level = .primary) (.not :: inner.tokens .unary)
  | level, .and left right =>
    parenthesize (level = .unary ∨ level = .primary)
      (left.tokens .and ++ .and :: right.tokens .unary)
  | level, .or left right =>
    parenthesize (level ≠ .or) (left.tokens .or ++ .or :: right.tokens .and)

/-- The texts of tokens, separated by blanks. -/
def printTokens (ts : List Token) : List Char := [' '].intercalate (ts.map Token.text)

def Condition.print (c : Condition) : String := .ofList (printTokens (c.tokens .or))

/-! ## Operands -/

variable {o : Operand}

theorem IsWord.tokens {w : String} (h : IsWord w o) : o.tokens = [.word w] := by
  cases h <;> simp [Operand.tokens]

theorem canonical_arithmeticOp (op : ArithmeticOp) : op.token.canonical = op.token := by
  cases op <;> rfl

theorem canonical_compareOp (op : CompareOp) : op.token.canonical = op.token := by
  cases op <;> rfl

/-- An operand of one token: that token, with its path normalised. -/
theorem IsBase.tokens {t : Token} (h : IsBase t o) :
    o.tokens = [t.canonical] ∧ IsBase t.canonical o := by
  cases h.isLeaf with
  | word hword => exact ⟨hword.tokens, h⟩
  | string _ | int _ | double _ => exact ⟨by rw [Operand.tokens]; rfl, h⟩
  | @existsCall rawPath template hparse =>
    refine ⟨by rw [Operand.tokens, parsePathTemplate_text hparse]; rfl, ?_⟩
    rw [canonical, IsBase, parseBaseOperand, parsePathTemplate_normalizePath, hparse]
    rfl
  | @getCall rawPath template field hparse =>
    refine ⟨by rw [Operand.tokens, parsePathTemplate_text hparse]; rfl, ?_⟩
    rw [canonical, IsBase, parseBaseOperand, parsePathTemplate_normalizePath, hparse]
    rfl

variable {ts : List Token}

theorem IsOperand.tokens (h : IsOperand ts o) :
    o.tokens = ts.map canonical ∧ IsOperand o.tokens o := by
  cases h with
  | base hbase =>
    obtain ⟨htokens, hbase'⟩ := hbase.tokens
    rw [htokens]
    exact ⟨rfl, .base hbase'⟩
  | @arithmetic t t' l r op hl hr =>
    obtain ⟨hltokens, hl'⟩ := hl.tokens
    obtain ⟨hrtokens, hr'⟩ := hr.tokens
    have htokens : (Operand.arithmetic l op r).tokens = [t.canonical, op.token, t'.canonical] := by
      rw [Operand.tokens, hltokens, hrtokens]
      rfl
    rw [htokens]
    refine ⟨?_, .arithmetic op hl' hr'⟩
    rw [map_cons, map_cons, map_cons, canonical_arithmeticOp, map_nil]
  | @shifted t l op amount unit hl =>
    obtain ⟨hltokens, hl'⟩ := hl.tokens
    have htokens : (Operand.arithmetic l op (.durationLiteral amount unit)).tokens =
        t.canonical :: op.token :: durationTokens amount unit := by
      rw [Operand.tokens, hltokens, Operand.tokens]
      rfl
    rw [htokens]
    refine ⟨?_, .shifted op amount unit hl'⟩
    rw [map_cons, map_cons, canonical_arithmeticOp]
    rfl

theorem IsItems.tokens {items : List Operand} (h : IsItems ts items) :
    itemsTokens items = ts.map canonical ∧ IsItems (itemsTokens items) items := by
  induction h with
  | last ho =>
    obtain ⟨htokens, ho'⟩ := ho.tokens
    refine ⟨?_, by rw [itemsTokens]; exact .last ho'⟩
    rw [itemsTokens, htokens, map_append]
    rfl
  | @cons ts ts' o os ho hos ih =>
    obtain ⟨htokens, ho'⟩ := ho.tokens
    obtain ⟨hstokens, hos'⟩ := ih
    have hcons : itemsTokens (o :: os) = o.tokens ++ .comma :: itemsTokens os := by
      cases hos <;> simp [itemsTokens]
    rw [hcons]
    refine ⟨?_, .cons ho' hos'⟩
    rw [htokens, hstokens, map_append]
    rfl

theorem IsList.tokens {items : List Operand} (h : IsList ts items) :
    itemsTokens items = ts.map canonical ∧ IsList (itemsTokens items) items := by
  rcases h with ⟨rfl, rfl⟩ | h
  · rw [itemsTokens]
    exact ⟨rfl, .inl ⟨rfl, rfl⟩⟩
  · exact ⟨h.tokens.1, .inr h.tokens.2⟩

theorem StartsComparison.canonical (h : StartsComparison ts) :
    StartsComparison (ts.map canonical) := by
  rcases ts with _ | ⟨t, ts⟩
  · cases h
  · cases t <;> exact h

/-- A comparison does not start with `exists(...)`. -/
theorem isBareExists_of_starts {l : Operand} (hl : IsOperand ts l) (hstart : StartsComparison ts)
    (op : CompareOp) (r : Operand) :
    isBareExists l op r = false := by
  cases hl with
  | base hbase =>
    cases hbase.isLeaf with
    | word hword => cases hword <;> rfl
    | existsCall _ => cases hstart
    | _ => rfl
  | arithmetic _ _ _ => rfl
  | shifted _ _ _ _ => rfl

/-- A condition `exists(...)` is its one token. -/
theorem tokens_bareExists {rawPath : String} (h : IsBase (.existsCall rawPath) o) (level : Level) :
    (Condition.compare o .eq (.boolLiteral true)).tokens level = o.tokens := by
  cases h.isLeaf
  rw [Condition.tokens]
  rfl

/-! ## Conditions -/

variable {c : Condition}

/-- A condition that needs no parentheses needs none on any level. -/
theorem Derives.ofPrimaryLevel (h : Derives .primary ts c)
    (level : Level) : Derives level ts c := by
  cases level with
  | or => exact .ofAnd (.ofUnary (.ofPrimary h))
  | and => exact .ofUnary (.ofPrimary h)
  | unary => exact .ofPrimary h
  | primary => exact h

variable {level : Level}

/-- **The grammar derives a tree from its tokens, on every level.** -/
theorem Derives.tokens (h : Derives level ts c) :
    ∀ level, Derives level (c.tokens level) c := by
  induction h with
  | or _ _ hl hr =>
    have hor := or (hl .or) (hr .and)
    intro level
    cases level with
    | or => exact hor
    | _ => exact (paren hor).ofPrimaryLevel _
  | and _ _ hl hr =>
    have hand := and (hl .and) (hr .unary)
    intro level
    cases level with
    | or => exact .ofAnd hand
    | and => exact hand
    | _ => exact (paren (.ofAnd hand)).ofPrimaryLevel _
  | not _ ih =>
    have hnot := not (ih .unary)
    intro level
    cases level with
    | or => exact .ofAnd (.ofUnary hnot)
    | and => exact .ofUnary hnot
    | unary => exact hnot
    | primary => exact .paren (.ofAnd (.ofUnary hnot))
  | ofAnd _ ih | ofUnary _ ih | ofPrimary _ ih | paren _ ih => exact ih
  | literal b => exact (literal b).ofPrimaryLevel
  | @bareExists rawPath o hbase =>
    intro level
    rw [tokens_bareExists hbase, hbase.tokens.1]
    exact (bareExists hbase.tokens.2).ofPrimaryLevel level
  | @compare ts ts' l r op hl hstart hr =>
    intro level
    rw [Condition.tokens, isBareExists_of_starts hl hstart]
    refine (compare op hl.tokens.2 ?_ hr.tokens.2).ofPrimaryLevel level
    rw [hl.tokens.1]
    exact hstart.canonical
  | @isIn ts ts' l items hl hstart hlist =>
    intro level
    rw [Condition.tokens, Operand.tokens]
    refine (isIn hl.tokens.2 ?_ hlist.tokens.2).ofPrimaryLevel level
    rw [hl.tokens.1]
    exact hstart.canonical

/-! ## Tokens apart from parentheses -/

/-- The tokens that are not parentheses. -/
def visible (ts : List Token) : List Token :=
  ts.filter fun t => t ≠ .lParen ∧ t ≠ .rParen

theorem visible_append (ts ts' : List Token) : visible (ts ++ ts') = visible ts ++ visible ts' :=
  filter_append ..

theorem visible_parenthesize (needed : Bool) (ts : List Token) :
    visible (parenthesize needed ts) = visible ts := by
  cases needed with
  | false => rfl
  | true => simp [parenthesize, visible]

/-- **Apart from parentheses the tokens of a tree are those of any source of it.** -/
theorem Derives.visible (h : Derives level ts c) :
    ∀ level, Embyr.visible (c.tokens level) = Embyr.visible (ts.map Token.canonical) := by
  induction h with
  | or _ _ hl hr =>
    intro level
    rw [Condition.tokens, visible_parenthesize, visible_append, hl, map_append, visible_append]
    exact congrArg (Embyr.visible _ ++ Token.or :: ·) (hr .and)
  | and _ _ hl hr =>
    intro level
    rw [Condition.tokens, visible_parenthesize, visible_append, hl, map_append, visible_append]
    exact congrArg (Embyr.visible _ ++ Token.and :: ·) (hr .unary)
  | not _ ih =>
    intro level
    rw [Condition.tokens, visible_parenthesize]
    exact congrArg (Token.not :: ·) (ih .unary)
  | ofAnd _ ih | ofUnary _ ih | ofPrimary _ ih => exact ih
  | @paren ts _ _ ih =>
    intro level
    have hparen := visible_parenthesize true (ts.map Token.canonical)
    rw [ih, ← hparen, parenthesize, map_append]
    rfl
  | literal b => exact fun _ => rfl
  | bareExists hbase =>
    intro level
    rw [tokens_bareExists hbase, hbase.tokens.1]
    rfl
  | compare op hl hstart hr =>
    intro level
    rw [Condition.tokens, isBareExists_of_starts hl hstart, map_append, map_cons,
      canonical_compareOp, ← hl.tokens.1, ← hr.tokens.1]
    rfl
  | isIn hl hstart hlist =>
    intro level
    rw [Condition.tokens, Operand.tokens, map_append, ← hl.tokens.1, hlist.tokens.1]
    rfl

/-! ## The scan of a source, token by token -/

variable {s : ScanState}

/-- After a text whose last character is in no identifier, none is being read. -/
theorem scanFrom_ident {s' : ScanState} {text : List Char} {c : Char}
    (h : scanFrom s (text ++ [c]) = some s') (hc : isIdentChar c = false) : s'.ident = none := by
  rw [scanFrom_append] at h
  obtain ⟨s₁, -, hlast⟩ := Option.bind_eq_some_iff.mp h
  rw [scanFrom_cons] at hlast
  obtain ⟨s₂, hstep, hnil⟩ := Option.bind_eq_some_iff.mp hlast
  cases hnil
  exact ScanState.step_ident hstep hc

theorem resets_of_isWhitespace {c : Char} (h : isWhitespace c = true) : Resets c := by
  refine resets_of_ne (isIdentChar_of_isWhitespace h) ?_
  intro hmem
  fin_cases hmem <;> cases h

/-- The text that comes next does not go on with the identifier being read. -/
def Apart (s : ScanState) (cs : List Char) : Prop :=
  s.inQuotes = false → s.ident ≠ none → StopsAt isIdentChar cs

/-- Tokens do not run into each other. -/
theorem apart_of_spells {text rest : List Char} {t : Token} {inQuotes : Bool}
    (hspells : Spells text t) (hfollows : Follows t rest) (hdot : StopsAt (· == '.') rest)
    (h : scanFrom (.fresh inQuotes) text = some s) : Apart s rest := by
  have hlast : ∀ (init : List Char) {c : Char}, text = init ++ [c] → isIdentChar c = false →
      Apart s rest := fun _ _ htext hc _ hident =>
    absurd (scanFrom_ident (htext ▸ h) hc) hident
  have hnumber : (∀ c ∈ text, c.isDigit = true ∨ c = '.' ∨ c = '-') → Apart s rest := by
    intro hnumeric _ hident
    rw [scanFrom_number hnumeric] at h
    cases h
    exact absurd rfl hident
  cases hspells with
  | symbol hsymbol =>
    cases t <;> cases hsymbol <;> first | exact hlast [] rfl rfl | exact hlast [_] rfl rfl
  | word _ _ => exact fun _ _ => hfollows.1
  | string _ => exact hlast _ rfl rfl
  | unit _ => exact hlast _ rfl rfl
  | int _ hdigits _ => exact hnumber (numeric_int hdigits)
  | double _ hwhole _ hfrac => exact hnumber (numeric_decimal hwhole hfrac)
  | existsCall _ => exact hlast _ rfl rfl
  | getCall _ _ _ =>
    intro _ _ c hc
    have hfield := hfollows c hc
    have hdot := hdot c hc
    rw [isIdentChar, Bool.or_eq_false_iff]
    exact ⟨hfield, hdot⟩

/-- **Where the scan gets through a source it gets through the source's tokens, each on its own.** -/
theorem scanParts_of_lexes {cs : List Char} (h : Lexes cs ts) {s' : ScanState}
    (hscan : scanFrom s cs = some s') (hapart : Apart s cs) :
    scanParts s.inQuotes ((ts.map canonical).map text) = some s'.inQuotes := by
  induction h generalizing s with
  | nil =>
    cases hscan
    rfl
  | blank hblank _ ih =>
    rw [scanFrom_cons, resets_of_isWhitespace hblank s, Option.bind_some] at hscan
    exact ih (s := .fresh s.inQuotes) hscan fun _ hident => absurd rfl hident
  | @token text rest t ts hspells hfollows hrest ih =>
    rw [scanFrom_append] at hscan
    obtain ⟨s₁, htext, hafter⟩ := Option.bind_eq_some_iff.mp hscan
    obtain ⟨c, cs, rfl, -, -⟩ := hspells.head
    replace htext := scanFrom_fresh (cons_ne_nil _ _) htext fun hin hident =>
      hapart hin hident
    have hcanonical := scanFrom_canonical hspells s.inQuotes
    rw [htext, Option.map_some] at hcanonical
    obtain ⟨s₂, hs₂, hquotes⟩ := Option.map_eq_some_iff.mp hcanonical
    rw [map_cons, map_cons, scanParts, hs₂, Option.bind_some, hquotes]
    exact ih hafter (apart_of_spells hspells hfollows hrest.stopsAt_dot htext)

/-! ## The printed text -/

/-- A blank ends every token. -/
theorem follows_blank (t : Token) {rest : List Char} (h : rest.head? = none ∨ rest.head? = some ' ') :
    Follows t rest := by
  have hstops : ∀ {p : Char → Bool}, p ' ' = false → StopsAt p rest := by
    intro p hp c hc
    rcases h with h | h
    · rw [h] at hc
      cases hc
    · rw [h] at hc
      rwa [← Option.some.inj hc]
  cases t with
  | word w => exact ⟨hstops rfl, fun _ => hstops rfl⟩
  | not | lt | gt | minus | intLiteral | doubleLiteral | getCall => exact hstops rfl
  | _ => trivial

theorem lexes_printTokens (h : ∀ t ∈ ts, Spells t.text t) :
    Lexes (printTokens ts) ts := by
  induction ts with
  | nil => exact .nil
  | cons t ts ih =>
    have ht := h t mem_cons_self
    have hts := ih (forall_mem_cons.mp h).2
    rcases ts with _ | ⟨t', ts⟩
    · have hone := Lexes.token ht (follows_blank t (.inl rfl)) .nil
      rw [append_nil] at hone
      rwa [printTokens, map_singleton, intercalate_singleton]
    · exact .token ht (follows_blank t (.inr rfl)) (.blank rfl hts)

/-- Parentheses are nothing to the scan. -/
theorem scanParts_visible (inQuotes : Bool) (ts : List Token) :
    scanParts inQuotes ((visible ts).map text) = scanParts inQuotes (ts.map text) := by
  induction ts generalizing inQuotes with
  | nil => rfl
  | cons t ts ih =>
    by_cases ht : t ≠ .lParen ∧ t ≠ .rParen
    · have hvisible : visible (t :: ts) = t :: visible ts := filter_cons_of_pos (by simpa using ht)
      rw [hvisible, map_cons, map_cons, scanParts, scanParts]
      exact congrArg _ (funext fun s => ih s.inQuotes)
    · have hvisible : visible (t :: ts) = visible ts := filter_cons_of_neg (by simpa using ht)
      have hparen : scanFrom (.fresh inQuotes) t.text = some (.fresh inQuotes) := by
        obtain rfl | rfl : t = .lParen ∨ t = .rParen := by tauto
        all_goals cases inQuotes <;> rfl
      rw [hvisible, map_cons, scanParts, hparen, Option.bind_some]
      exact ih inQuotes

/-- Every token of a parsed tree can be read back. -/
theorem Derives.spells (h : Derives level ts c) (hspells : ∀ t ∈ ts, ∃ text, Spells text t)
    (level' : Level) :
    ∀ t ∈ c.tokens level', Spells t.text t := by
  intro t ht
  by_cases hparen : t ≠ .lParen ∧ t ≠ .rParen
  · have hmem : t ∈ Embyr.visible (c.tokens level') := mem_filter.mpr ⟨ht, by simpa using hparen⟩
    rw [h.visible level'] at hmem
    obtain ⟨t₀, ht₀, rfl⟩ := mem_map.mp (mem_filter.mp hmem).1
    obtain ⟨text, htext⟩ := hspells t₀ ht₀
    exact htext.canonical
  · obtain rfl | rfl : t = .lParen ∨ t = .rParen := by tauto
    all_goals exact .symbol rfl

theorem Lexes.spells {cs : List Char} (h : Lexes cs ts) :
    ∀ t ∈ ts, ∃ text, Spells text t := by
  induction h with
  | nil => exact fun _ ht => nomatch ht
  | blank _ _ ih => exact ih
  | token hspells _ _ ih => exact forall_mem_cons.mpr ⟨⟨_, hspells⟩, ih⟩

theorem detectUnsupportedConstruct_print {source : String}
    (hnone : detectUnsupportedConstruct source = none) (hlexes : Lexes source.toList ts)
    (h : Derives .or ts c) : detectUnsupportedConstruct c.print = none := by
  obtain ⟨s, hscan⟩ :=
    Option.isSome_iff_exists.mp (detectUnsupportedConstruct_eq_none_iff.mp hnone)
  have hparts := scanParts_of_lexes hlexes hscan fun _ hident => absurd rfl hident
  rw [← scanParts_visible, ← h.visible .or, scanParts_visible, ← scanFrom_intercalate resets_blank] at hparts
  obtain ⟨s', hs', -⟩ := Option.map_eq_some_iff.mp hparts
  rw [detectUnsupportedConstruct_eq_none_iff, Condition.print, String.toList_ofList, printTokens]
  exact Option.isSome_iff_exists.mpr ⟨s', hs'⟩

/-- **Printing a parsed condition and parsing the text gives the condition back.** -/
theorem parse_print {source : String} {c : Condition} (h : parseCondition source = .ok c) :
    parseCondition c.print = .ok c := by
  obtain ⟨hnone, ts, htokenize, hderives⟩ := parseCondition_eq_ok_iff.mp h
  have hlexes := tokenize_eq_ok_iff.mp htokenize
  have hprint : tokenize c.print = .ok (c.tokens .or) := by
    rw [tokenize_eq_ok_iff, Condition.print, String.toList_ofList]
    exact lexes_printTokens (hderives.spells hlexes.spells .or)
  exact parseCondition_eq_ok_iff.mpr
    ⟨detectUnsupportedConstruct_print hnone hlexes hderives, _, hprint, hderives.tokens .or⟩

/-- A condition whose text needs one pair of parentheses. -/
def eitherAndMember : Condition :=
  .and (.or (.literal true) (.literal false))
    (.compare (.crossDocumentExists ⟨[.literal "members", .authUid]⟩) .eq (.boolLiteral true))

theorem parseCondition_eitherAndMember :
    parseCondition ("((true || (false))) && exists(/databases/$(database)/documents//members/" ++
      "$(request.auth.uid))") = .ok eitherAndMember := by
  refine parseCondition_eq_ok_iff.mpr ⟨by decide, [.lParen, .lParen, .word "true", .or,
    .lParen, .word "false", .rParen, .rParen, .rParen, .and,
    .existsCall "/databases/$(database)/documents//members/$(request.auth.uid)"],
    by decide, ?_⟩
  have hfalse := paren (.ofAnd (.ofUnary (.ofPrimary (.literal false))))
  have heither : Derives .or [.word "true", .or, .lParen, .word "false", .rParen] _ :=
    .or (.ofAnd (.ofUnary (.ofPrimary (.literal true)))) (.ofUnary (.ofPrimary hfalse))
  have hparen := paren (.ofAnd (.ofUnary (.ofPrimary (.paren heither))))
  have hpath : parsePathTemplate "/databases/$(database)/documents//members/$(request.auth.uid)" =
      .ok ⟨[.literal "members", .authUid]⟩ := by decide
  have hexists : IsBase
      (.existsCall "/databases/$(database)/documents//members/$(request.auth.uid)")
      (.crossDocumentExists ⟨[.literal "members", .authUid]⟩) := by
    rw [IsBase, parseBaseOperand, hpath]
    rfl
  exact .ofAnd (.and (.ofUnary (.ofPrimary hparen)) (.ofPrimary (.bareExists hexists)))

theorem parse_print_eitherAndMember :
    eitherAndMember.print = "( true || false ) && exists(/databases/$(database)/documents/members/"
        ++ "$(request.auth.uid))" ∧
      parseCondition eitherAndMember.print = .ok eitherAndMember :=
  ⟨by decide, parse_print parseCondition_eitherAndMember⟩

end Embyr
