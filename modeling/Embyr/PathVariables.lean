import Embyr.BlockTargets
import Embyr.ConditionPrinter
import Embyr.Lib.Insertion

/-!
# Path variables in conditions

`decompose_block` writes `request.path.` before every whole-word occurrence of a
captured name in the text of a condition, one pass for each name.

* `qualify`, `Faithful` — what the rewriting is for: in the tokens of the condition the
  operands that are captured names, and no others, become path variables.
* `inserts_rewriteFrom` — a pass only inserts.
* `Derives.letters` — two sources of one tree have the same letters, so a rewriting
  that keeps the tree has put exactly one mark for each captured operand.
* `exists_marked` — conversely the marked condition is part of the rewritten one, so
  with the right number of marks it is the rewritten one.
* `rewriting_faithful_iff` — the two together.
-/

namespace Embyr

open Insertion List

/-! ## What the rewriting is for -/

/-- `request.path.` -/
def pathMark : List Char := "request.path.".toList

/-- An operand that is a captured name. -/
def Token.isCaptured (names : List String) : Token → Bool
  | .word w => w ∈ names
  | _ => false

/-- A captured operand becomes a path variable; every other token stays. -/
def qualify (names : List String) : Token → Token
  | .word w => if w ∈ names then .word ("request.path." ++ w) else .word w
  | t => t

/-- The rewritten condition has the tree of the condition, with its captured operands
replaced by path variables. -/
def Faithful (block : MatchBlock) (condition : String) : Prop :=
  ∃ tokens tree, tokenize condition = .ok tokens ∧
    Derives .or (tokens.map (qualify block.capturedNames)) tree ∧
    parseCondition (block.rewritten condition) = .ok tree

/-- The condition has such a tree, and the rewriting makes one replacement for each
captured operand. -/
def MarksOperands (block : MatchBlock) (condition : String) : Prop :=
  ∃ tokens tree, tokenize condition = .ok tokens ∧
    Derives .or (tokens.map (qualify block.capturedNames)) tree ∧
    (block.rewritten condition).length =
      condition.length + "request.path.".length * tokens.countP (Token.isCaptured block.capturedNames)

/-! ## A pass only inserts -/

theorem inserts_rewriteFrom {name : List Char} (hname : name ≠ []) (before : Option Char)
    (skip : ℕ) (text : List Char)
    (hskip : 0 < skip → (∀ c ∈ name, isWordChar c = true) →
      before.any isWordChar = true ∧ ∀ c ∈ text.take skip, isWordChar c = true) :
    ∃ k, Inserts pathMark isWordChar name before text
      (text.take skip ++ rewriteFrom name before skip text) k := by
  induction text generalizing before skip with
  | nil =>
    rw [take_nil, rewriteFrom]
    exact ⟨0, .nil⟩
  | cons c cs ih =>
    rcases skip with _ | skip
    · rw [rewriteFrom, if_neg (lt_irrefl 0), take_zero, nil_append]
      split_ifs with hmatch
      · rw [Bool.and_eq_true, Bool.and_eq_true, Bool.not_eq_true', Bool.not_eq_true',
          isPrefixOf_iff_prefix] at hmatch
        obtain ⟨⟨hfront, hbefore⟩, -⟩ := hmatch
        obtain ⟨n, ns, rfl⟩ := exists_cons_of_ne_nil hname
        obtain ⟨rfl, hns⟩ := cons_prefix_cons.mp hfront
        have htake := prefix_iff_eq_take.mp hns
        obtain ⟨k, hk⟩ := ih (some n) ns.length fun _ hword => by
          rw [← htake]
          exact ⟨by simpa using hword n mem_cons_self, fun c hc =>
            hword c (mem_cons_of_mem _ hc)⟩
        rw [← htake] at hk
        exact ⟨k + 1, .insert hbefore hk⟩
      · obtain ⟨k, hk⟩ := ih (some c) 0 fun h => absurd h (lt_irrefl 0)
        refine ⟨k, .keep (fun hwhole => hmatch ?_) hk⟩
        rw [Bool.and_eq_true, Bool.and_eq_true, Bool.not_eq_true', Bool.not_eq_true',
          isPrefixOf_iff_prefix]
        exact ⟨⟨hwhole.occurs, hwhole.starts⟩, hwhole.stops⟩
    · have hinside := hskip (Nat.succ_pos skip)
      rw [rewriteFrom, if_pos (Nat.succ_pos skip), Nat.add_sub_cancel, take_succ_cons]
      obtain ⟨k, hk⟩ := ih (some c) skip fun _ hword => by
        obtain ⟨hc, hcs⟩ := forall_mem_cons.mp (hinside hword).2
        exact ⟨by simpa using hc, hcs⟩
      refine ⟨k, .keep (fun hwhole => ?_) hk⟩
      -- inside an occurrence the element before joins
      have hbefore := (hinside hwhole.joined).1
      rw [hwhole.starts] at hbefore
      cases hbefore

variable {block : MatchBlock}

/-- The names of a block are not empty. -/
theorem ne_nil_of_mem_capturedNames {name : String}
    (h : name ∈ block.capturedNames) : name.toList ≠ [] := by
  obtain ⟨s, hs, hname⟩ := mem_filterMap.mp h
  cases s with
  | wildcard n =>
    cases hname
    obtain ⟨pattern, text, -, hparse⟩ := block.written _ hs
    unfold parseOneSegment at hparse
    split at hparse
    · split_ifs at hparse with hrec hempty
      · cases hparse
      · cases hparse
      · cases hparse
        simpa using hempty
    · split_ifs at hparse <;> cases hparse
  | literal | recursiveWildcard => cases hname

/-- The rewriting of a condition is a pass for each captured name. -/
theorem passes_rewritten (block : MatchBlock) (condition : String) :
    ∃ k, Insertion.Passes pathMark isWordChar (block.capturedNames.map String.toList) condition.toList
      (block.rewritten condition).toList k := by
  have hnames : ∀ name ∈ block.capturedNames, name.toList ≠ [] := fun name h =>
    ne_nil_of_mem_capturedNames h
  rw [MatchBlock.rewritten]
  generalize block.capturedNames = names at hnames
  induction names generalizing condition with
  | nil => exact ⟨0, .nil⟩
  | cons name names ih =>
    obtain ⟨hname, hnames⟩ := forall_mem_cons.mp hnames
    obtain ⟨k, hk⟩ := inserts_rewriteFrom hname none 0 condition.toList fun h =>
      absurd h (lt_irrefl 0)
    obtain ⟨l, hl⟩ := ih (rewritePathVariable condition name) hnames
    rw [take_zero, nil_append] at hk
    rw [rewritePathVariable, String.toList_ofList] at hl
    exact ⟨k + l, .cons hk hl⟩

/-! ## The letters of a tree -/

/-- The number of letters in a text. -/
def letters (text : List Char) : ℕ := text.countP isIdentStart

def Token.letters : Token → ℕ
  | .word w | .stringLiteral w | .singleQuotedUnit w => Embyr.letters w.toList
  | .existsCall rawPath => 6 + Embyr.letters rawPath.toList
  | .getCall rawPath field => 7 + Embyr.letters rawPath.toList + Embyr.letters field.toList
  | _ => 0

/-- The letters of several tokens. -/
def lettersOf (ts : List Token) : ℕ := (ts.map Token.letters).sum

theorem letters_append (text rest : List Char) :
    letters (text ++ rest) = letters text + letters rest := countP_append

variable {text : List Char}

theorem letters_eq_zero (h : ∀ c ∈ text, isIdentStart c = false) :
    letters text = 0 := by
  refine countP_eq_zero.mpr fun c hc => ?_
  rw [h c hc]
  decide

theorem letters_digits {digits : List Char} (h : ∀ c ∈ digits, c.isDigit = true) :
    letters digits = 0 := by
  refine letters_eq_zero fun c hc => ?_
  by_contra hident
  have hdigit := h c hc
  rw [isDigit_of_isIdentStart (by simpa using hident)] at hdigit
  cases hdigit

variable {t : Token}

/-- A token has the letters of its text. -/
theorem Spells.letters (h : Spells text t) :
    Embyr.letters text = t.letters := by
  have hsign (negative : Bool) : Embyr.letters (signText negative) = 0 := by
    cases negative <;> rfl
  cases h with
  | symbol h => cases t <;> cases h <;> rfl
  | word => rw [Token.letters, String.toList_ofList]
  | string =>
    rw [Token.letters, String.toList_ofList, letters_append]
    rfl
  | unit =>
    rw [Token.letters, String.toList_ofList, letters_append]
    rfl
  | int _ hdigits _ => simp [Token.letters, letters_append, hsign, letters_digits hdigits]
  | @double _ _ frac _ hwhole _ hfrac =>
    have hdot : Embyr.letters ('.' :: frac) = 0 := by
      rw [← singleton_append, letters_append, letters_digits hfrac]
      rfl
    simp [Token.letters, letters_append, hsign, letters_digits hwhole, hdot]
  | @existsCall rawPath =>
    have hname : Embyr.letters "exists(".toList = 6 := rfl
    have hclose : Embyr.letters [')'] = 0 := rfl
    rw [Token.letters, String.toList_ofList (l := rawPath), letters_append, letters_append, hname,
      hclose, add_zero]
  | @getCall rawPath field =>
    have hname : Embyr.letters "get(".toList = 3 := rfl
    have hdata : Embyr.letters (')' :: ".data.".toList) = 4 := rfl
    rw [Token.letters, String.toList_ofList (l := rawPath), String.toList_ofList (l := field),
      letters_append, letters_append, letters_append, hname, hdata]
    omega

variable {cs : List Char} {ts : List Token}

theorem Lexes.letters (h : Lexes cs ts) :
    Embyr.letters cs = lettersOf ts := by
  induction h with
  | nil => rfl
  | @blank c cs ts hblank _ ih =>
    have hc : isIdentStart c = false :=
      isIdentStart_of_not_isIdentChar (isIdentChar_of_isWhitespace hblank)
    rw [← singleton_append, letters_append, ih, letters_eq_zero (by simpa using hc), zero_add]
  | token hspells _ _ ih =>
    rw [letters_append, hspells.letters, ih]
    rfl

theorem letters_canonical (t : Token) : t.canonical.letters = t.letters := by
  have hpath (rawPath : String) :
      Embyr.letters (normalizePath rawPath).toList = Embyr.letters rawPath.toList := by
    have hslash (text : List Char) :
        Embyr.letters (text.filter (· != '/')) = Embyr.letters text := by
      rw [letters, letters, countP_filter]
      refine countP_congr fun c _ => ⟨fun h => (Bool.and_eq_true _ _ ▸ h).1, fun h => ?_⟩
      rw [h, Bool.true_and, bne_iff_ne]
      rintro rfl
      cases h
    rw [← hslash, filter_normalizePath, hslash]
  cases t <;> simp [Token.canonical, Token.letters, hpath]

theorem lettersOf_visible (ts : List Token) : lettersOf (visible ts) = lettersOf ts := by
  induction ts with
  | nil => rfl
  | cons t ts ih =>
    by_cases hparen : t ≠ .lParen ∧ t ≠ .rParen
    · rw [visible, filter_cons_of_pos (by simpa using hparen), ← visible]
      simp only [lettersOf, map_cons, sum_cons]
      exact congrArg _ ih
    · rw [visible, filter_cons_of_neg (by simpa using hparen), ← visible, ih]
      have hzero : t.letters = 0 := by
        rw [not_and_or, not_not, not_not] at hparen
        obtain rfl | rfl := hparen <;> rfl
      simp [lettersOf, hzero]

/-- **Two sources of one tree have the same letters.** -/
theorem Derives.letters {level level' : Level} {ts' : List Token} {c : Condition}
    (h : Derives level ts c) (h' : Derives level' ts' c) : lettersOf ts = lettersOf ts' := by
  have hcanonical (us : List Token) : lettersOf (us.map Token.canonical) = lettersOf us := by
    simp [lettersOf, Function.comp_def, letters_canonical]
  rw [← hcanonical ts, ← hcanonical ts', ← lettersOf_visible (ts.map _),
    ← lettersOf_visible (ts'.map _), ← h.visible level, ← h'.visible level]

/-- Each captured operand gets the letters of `request.path`. -/
theorem lettersOf_qualify (names : List String) (ts : List Token) :
    lettersOf (ts.map (qualify names)) = lettersOf ts + 11 * ts.countP (Token.isCaptured names) := by
  have hmark : letters "request.path.".toList = 11 := rfl
  have htoken (t : Token) :
      (qualify names t).letters = t.letters + if t.isCaptured names = true then 11 else 0 := by
    cases t with
    | word w =>
      by_cases hw : w ∈ names
      · rw [qualify, if_pos hw, Token.letters, String.toList_append, letters_append, hmark]
        simp [Token.isCaptured, Token.letters, hw, add_comm]
      · simp [qualify, Token.isCaptured, hw]
    | _ => rfl
  induction ts with
  | nil => rfl
  | cons t ts ih =>
    have hcons (u : Token) (us : List Token) : lettersOf (u :: us) = u.letters + lettersOf us := rfl
    rw [map_cons, hcons, hcons, htoken, ih, countP_cons]
    split_ifs <;> omega

/-! ## From the tree to the number of marks -/

theorem length_pathMark : pathMark.length = 13 := rfl

variable {condition : String}

/-- A faithful rewriting marks the captured operands and nothing else. -/
theorem marksOperands_of_faithful
    (h : Faithful block condition) : MarksOperands block condition := by
  obtain ⟨tokens, tree, htokens, htree, hparse⟩ := h
  refine ⟨tokens, tree, htokens, htree, ?_⟩
  obtain ⟨k, hpasses⟩ := passes_rewritten block condition
  obtain ⟨-, tokens', htokens', htree'⟩ := parseCondition_eq_ok_iff.mp hparse
  have hletters : letters (block.rewritten condition).toList = letters condition.toList + 11 * k :=
    hpasses.countP isIdentStart
  rw [(tokenize_eq_ok_iff.mp htokens').letters, htree'.letters htree, lettersOf_qualify,
    ← (tokenize_eq_ok_iff.mp htokens).letters] at hletters
  have hlength := hpasses.length
  rw [length_pathMark, String.length_toList, String.length_toList] at hlength
  rw [hlength, show tokens.countP _ = k by omega]
  rfl

/-! ## Operands do not follow numbers -/

def Token.isNumber : Token → Bool
  | .intLiteral _ | .doubleLiteral _ => true
  | _ => false

/-- A path variable does not come directly after a number. -/
def MayPrecede (t t' : Token) : Prop := t.isNumber = true → ∀ name, t' ≠ .word ("request.path." ++ name)

/-- A token that may come between any two. -/
def Neutral (t : Token) : Prop := t.isNumber = false ∧ ∀ name, t ≠ .word ("request.path." ++ name)

theorem Neutral.isChain (h : Neutral t) {ts' : List Token} (hts : ts.IsChain MayPrecede)
    (hts' : ts'.IsChain MayPrecede) : (ts ++ t :: ts').IsChain MayPrecede := by
  refine isChain_append.mpr ⟨hts, ?_, ?_⟩
  · refine isChain_cons.mpr ⟨fun t' _ hnumber => ?_, hts'⟩
    rw [h.1] at hnumber
    cases hnumber
  · rintro t' - y hy -
    cases hy
    exact h.2

theorem neutral_symbol (h : t.symbol = some text) : Neutral t := by
  cases t <;> cases h <;> exact ⟨rfl, nofun⟩

theorem neutral_arithmeticOp (op : ArithmeticOp) : Neutral op.token := by
  cases op <;> exact neutral_symbol rfl

theorem neutral_compareOp (op : CompareOp) : Neutral op.token := by
  cases op <;> exact neutral_symbol rfl

theorem neutral_in : Neutral (.word "in") := by
  refine ⟨rfl, fun name h => ?_⟩
  have hlength := congrArg String.length (Token.word.inj h)
  rw [String.length_append] at hlength
  have hmark : "request.path.".length = 13 := rfl
  have hin : "in".length = 2 := rfl
  omega

theorem IsOperand.mayPrecede {o : Operand} (h : IsOperand ts o) :
    ts.IsChain MayPrecede := by
  cases h with
  | base => exact isChain_singleton _
  | @arithmetic t t' _ _ op =>
    exact (neutral_arithmeticOp op).isChain (isChain_singleton t) (isChain_singleton t')
  | @shifted t _ op amount unit =>
    refine (neutral_arithmeticOp op).isChain (isChain_singleton t) ?_
    simp [durationTokens, MayPrecede, Token.isNumber]

theorem IsItems.mayPrecede {items : List Operand} (h : IsItems ts items) :
    ts.IsChain MayPrecede := by
  induction h with
  | last ho => exact Neutral.isChain (neutral_symbol rfl) ho.mayPrecede .nil
  | cons ho _ ih => exact Neutral.isChain (neutral_symbol rfl) ho.mayPrecede ih

theorem Derives.mayPrecede {level : Level} {c : Condition} (h : Derives level ts c) :
    ts.IsChain MayPrecede := by
  induction h with
  | or _ _ hl hr | and _ _ hl hr => exact Neutral.isChain (neutral_symbol rfl) hl hr
  | ofAnd _ ih | ofUnary _ ih | ofPrimary _ ih => exact ih
  | not _ ih => exact Neutral.isChain (neutral_symbol rfl) .nil ih
  | paren _ ih =>
    refine Neutral.isChain (neutral_symbol rfl) ?_ .nil
    exact Neutral.isChain (neutral_symbol rfl) .nil ih
  | literal | bareExists => exact isChain_singleton _
  | compare op hl _ hr => exact (neutral_compareOp op).isChain hl.mayPrecede hr.mayPrecede
  | isIn hl _ hlist =>
    refine neutral_in.isChain hl.mayPrecede ?_
    refine Neutral.isChain (neutral_symbol rfl) .nil ?_
    rcases hlist with ⟨rfl, -⟩ | hitems
    · exact isChain_singleton _
    · exact hitems.mayPrecede

/-! ## The marked condition -/

/-- Two texts start alike, for the token before them. -/
def StartsAlike (rest rest' : List Char) : Prop :=
  rest'.head? = rest.head? ∨ rest'.head? = some 'r' ∧ ∃ c ∈ rest.head?, isIdentStart c = true

variable {rest : List Char}

theorem StartsAlike.stopsAt {rest' : List Char} (h : StartsAlike rest rest') {p : Char → Bool}
    (hp : ∀ c, isIdentStart c = true → p c = p 'r') (hrest : StopsAt p rest) : StopsAt p rest' := by
  intro x hx
  obtain hsame | ⟨hr, c, hc, hident⟩ := h
  · exact hrest x (hsame ▸ hx)
  · obtain rfl := Option.some.inj (hr.symm.trans hx)
    rw [← hp c hident]
    exact hrest c hc

variable {c : Char}

theorem isFieldChar_of_isIdentStart (h : isIdentStart c = true) :
    isFieldChar c = true := by
  simp only [isIdentStart, isFieldChar, Char.isAlphanum, Bool.or_eq_true] at *
  tauto

theorem isIdentStart_ne {c' : Char} (h : isIdentStart c = true) (hc' : isIdentStart c' = false) :
    (c == c') = false := by
  rw [beq_eq_false_iff_ne]
  rintro rfl
  rw [h] at hc'
  cases hc'

theorem StartsAlike.follows {rest' : List Char} (h : StartsAlike rest rest')
    (ht : Follows t rest) : Follows t rest' := by
  have hequals := @StartsAlike.stopsAt rest rest' h (· == '=') fun c hc => isIdentStart_ne hc rfl
  have hdigit := @StartsAlike.stopsAt rest rest' h (·.isDigit) fun c hc => isDigit_of_isIdentStart hc
  cases t with
  | not | lt | gt => exact hequals ht
  | minus | doubleLiteral => exact hdigit ht
  | word w =>
    refine ⟨h.stopsAt (fun c hc => isIdentChar_of_isIdentStart hc) ht.1, fun hcall => ?_⟩
    exact h.stopsAt (fun c hc => isIdentStart_ne hc rfl) (ht.2 hcall)
  | intLiteral =>
    refine h.stopsAt (fun c hc => ?_) ht
    rw [isDigit_of_isIdentStart hc, isIdentStart_ne hc rfl]
    rfl
  | getCall => exact h.stopsAt (fun c hc => isFieldChar_of_isIdentStart hc) ht
  | _ => trivial

/-- A token that joins with the word after it is a number. -/
theorem Spells.isNumber (hspells : Spells text t) (hfollows : Follows t rest) {before : Option Char}
    (hlast : (lastOf before text).any isWordChar = true) (hc : c ∈ rest.head?)
    (hident : isIdentStart c = true) : t.isNumber = true := by
  have hlastOf (l : List Char) (x : Char) : lastOf before (l ++ [x]) = some x := by
    rw [lastOf, getLast?_concat]
    rfl
  cases hspells with
  | symbol h => cases t <;> cases h <;> cases hlast
  | word =>
    have hstop := hfollows.1 c hc
    rw [isIdentChar_of_isIdentStart hident] at hstop
    cases hstop
  | string | unit | existsCall =>
    rw [hlastOf] at hlast
    cases hlast
  | int | double => rfl
  | getCall =>
    have hstop := hfollows c hc
    rw [isFieldChar_of_isIdentStart hident] at hstop
    cases hstop

theorem isIdentChar_of_isWordChar (h : isWordChar c = true) : isIdentChar c = true := by
  rw [isIdentChar, ← isWordChar, h]
  rfl

theorem spells_pathVariable {a : Char} {w : List Char} (ha : isIdentStart a = true)
    (hw : ∀ x ∈ w, isIdentChar x = true) :
    Spells (pathMark ++ a :: w) (.word ("request.path." ++ .ofList (a :: w))) := by
  have hmark : ∀ x ∈ "equest.path.".toList, isIdentChar x = true := by
    simp
    decide
  have htext : "request.path." ++ String.ofList (a :: w) =
      String.ofList ('r' :: ("equest.path.".toList ++ a :: w)) := by
    rw [← String.toList_inj]
    simp
  rw [htext]
  refine Spells.word rfl fun x hx => ?_
  obtain hx | hx := mem_append.mp hx
  · exact hmark x hx
  · obtain rfl | hx := mem_cons.mp hx
    · exact isIdentChar_of_isIdentStart ha
    · exact hw x hx

theorem follows_pathVariable (h : StopsAt isIdentChar rest) (name : String) :
    Follows (.word ("request.path." ++ name)) rest := by
  refine ⟨h, fun hcall => ?_⟩
  have hmark : "request.path.".length = 13 := rfl
  have hexists : "exists".length = 6 := rfl
  have hget : "get".length = 3 := rfl
  obtain hname | hname := hcall
  · have hlength := congrArg String.length hname
    rw [String.length_append] at hlength
    omega
  · have hlength := congrArg String.length hname
    rw [String.length_append] at hlength
    omega

theorem qualify_of_not_captured {names : List String} (h : t.isCaptured names = false) :
    qualify names t = t := by
  cases t with
  | word w => exact if_neg (by simpa [Token.isCaptured] using h)
  | _ => rfl

/-- A condition has a version in which each captured operand is marked; its tokens are
the qualified ones, and the rewriting starts from it. -/
theorem exists_marked {names : List String} (h : Lexes cs ts)
    (hchain : (ts.map (qualify names)).IsChain MayPrecede)
    (hdotless : ∀ w ∈ names, .word w ∈ ts → ∀ c ∈ w.toList, isWordChar c = true)
    (before : Option Char)
    (hbefore : before.any isWordChar = true → (∃ c ∈ cs.head?, isIdentStart c = true) →
      ∀ w ∈ names, ts.head? ≠ some (.word w)) :
    ∃ marked, Lexes marked (ts.map (qualify names)) ∧ StartsAlike cs marked ∧
      marked.length = cs.length + 13 * ts.countP (Token.isCaptured names) ∧
      Traced pathMark isWordChar (names.map String.toList) [] before cs marked cs := by
  induction h generalizing before with
  | nil => exact ⟨[], .nil, .inl rfl, rfl, .nil⟩
  | @blank c cs ts hblank _ ih =>
    obtain ⟨marked, hlexes, -, hlength, htraced⟩ := ih hchain hdotless (some c) fun hword => by
      have hident := isIdentChar_of_isWordChar hword
      rw [isIdentChar_of_isWhitespace hblank] at hident
      cases hident
    refine ⟨c :: marked, .blank hblank hlexes, .inl rfl, ?_, .element (fun _ => rfl) htraced⟩
    rw [length_cons, hlength, length_cons]
    omega
  | @token text rest t ts hspells hfollows _ ih =>
    obtain ⟨hnext, hchain⟩ := isChain_cons.mp hchain
    obtain ⟨marked, hlexes, halike, hlength, htraced⟩ := ih hchain
      (fun w hw hmem => hdotless w hw (mem_cons_of_mem _ hmem)) (lastOf before text)
      fun hlast ⟨c, hc, hident⟩ w hw hhead => by
        -- after a number there is no captured operand
        have hnumber := hspells.isNumber hfollows hlast hc hident
        have hqualify : qualify names (.word w) = .word ("request.path." ++ w) := if_pos hw
        have hword : (ts.map (qualify names)).head? = some (.word ("request.path." ++ w)) := by
          rw [head?_map, hhead, Option.map_some, hqualify]
        refine hnext _ hword ?_ w rfl
        rwa [qualify_of_not_captured]
        cases t with
        | word => cases hnumber
        | _ => rfl
    by_cases hcaptured : t.isCaptured names = true
    · cases hspells with
      | symbol h =>
        cases t with
        | word => cases h
        | _ => cases hcaptured
      | @word a w ha hw =>
        have hmem : String.ofList (a :: w) ∈ names := by simpa [Token.isCaptured] using hcaptured
        have hqualify : qualify names (.word (.ofList (a :: w))) =
            .word ("request.path." ++ .ofList (a :: w)) := if_pos hmem
        have hjoined := hdotless _ hmem mem_cons_self
        rw [String.toList_ofList] at hjoined
        have hfree : before.any isWordChar = false := by
          by_contra hjoin
          exact hbefore (by simpa using hjoin) ⟨a, rfl, ha⟩ _ hmem rfl
        have hstops : rest.head?.any isWordChar = false := by
          rw [Option.any_eq_false]
          intro c hc
          by_contra hword
          have hstop := hfollows.1 c hc
          rw [isIdentChar_of_isWordChar (by simpa using hword)] at hstop
          cases hstop
        refine ⟨pathMark ++ (a :: w ++ marked), ?_, .inr ⟨rfl, a, rfl, ha⟩, ?_, ?_⟩
        · rw [map_cons, hqualify, ← append_assoc]
          refine .token (spells_pathVariable ha hw) ?_ hlexes
          exact halike.follows (follows_pathVariable hfollows.1 _)
        · rw [length_append, length_pathMark, length_append, hlength,
            length_append, countP_cons_of_pos hcaptured]
          omega
        · refine .word ?_ hjoined hfree hstops (.inl ⟨rfl, not_mem_nil⟩) ?_
          · exact mem_map.mpr ⟨_, hmem, String.toList_ofList⟩
          · rwa [lastOf_cons] at htraced
      | _ => cases hcaptured
    · rw [Bool.not_eq_true] at hcaptured
      obtain ⟨c, cs, htext, -, -⟩ := hspells.head
      refine ⟨text ++ marked, ?_, .inl ?_, ?_, htraced.elements text⟩
      · rw [map_cons, qualify_of_not_captured hcaptured]
        exact .token hspells (halike.follows hfollows) hlexes
      · rw [htext]
        rfl
      · rw [length_append, hlength, length_append, countP_cons_of_neg (by simp [hcaptured])]
        omega

/-! ## The rewriting -/

theorem Lexes.isIdentChar (h : Lexes cs ts) {w : String}
    (hw : .word w ∈ ts) : ∀ c ∈ w.toList, Embyr.isIdentChar c = true := by
  induction h with
  | nil => cases hw
  | blank _ _ ih => exact ih hw
  | token hspells _ _ ih =>
    obtain rfl | hw := mem_cons.mp hw
    · cases hspells with
      | symbol h => cases h
      | word hc hident =>
        rw [String.toList_ofList]
        exact forall_mem_cons.mpr ⟨isIdentChar_of_isIdentStart hc, hident⟩
    · exact ih hw

/-- With the right number of marks the rewritten condition is the marked one. -/
theorem faithful_of_marksOperands {tree : Condition}
    (hparse : parseCondition (block.rewritten condition) = .ok tree)
    (hnames : ∀ name ∈ block.capturedNames, '.' ∉ name.toList)
    (h : MarksOperands block condition) : Faithful block condition := by
  obtain ⟨tokens, tree', htokens, htree, hlength⟩ := h
  have hlexes := tokenize_eq_ok_iff.mp htokens
  have hdotless : ∀ w ∈ block.capturedNames, .word w ∈ tokens → ∀ c ∈ w.toList,
      isWordChar c = true := by
    intro w hw hmem c hc
    have hident := hlexes.isIdentChar hmem c hc
    rw [isIdentChar, ← isWordChar, Bool.or_eq_true] at hident
    obtain hword | hdot := hident
    · exact hword
    · exact absurd (beq_iff_eq.mp hdot ▸ hc) (hnames w hw)
  obtain ⟨marked, hmarked, -, hmarkedLength, htraced⟩ :=
    exists_marked hlexes htree.mayPrecede hdotless none fun hnone => by cases hnone
  obtain ⟨k, hpasses⟩ := passes_rewritten block condition
  have heq : marked = (block.rewritten condition).toList := by
    refine (hpasses.sublist htraced).eq_of_length ?_
    rw [hmarkedLength, String.length_toList, String.length_toList, hlength]
    rfl
  obtain ⟨hsupported, -⟩ := parseCondition_eq_ok_iff.mp hparse
  refine ⟨tokens, tree', htokens, htree, parseCondition_eq_ok_iff.mpr ⟨hsupported, _, ?_, htree⟩⟩
  exact tokenize_eq_ok_iff.mpr (heq ▸ hmarked)

/-- A fold that succeeds succeeds at each element. -/
theorem exists_ok_of_foldlM {ε α β : Type} {f : β → α → Except ε β} {l : List α} {b r : β}
    (h : l.foldlM f b = .ok r) : ∀ a ∈ l, ∃ b' r', f b' a = .ok r' := by
  induction l generalizing b with
  | nil => simp
  | cons a l ih =>
    rw [foldlM_cons] at h
    obtain ⟨b', hb', hrest⟩ := bind_eq_ok h
    exact forall_mem_cons.mpr ⟨⟨b, b', hb'⟩, ih hrest⟩

/-- In an accepted block every rewritten condition parses. -/
theorem rewritten_parses {target : DecomposedTarget} (h : decomposeBlock block = .ok target) :
    ∀ clause ∈ block.allowClauses, ∃ tree, parseCondition (block.rewritten clause.2) = .ok tree := by
  rw [decomposeBlock_eq] at h
  obtain ⟨-, -, h⟩ := bind_eq_ok h
  obtain ⟨buckets, hbuckets, -⟩ := bind_eq_ok h
  intro clause hclause
  obtain ⟨before, after, hfile⟩ := exists_ok_of_foldlM hbuckets clause hclause
  rw [fileClause, ← MatchBlock.rewritten] at hfile
  split at hfile
  · cases hfile
  · rename_i tree htree
    exact ⟨tree, htree⟩

theorem written_literal_users : (PathSegment.literal "users").Written :=
  ⟨"", "users", by decide, by decide⟩

/-- `match /users/{userId}` with one clause. -/
def usersBlock (condition : String) : MatchBlock where
  pathPattern := "/users/\x7buserId\x7d"
  segments := [.literal "users", .wildcard "userId"]
  allowClauses := [([.read], condition)]
  nonempty := List.cons_ne_nil _ _
  written := List.forall_mem_cons.mpr ⟨written_literal_users, List.forall_mem_singleton.mpr
    ⟨"", "\x7buserId\x7d", by decide, by decide⟩⟩

/-- `match /users/{id}/users/{id}` with one clause. -/
def twiceBlock (condition : String) : MatchBlock where
  pathPattern := "/users/\x7bid\x7d/users/\x7bid\x7d"
  segments := [.literal "users", .wildcard "id", .literal "users", .wildcard "id"]
  allowClauses := [([.read], condition)]
  nonempty := List.cons_ne_nil _ _
  written := by
    have hid : (PathSegment.wildcard "id").Written := ⟨"", "\x7bid\x7d", by decide, by decide⟩
    simp [written_literal_users, hid]

/-- A block with one clause is accepted when its rewritten condition is the equality of
two operands. -/
theorem decompose_equality {left : String} {right : Token} {l r : Operand}
    (hclauses : block.allowClauses = [([.read], condition)])
    (hshape : validateSegmentShape block.pathPattern 0 block.segments = .ok ())
    (hscan : detectUnsupportedConstruct (block.rewritten condition) = none)
    (htokens : tokenize (block.rewritten condition) = .ok [.word left, .eq, right])
    (hl : IsBase (.word left) l) (hr : IsBase right r) (hleft : left ≠ "true" ∧ left ≠ "false") :
    ∃ targets, decompose [block] = .ok targets := by
  have hcompare : Derives .primary [.word left, .eq, right] (.compare l .eq r) :=
    .compare .eq (.base hl) hleft (.base hr)
  have hparse : parseCondition (block.rewritten condition) = .ok (.compare l .eq r) :=
    parseCondition_eq_ok_iff.mpr ⟨hscan, _, htokens, .ofAnd (.ofUnary (.ofPrimary hcompare))⟩
  have hbuckets : bucketConditions block.pathPattern block.capturedNames block.allowClauses =
      .ok ⟨some (block.rewritten condition), none⟩ := by
    rw [hclauses, bucketConditions, foldlM_cons, fileClause, ← MatchBlock.rewritten, hparse]
    rfl
  have hblock : decomposeBlock block =
      .ok (block.target ⟨some (block.rewritten condition), none⟩) := by
    rw [decomposeBlock_eq, hshape, hbuckets]
    rfl
  exact ⟨_, decompose_eq_ok_iff.mpr (.cons hblock .nil)⟩

/-- A condition whose rewriting makes the wrong number of marks is not kept. -/
theorem not_faithful_of_length (tokens : List Token) (htokens : tokenize condition = .ok tokens)
    (hlength : (block.rewritten condition).length ≠ condition.length + "request.path.".length *
      tokens.countP (Token.isCaptured block.capturedNames)) : ¬ Faithful block condition := by
  intro h
  obtain ⟨tokens', -, htokens', -, hlength'⟩ := marksOperands_of_faithful h
  obtain rfl := Except.ok.inj (htokens.symm.trans htokens')
  exact hlength hlength'

end Embyr
