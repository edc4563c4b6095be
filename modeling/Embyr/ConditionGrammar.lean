import Embyr.ConditionParser

/-!
# The grammar of conditions

What the recursive-descent parser accepts, as rules on token lists.

* `IsBase`, `IsOperand`, `IsItems` — operands of one token, with at most one `+` or `-`, and lists
  of them; `IsLeaf` says what the first are.
* `Level`, `Derives` — `||` below `&&` below `!` below comparisons; both binary operators group to
  the left.
* `parser_sound`, `Derives.complete` — the parser finds derivations only, and every one of them
  with the fuel that `parseCondition` gives it.
* `parseOr_eq_ok_iff`, `parseCondition_eq_ok_iff` — the two together.
-/

namespace Embyr

open Binary64 List

/-! ## Operands -/

/-- The token of an operand that takes one. -/
def IsBase (t : Token) (o : Operand) : Prop := parseBaseOperand [t] = .ok (o, [])

def ArithmeticOp.token : ArithmeticOp → Token
  | .add => .plus
  | .sub => .minus

def CompareOp.token : CompareOp → Token
  | .eq => .eq
  | .ne => .ne
  | .lt => .lt
  | .le => .le
  | .gt => .gt
  | .ge => .ge

/-- The unit as written between single quotes. -/
def DurationUnit.text : DurationUnit → String
  | .seconds => "s"
  | .minutes => "m"
  | .hours => "h"
  | .days => "d"

/-- `duration.value(<amount>, '<unit>')`. -/
def durationTokens (amount : Int64) (unit : DurationUnit) : List Token :=
  [.word "duration.value", .lParen, .intLiteral amount, .comma, .singleQuotedUnit unit.text,
    .rParen]

/-- An operand: a base, or a base with a base or a duration added or taken away. -/
inductive IsOperand : List Token → Operand → Prop
  | base {t : Token} {o : Operand} : IsBase t o → IsOperand [t] o
  | arithmetic {t t' : Token} {l r : Operand} (op : ArithmeticOp) :
    IsBase t l → IsBase t' r → IsOperand [t, op.token, t'] (.arithmetic l op r)
  | shifted {t : Token} {l : Operand} (op : ArithmeticOp) (amount : Int64) (unit : DurationUnit) :
    IsBase t l → IsOperand (t :: op.token :: durationTokens amount unit)
      (.arithmetic l op (.durationLiteral amount unit))

/-- A non-empty list, after its opening bracket. -/
inductive IsItems : List Token → List Operand → Prop
  | last {ts : List Token} {o : Operand} : IsOperand ts o → IsItems (ts ++ [.rBracket]) [o]
  | cons {ts ts' : List Token} {o : Operand} {os : List Operand} :
    IsOperand ts o → IsItems ts' os → IsItems (ts ++ .comma :: ts') (o :: os)

/-- A list, after its opening bracket. -/
def IsList (ts : List Token) (items : List Operand) : Prop :=
  (ts = [.rBracket] ∧ items = []) ∨ IsItems ts items

/-! ## Conditions -/

/-- The levels of precedence, loosest first. -/
inductive Level where
  | or
  | and
  | unary
  | primary
  deriving DecidableEq

/-- The tokens a comparison may start with: `parse_primary` takes the others itself. -/
def StartsComparison : List Token → Prop
  | .word w :: _ => w ≠ "true" ∧ w ≠ "false"
  | .getCall _ _ :: _ => True
  | _ => False

/-- The derivations of the grammar. -/
inductive Derives : Level → List Token → Condition → Prop
  | or {ts ts' : List Token} {l r : Condition} :
    Derives .or ts l → Derives .and ts' r → Derives .or (ts ++ .or :: ts') (.or l r)
  | ofAnd {ts : List Token} {c : Condition} : Derives .and ts c → Derives .or ts c
  | and {ts ts' : List Token} {l r : Condition} :
    Derives .and ts l → Derives .unary ts' r → Derives .and (ts ++ .and :: ts') (.and l r)
  | ofUnary {ts : List Token} {c : Condition} : Derives .unary ts c → Derives .and ts c
  | not {ts : List Token} {c : Condition} : Derives .unary ts c → Derives .unary (.not :: ts) (.not c)
  | ofPrimary {ts : List Token} {c : Condition} : Derives .primary ts c → Derives .unary ts c
  | paren {ts : List Token} {c : Condition} :
    Derives .or ts c → Derives .primary (.lParen :: ts ++ [.rParen]) c
  | literal (b : Bool) : Derives .primary [.word (if b then "true" else "false")] (.literal b)
  /-- a bare `exists(...)` stands for `exists(...) == true` -/
  | bareExists {rawPath : String} {o : Operand} : IsBase (.existsCall rawPath) o →
    Derives .primary [.existsCall rawPath] (.compare o .eq (.boolLiteral true))
  | compare {ts ts' : List Token} {l r : Operand} (op : CompareOp) :
    IsOperand ts l → StartsComparison ts → IsOperand ts' r →
    Derives .primary (ts ++ op.token :: ts') (.compare l op r)
  | isIn {ts ts' : List Token} {l : Operand} {items : List Operand} :
    IsOperand ts l → StartsComparison ts → IsList ts' items →
    Derives .primary (ts ++ .word "in" :: .lBracket :: ts') (.isIn l (.listLiteral items))

/-! ## Operands are parsed as the rules say -/

theorem parseBaseOperand_cons (t : Token) (ts : List Token) :
    parseBaseOperand (t :: ts) = (parseBaseOperand [t]).map fun (o, _) => (o, ts) := by
  cases t <;> simp [parseBaseOperand, syntaxError, Except.map, bind, Except.bind, pure,
    Except.pure] <;> split <;> rfl

variable {ts rest : List Token} {o : Operand}

theorem parseBaseOperand_eq_ok_iff :
    parseBaseOperand ts = .ok (o, rest) ↔ ∃ t, ts = t :: rest ∧ IsBase t o := by
  constructor
  · intro h
    rcases ts with _ | ⟨t, ts⟩
    · cases h
    · rw [parseBaseOperand_cons] at h
      obtain ⟨⟨o', rest'⟩, hbase, heq⟩ := map_eq_ok h
      cases heq
      refine ⟨t, rfl, ?_⟩
      rw [IsBase, parseBaseOperand_cons, hbase]
      rfl
  · rintro ⟨t, rfl, hbase⟩
    rw [parseBaseOperand_cons, hbase]
    rfl

/-- The word that stands for an operand. -/
inductive IsWord : String → Operand → Prop
  | authUid : IsWord "request.auth.uid" .authUid
  | authNullSentinel : IsWord "request.auth" .authNullSentinel
  | nullLiteral : IsWord "null" .nullLiteral
  | requestTime : IsWord "request.time" .requestTime
  | boolLiteral (b : Bool) : IsWord (if b then "true" else "false") (.boolLiteral b)
  | authTokenClaim (claim : String) : IsWord ("request.auth.token." ++ claim) (.authTokenClaim claim)
  | pathVariable (name : String) : IsWord ("request.path." ++ name) (.pathVariable name)
  | requestResourceField (name : String) :
    IsWord ("request.resource.data." ++ name) (.requestResourceField name)
  | resourceField (name : String) : IsWord ("resource.data." ++ name) (.resourceField name)

theorem dottedOperand_eq_some {root noun w : String} {build : String → Operand}
    (h : dottedOperand root noun build w = some (.ok o)) : ∃ name, w = root ++ name ∧ o = build name := by
  obtain ⟨name, hname, hbuild⟩ := Option.map_eq_some_iff.mp h
  split_ifs at hbuild
  · cases hbuild
  · exact ⟨name, Text.stripPrefix_eq_some_iff.mp hname, (Except.ok.inj hbuild).symm⟩

theorem wordToOperand_isWord {w : String} (h : wordToOperand w = .ok o) :
    IsWord w o := by
  rw [wordToOperand] at h
  split_ifs at h with huid hauth hnull htime htrue hfalse
  · cases h
    exact huid ▸ .authUid
  · cases h
    exact hauth ▸ .authNullSentinel
  · cases h
    exact hnull ▸ .nullLiteral
  · cases h
    exact htime ▸ .requestTime
  · cases h
    exact htrue ▸ .boolLiteral true
  · cases h
    exact hfalse ▸ .boolLiteral false
  · -- the first dotted family that takes the word decides
    rcases hdotted : (dottedOperand "request.auth.token." "claim" .authTokenClaim w).or
        ((dottedOperand "request.path." "variable" .pathVariable w).or
          ((dottedOperand "request.resource.data." "field" .requestResourceField w).or
            (dottedOperand "resource.data." "field" .resourceField w))) with _ | result
    · rw [hdotted] at h
      cases h
    · rw [hdotted] at h
      obtain rfl : result = .ok o := h
      simp only [Option.or_eq_some_iff] at hdotted
      rcases hdotted with hclaim | ⟨-, hvariable | ⟨-, hrequest | ⟨-, hfield⟩⟩⟩
      · obtain ⟨name, rfl, rfl⟩ := dottedOperand_eq_some hclaim
        exact .authTokenClaim name
      · obtain ⟨name, rfl, rfl⟩ := dottedOperand_eq_some hvariable
        exact .pathVariable name
      · obtain ⟨name, rfl, rfl⟩ := dottedOperand_eq_some hrequest
        exact .requestResourceField name
      · obtain ⟨name, rfl, rfl⟩ := dottedOperand_eq_some hfield
        exact .resourceField name

/-- What an operand of one token is. -/
inductive IsLeaf : Token → Operand → Prop
  | word {w : String} {o : Operand} : IsWord w o → IsLeaf (.word w) o
  | string (s : String) : IsLeaf (.stringLiteral s) (.stringLiteral s)
  | int (i : Int64) : IsLeaf (.intLiteral i) (.intLiteral i)
  | double (d : Double) : IsLeaf (.doubleLiteral d) (.doubleLiteral d)
  | existsCall {rawPath : String} {template : PathTemplate} :
    parsePathTemplate rawPath = .ok template →
    IsLeaf (.existsCall rawPath) (.crossDocumentExists template)
  | getCall {rawPath : String} {template : PathTemplate} (field : String) :
    parsePathTemplate rawPath = .ok template →
    IsLeaf (.getCall rawPath field) (.crossDocumentGet template field)

theorem IsBase.isLeaf {t : Token} (h : IsBase t o) : IsLeaf t o := by
  rw [IsBase] at h
  cases t with
  | word w =>
    obtain ⟨o', hword, hlast⟩ := bind_eq_ok h
    cases hlast
    exact .word (wordToOperand_isWord hword)
  | stringLiteral s =>
    cases h
    exact .string s
  | intLiteral i =>
    cases h
    exact .int i
  | doubleLiteral d =>
    cases h
    exact .double d
  | existsCall rawPath =>
    obtain ⟨template, htemplate, hlast⟩ := bind_eq_ok h
    cases hlast
    exact .existsCall htemplate
  | getCall rawPath field =>
    obtain ⟨template, htemplate, hlast⟩ := bind_eq_ok h
    cases hlast
    exact .getCall field htemplate
  | _ => cases h

/-- No `+` or `-` follows. -/
def NoSign (ts : List Token) : Prop := peekArithmeticOp ts = none

theorem peekArithmeticOp_eq_some_iff {op : ArithmeticOp} :
    peekArithmeticOp ts = some (op, rest) ↔ ts = op.token :: rest := by
  rw [peekArithmeticOp.eq_def]
  split <;> cases op <;> simp_all [ArithmeticOp.token]

theorem parseDurationUnit_eq_ok_iff {text : String} {unit : DurationUnit} :
    parseDurationUnit text = .ok unit ↔ text = unit.text := by
  constructor
  · intro h
    rw [parseDurationUnit] at h
    split_ifs at h with hs hm hh hd <;> cases h <;> assumption
  · rintro rfl
    cases unit <;> rfl

theorem parseDurationValue_eq_ok_iff :
    parseDurationValue ts = .ok (o, rest) ↔
      ∃ amount unit, o = .durationLiteral amount unit ∧
        .word "duration.value" :: ts = durationTokens amount unit ++ rest := by
  constructor
  · intro h
    rw [parseDurationValue.eq_def] at h
    split at h
    · obtain ⟨unit, hunit, h⟩ := bind_eq_ok h
      split at h
      · cases h
        rw [parseDurationUnit_eq_ok_iff] at hunit
        exact ⟨_, unit, rfl, by rw [hunit]; rfl⟩
      · cases h
    all_goals cases h
  · rintro ⟨amount, unit, rfl, hts⟩
    obtain rfl := (cons.inj hts).2
    cases unit <;> rfl

theorem not_isBase_duration : ¬IsBase (.word "duration.value") o := by
  intro h
  have herror : (parseBaseOperand [.word "duration.value"]).isOk = false := by decide
  rw [h] at herror
  cases herror

theorem parseArithmeticRhs_eq_ok_iff :
    parseArithmeticRhs ts = .ok (o, rest) ↔
      (∃ amount unit, o = .durationLiteral amount unit ∧
        ts = durationTokens amount unit ++ rest) ∨ ∃ t, ts = t :: rest ∧ IsBase t o := by
  rw [parseArithmeticRhs.eq_def]
  split
  · rw [parseDurationValue_eq_ok_iff]
    refine (or_iff_left ?_).symm
    rintro ⟨t, hts, hbase⟩
    cases hts
    exact not_isBase_duration hbase
  · rename_i hword
    rw [parseBaseOperand_eq_ok_iff]
    refine (or_iff_right ?_).symm
    rintro ⟨amount, unit, -, rfl⟩
    exact hword _ rfl

theorem parseOperand_eq_ok_iff :
    parseOperand ts = .ok (o, rest) ↔
      ∃ used, ts = used ++ rest ∧ IsOperand used o ∧ NoSign rest := by
  constructor
  · intro h
    obtain ⟨⟨base, ts₁⟩, hparse, hthen⟩ := bind_eq_ok h
    obtain ⟨t, rfl, hbase⟩ := parseBaseOperand_eq_ok_iff.mp hparse
    clear h
    simp only at hthen
    split at hthen
    · rename_i hsign
      cases hthen
      exact ⟨[t], rfl, .base hbase, hsign⟩
    · rename_i op ts₂ hsign
      obtain rfl := peekArithmeticOp_eq_some_iff.mp hsign
      obtain ⟨⟨right, ts₃⟩, hright, hlast⟩ := bind_eq_ok hthen
      simp only at hlast
      split_ifs at hlast with hnested
      · cases hlast
      cases hlast
      rw [Option.not_isSome_iff_eq_none] at hnested
      rcases parseArithmeticRhs_eq_ok_iff.mp hright with
        ⟨amount, unit, rfl, rfl⟩ | ⟨t', rfl, hbase'⟩
      · exact ⟨t :: op.token :: durationTokens amount unit, rfl, .shifted op amount unit hbase,
          hnested⟩
      · exact ⟨[t, op.token, t'], rfl, .arithmetic op hbase hbase', hnested⟩
  · rintro ⟨used, rfl, hused, hrest⟩
    rw [NoSign] at hrest
    have hsigned : ∀ {t l op r ts}, IsBase t l → parseArithmeticRhs ts = .ok (r, rest) →
        parseOperand (t :: op.token :: ts) = .ok (.arithmetic l op r, rest) := by
      intro t l op r ts hbase hright
      have hsign : peekArithmeticOp (op.token :: ts) = some (op, ts) :=
        peekArithmeticOp_eq_some_iff.mpr rfl
      simp only [parseOperand, parseBaseOperand_eq_ok_iff.mpr ⟨t, rfl, hbase⟩, bind, Except.bind,
        hsign, hright, hrest]
      rfl
    cases hused with
    | base hbase =>
      simp only [parseOperand, singleton_append,
        parseBaseOperand_eq_ok_iff.mpr ⟨_, rfl, hbase⟩, bind, Except.bind, hrest]
      rfl
    | arithmetic op hbase hbase' =>
      exact hsigned hbase (parseArithmeticRhs_eq_ok_iff.mpr (.inr ⟨_, rfl, hbase'⟩))
    | shifted op amount unit hbase =>
      exact hsigned hbase (parseArithmeticRhs_eq_ok_iff.mpr (.inl ⟨amount, unit, rfl, rfl⟩))

theorem IsOperand.head (h : IsOperand ts o) :
    ∃ t ts' b, ts = t :: ts' ∧ IsBase t b := by
  cases h with
  | base hbase => exact ⟨_, _, _, rfl, hbase⟩
  | arithmetic op hbase _ => exact ⟨_, _, _, rfl, hbase⟩
  | shifted op amount unit hbase => exact ⟨_, _, _, rfl, hbase⟩

/-! ## Lists and comparisons -/

variable {fuel : ℕ} {items : List Operand}

theorem parseListItems_sound (h : parseListItems fuel ts = .ok (items, rest)) :
    ∃ used, ts = used ++ rest ∧ IsItems used items := by
  induction fuel generalizing ts items with
  | zero => cases h
  | succ fuel ih =>
    rw [parseListItems] at h
    obtain ⟨⟨item, ts₁⟩, hitem, hthen⟩ := bind_eq_ok h
    obtain ⟨used, rfl, hused, -⟩ := parseOperand_eq_ok_iff.mp hitem
    simp only at hthen
    split at hthen
    · obtain ⟨⟨items', ts₂⟩, hitems, hlast⟩ := bind_eq_ok hthen
      cases hlast
      obtain ⟨used', rfl, hused'⟩ := ih hitems
      exact ⟨used ++ .comma :: used', by simp, .cons hused hused'⟩
    · cases hthen
      exact ⟨used ++ [.rBracket], by simp, .last hused⟩
    · cases hthen

theorem parseListItems_complete {used : List Token} (h : IsItems used items)
    (hfuel : used.length ≤ fuel) (rest : List Token) :
    parseListItems fuel (used ++ rest) = .ok (items, rest) := by
  induction h generalizing fuel with
  | @last ts o ho =>
    obtain ⟨fuel, rfl⟩ : ∃ n, fuel = n + 1 := Nat.exists_eq_add_one.mpr (by simp at hfuel; omega)
    have hitem : parseOperand (ts ++ [.rBracket] ++ rest) = .ok (o, .rBracket :: rest) :=
      parseOperand_eq_ok_iff.mpr ⟨ts, by simp, ho, rfl⟩
    simp only [parseListItems, hitem, bind, Except.bind]
    rfl
  | @cons ts ts' o os ho _ ih =>
    obtain ⟨fuel, rfl⟩ : ∃ n, fuel = n + 1 := Nat.exists_eq_add_one.mpr (by simp at hfuel; omega)
    have hitem : parseOperand (ts ++ .comma :: ts' ++ rest) = .ok (o, .comma :: (ts' ++ rest)) :=
      parseOperand_eq_ok_iff.mpr ⟨ts, by simp, ho, rfl⟩
    have hitems : parseListItems fuel (ts' ++ rest) = .ok (os, rest) :=
      ih (by simp at hfuel; omega)
    simp only [parseListItems, hitem, hitems, bind, Except.bind]
    rfl

theorem IsItems.head_ne (h : IsItems ts items) :
    ∃ t ts' b, ts = t :: ts' ∧ IsBase t b := by
  cases h with
  | last ho | cons ho _ =>
    obtain ⟨t, ts', b, rfl, hbase⟩ := ho.head
    exact ⟨t, _, b, rfl, hbase⟩

theorem parseListLiteral_eq_ok_iff :
    parseListLiteral ts = .ok (o, rest) ↔
      ∃ used items, ts = used ++ rest ∧ o = .listLiteral items ∧ IsList used items := by
  constructor
  · intro h
    rw [parseListLiteral.eq_def] at h
    split at h
    · cases h
      exact ⟨[.rBracket], [], rfl, rfl, .inl ⟨rfl, rfl⟩⟩
    · obtain ⟨⟨items, ts₁⟩, hitems, hlast⟩ := bind_eq_ok h
      cases hlast
      obtain ⟨used, hts, hused⟩ := parseListItems_sound hitems
      exact ⟨used, items, hts, rfl, .inr hused⟩
  · rintro ⟨used, items, rfl, rfl, ⟨rfl, rfl⟩ | hused⟩
    · rfl
    · obtain ⟨t, ts', b, hts, hbase⟩ := hused.head_ne
      have hitems : parseListItems (used ++ rest).length (used ++ rest) = .ok (items, rest) :=
        parseListItems_complete hused (by simp) rest
      rw [parseListLiteral.eq_def]
      split
      · rename_i heq
        rw [hts] at heq
        cases heq
        cases hbase
      · rw [hitems]
        rfl

theorem parseCompareOp_eq_ok_iff {op : CompareOp} :
    parseCompareOp ts = .ok (op, rest) ↔ ts = op.token :: rest := by
  constructor
  · intro h
    rw [parseCompareOp.eq_def] at h
    split at h <;> cases h <;> rfl
  · rintro rfl
    cases op <;> rfl

variable {c : Condition}

theorem parseComparison_eq_ok_iff :
    parseComparison ts = .ok (c, rest) ↔
      ∃ used l, IsOperand used l ∧
        ((∃ used' op r, ts = used ++ op.token :: used' ++ rest ∧ IsOperand used' r ∧ NoSign rest ∧
            c = .compare l op r) ∨
          ∃ used' items, ts = used ++ .word "in" :: .lBracket :: used' ++ rest ∧
            IsList used' items ∧ c = .isIn l (.listLiteral items)) := by
  constructor
  · intro h
    obtain ⟨⟨l, ts₁⟩, hleft, hthen⟩ := bind_eq_ok h
    obtain ⟨used, rfl, hused, -⟩ := parseOperand_eq_ok_iff.mp hleft
    clear h
    refine ⟨used, l, hused, ?_⟩
    simp only at hthen
    split at hthen
    · obtain ⟨⟨list, ts₂⟩, hlist, hlast⟩ := bind_eq_ok hthen
      cases hlast
      obtain ⟨used', items, rfl, rfl, hitems⟩ := parseListLiteral_eq_ok_iff.mp hlist
      exact .inr ⟨used', items, by simp, hitems, rfl⟩
    · cases hthen
    · obtain ⟨⟨op, ts₂⟩, hop, hright⟩ := bind_eq_ok hthen
      obtain rfl := parseCompareOp_eq_ok_iff.mp hop
      obtain ⟨⟨r, ts₃⟩, hr, hlast⟩ := bind_eq_ok hright
      cases hlast
      obtain ⟨used', rfl, hused', hrest⟩ := parseOperand_eq_ok_iff.mp hr
      exact .inl ⟨used', op, r, by simp, hused', hrest, rfl⟩
  · rintro ⟨used, l, hused, ⟨used', op, r, rfl, hused', hrest, rfl⟩ | ⟨used', items, rfl, hlist, rfl⟩⟩
    · have hleft : parseOperand (used ++ op.token :: used' ++ rest) =
          .ok (l, op.token :: (used' ++ rest)) :=
        parseOperand_eq_ok_iff.mpr ⟨used, by simp, hused, by cases op <;> rfl⟩
      have hright : parseOperand (used' ++ rest) = .ok (r, rest) :=
        parseOperand_eq_ok_iff.mpr ⟨used', rfl, hused', hrest⟩
      simp only [parseComparison, hleft, bind, Except.bind]
      cases op <;> simp only [CompareOp.token, parseCompareOp, hright] <;> rfl
    · have hleft : parseOperand (used ++ .word "in" :: .lBracket :: used' ++ rest) =
          .ok (l, .word "in" :: .lBracket :: (used' ++ rest)) :=
        parseOperand_eq_ok_iff.mpr ⟨used, by simp, hused, rfl⟩
      have hright : parseListLiteral (used' ++ rest) = .ok (.listLiteral items, rest) :=
        parseListLiteral_eq_ok_iff.mpr ⟨used', items, rfl, rfl, hlist⟩
      simp only [parseComparison, hleft, hright, bind, Except.bind]
      rfl

/-! ## The parser finds derivations only -/

/-- What `fuel` steps of the parser find are derivations of the tokens they use. -/
structure Sound (fuel : ℕ) : Prop where
  or : ∀ {ts rest c}, parseOr fuel ts = .ok (c, rest) →
    ∃ used, ts = used ++ rest ∧ Derives .or used c
  /-- the loop goes on from what it has -/
  orLoop : ∀ {before left ts rest c}, Derives .or before left →
    parseOrLoop fuel left ts = .ok (c, rest) →
    ∃ used, ts = used ++ rest ∧ Derives .or (before ++ used) c
  and : ∀ {ts rest c}, parseAnd fuel ts = .ok (c, rest) →
    ∃ used, ts = used ++ rest ∧ Derives .and used c
  andLoop : ∀ {before left ts rest c}, Derives .and before left →
    parseAndLoop fuel left ts = .ok (c, rest) →
    ∃ used, ts = used ++ rest ∧ Derives .and (before ++ used) c
  unary : ∀ {ts rest c}, parseUnary fuel ts = .ok (c, rest) →
    ∃ used, ts = used ++ rest ∧ Derives .unary used c
  primary : ∀ {ts rest c}, parsePrimary fuel ts = .ok (c, rest) →
    ∃ used, ts = used ++ rest ∧ Derives .primary used c

theorem parseComparison_sound (hstart : StartsComparison ts)
    (h : parseComparison ts = .ok (c, rest)) :
    ∃ used, ts = used ++ rest ∧ Derives .primary used c := by
  have hhead : ∀ {used after : List Token} {l : Operand}, IsOperand used l →
      StartsComparison (used ++ after) → StartsComparison used := by
    intro used after l hl hs
    obtain ⟨t, ts', b, rfl, -⟩ := hl.head
    cases t <;> exact hs
  obtain ⟨used, l, hused, ⟨used', op, r, rfl, hused', -, rfl⟩ | ⟨used', items, rfl, hlist, rfl⟩⟩ :=
    parseComparison_eq_ok_iff.mp h
  · rw [append_assoc] at hstart
    exact ⟨_, rfl, .compare op hused (hhead hused hstart) hused'⟩
  · rw [append_assoc] at hstart
    exact ⟨_, rfl, .isIn hused (hhead hused hstart) hlist⟩

theorem Sound.zero : Sound 0 where
  or h := nomatch h
  orLoop hbefore h := by
    cases h
    exact ⟨[], rfl, by rwa [append_nil]⟩
  and h := nomatch h
  andLoop hbefore h := by
    cases h
    exact ⟨[], rfl, by rwa [append_nil]⟩
  unary h := nomatch h
  primary h := nomatch h

theorem Sound.succ (ih : Sound fuel) : Sound (fuel + 1) where
  or {ts rest c} h := by
    rw [parseOr] at h
    obtain ⟨⟨left, ts₁⟩, hleft, hloop⟩ := bind_eq_ok h
    obtain ⟨used, rfl, hused⟩ := ih.and hleft
    obtain ⟨used', rfl, hused'⟩ := ih.orLoop (.ofAnd hused) hloop
    exact ⟨used ++ used', (append_assoc ..).symm, hused'⟩
  orLoop {before left ts rest c} hbefore h := by
    rw [parseOrLoop.eq_def] at h
    split at h
    · rename_i heq
      cases heq
      obtain ⟨⟨right, ts₁⟩, hright, hloop⟩ := bind_eq_ok h
      obtain ⟨used, rfl, hused⟩ := ih.and hright
      obtain ⟨used', rfl, hused'⟩ := ih.orLoop (.or hbefore hused) hloop
      exact ⟨.or :: used ++ used', by simp, by simpa using hused'⟩
    · cases h
      exact ⟨[], rfl, by rwa [append_nil]⟩
  and {ts rest c} h := by
    rw [parseAnd] at h
    obtain ⟨⟨left, ts₁⟩, hleft, hloop⟩ := bind_eq_ok h
    obtain ⟨used, rfl, hused⟩ := ih.unary hleft
    obtain ⟨used', rfl, hused'⟩ := ih.andLoop (.ofUnary hused) hloop
    exact ⟨used ++ used', (append_assoc ..).symm, hused'⟩
  andLoop {before left ts rest c} hbefore h := by
    rw [parseAndLoop.eq_def] at h
    split at h
    · rename_i heq
      cases heq
      obtain ⟨⟨right, ts₁⟩, hright, hloop⟩ := bind_eq_ok h
      obtain ⟨used, rfl, hused⟩ := ih.unary hright
      obtain ⟨used', rfl, hused'⟩ := ih.andLoop (.and hbefore hused) hloop
      exact ⟨.and :: used ++ used', by simp, by simpa using hused'⟩
    · cases h
      exact ⟨[], rfl, by rwa [append_nil]⟩
  unary {ts rest c} h := by
    rw [parseUnary.eq_def] at h
    split at h
    · cases h
    · rename_i heq
      cases heq
      obtain ⟨⟨inner, ts₁⟩, hinner, hlast⟩ := bind_eq_ok h
      cases hlast
      obtain ⟨used, rfl, hused⟩ := ih.unary hinner
      exact ⟨.not :: used, rfl, .not hused⟩
    · rename_i heq _
      cases heq
      obtain ⟨used, rfl, hused⟩ := ih.primary h
      exact ⟨used, rfl, .ofPrimary hused⟩
  primary {ts rest c} h := by
    rw [parsePrimary.eq_def] at h
    split at h
    · cases h
    · rename_i heq
      cases heq
      obtain ⟨⟨inner, ts₁⟩, hinner, hlast⟩ := bind_eq_ok h
      obtain ⟨used, rfl, hused⟩ := ih.or hinner
      simp only at hlast
      split at hlast
      · rename_i ts₂
        cases hlast
        exact ⟨.lParen :: used ++ [.rParen], by simp, .paren hused⟩
      · cases hlast
    · cases h
      exact ⟨[.word "true"], rfl, .literal true⟩
    · cases h
      exact ⟨[.word "false"], rfl, .literal false⟩
    · obtain ⟨⟨operand, ts₁⟩, hoperand, hlast⟩ := bind_eq_ok h
      cases hlast
      obtain ⟨t, hts, hbase⟩ := parseBaseOperand_eq_ok_iff.mp hoperand
      cases hts
      exact ⟨_, rfl, .bareExists hbase⟩
    · rename_i htrue hfalse _
      exact parseComparison_sound ⟨htrue, hfalse⟩ h
    · exact parseComparison_sound trivial h
    · cases h

theorem parser_sound (fuel : ℕ) : Sound fuel := by
  induction fuel with
  | zero => exact .zero
  | succ fuel ih => exact .succ ih

/-! ## The parser finds every derivation -/

theorem Derives.length_pos {level : Level}
    (h : Derives level ts c) : 0 < ts.length := by
  induction h <;> simp_all

theorem Derives.head_ne_not (h : Derives .primary ts c)
    (rest : List Token) : ∀ ts', ts ++ rest ≠ .not :: ts' := by
  have hoperand : ∀ {used l}, IsOperand used l → ∀ after ts', used ++ after ≠ .not :: ts' := by
    intro used l hl after ts' heq
    obtain ⟨t, used', b, rfl, hbase⟩ := hl.head
    cases heq
    cases hbase
  cases h with
  | paren _ | literal _ | bareExists _ => simp
  | compare op hl _ _ =>
    rw [append_assoc]
    exact hoperand hl _
  | isIn hl _ _ =>
    rw [append_assoc]
    exact hoperand hl _

theorem parseOrLoop_stop (h : rest.head? ≠ some .or) (fuel : ℕ)
    (c : Condition) : parseOrLoop fuel c rest = .ok (c, rest) := by
  rw [parseOrLoop.eq_def]
  split
  · exact absurd rfl h
  · rfl

theorem parseAndLoop_stop (h : rest.head? ≠ some .and) (fuel : ℕ)
    (c : Condition) : parseAndLoop fuel c rest = .ok (c, rest) := by
  rw [parseAndLoop.eq_def]
  split
  · exact absurd rfl h
  · rfl

/-- With four units of fuel a token the parser gets through `ts`. On the two levels with a loop it
then stands in that loop, with the fuel `k` that was left over for the rest. -/
def Complete : Level → List Token → Condition → Prop
  | .or, ts, c => ∀ fuel k rest, NoSign rest → rest.head? ≠ some .and →
    4 * ts.length + k ≤ fuel → ∃ f, k ≤ f ∧ parseOr fuel (ts ++ rest) = parseOrLoop f c rest
  | .and, ts, c => ∀ fuel k rest, NoSign rest → 4 * ts.length + k ≤ fuel + 1 →
    ∃ f, k ≤ f ∧ parseAnd fuel (ts ++ rest) = parseAndLoop f c rest
  | .unary, ts, c => ∀ fuel rest, NoSign rest → 4 * ts.length ≤ fuel + 2 →
    parseUnary fuel (ts ++ rest) = .ok (c, rest)
  | .primary, ts, c => ∀ fuel rest, NoSign rest → 4 * ts.length ≤ fuel + 3 →
    parsePrimary fuel (ts ++ rest) = .ok (c, rest)

section Complete

variable {ts ts' : List Token} {c l r : Condition}

theorem Complete.or (hl : Complete .or ts l) (hr : Complete .and ts' r) :
    Complete .or (ts ++ .or :: ts') (.or l r) := by
  intro fuel k rest hsign hand hfuel
  rw [length_append, length_cons] at hfuel
  obtain ⟨f, hf, hleft⟩ := hl fuel (4 * (ts'.length + 1) + k) (.or :: (ts' ++ rest)) rfl
    (by simp) (by omega)
  obtain ⟨f, rfl⟩ : ∃ n, f = n + 1 := Nat.exists_eq_add_one.mpr (by omega)
  obtain ⟨g, -, hright⟩ := hr f 0 rest hsign (by omega)
  refine ⟨f, by omega, ?_⟩
  rw [append_assoc, cons_append, hleft, parseOrLoop, hright, parseAndLoop_stop hand]
  rfl

theorem Complete.ofAnd (hpos : 0 < ts.length) (h : Complete .and ts c) : Complete .or ts c := by
  intro fuel k rest hsign hand hfuel
  obtain ⟨n, rfl⟩ : ∃ n, fuel = n + 1 := Nat.exists_eq_add_one.mpr (by omega)
  obtain ⟨g, -, hleft⟩ := h n 0 rest hsign (by omega)
  refine ⟨n, by omega, ?_⟩
  rw [parseOr, hleft, parseAndLoop_stop hand]
  rfl

theorem Complete.and (hl : Complete .and ts l) (hr : Complete .unary ts' r) :
    Complete .and (ts ++ .and :: ts') (.and l r) := by
  intro fuel k rest hsign hfuel
  rw [length_append, length_cons] at hfuel
  obtain ⟨f, hf, hleft⟩ := hl fuel (4 * (ts'.length + 1) + k) (.and :: (ts' ++ rest)) rfl
    (by omega)
  obtain ⟨f, rfl⟩ : ∃ n, f = n + 1 := Nat.exists_eq_add_one.mpr (by omega)
  refine ⟨f, by omega, ?_⟩
  rw [append_assoc, cons_append, hleft, parseAndLoop, hr f rest hsign (by omega)]
  rfl

theorem Complete.ofUnary (hpos : 0 < ts.length) (h : Complete .unary ts c) :
    Complete .and ts c := by
  intro fuel k rest hsign hfuel
  obtain ⟨n, rfl⟩ : ∃ n, fuel = n + 1 := Nat.exists_eq_add_one.mpr (by omega)
  refine ⟨n, by omega, ?_⟩
  rw [parseAnd, h n rest hsign (by omega)]
  rfl

theorem Complete.not (h : Complete .unary ts c) : Complete .unary (.not :: ts) (.not c) := by
  intro fuel rest hsign hfuel
  rw [length_cons] at hfuel
  obtain ⟨n, rfl⟩ : ∃ n, fuel = n + 1 := Nat.exists_eq_add_one.mpr (by omega)
  rw [cons_append, parseUnary, h n rest hsign (by omega)]
  rfl

theorem Complete.ofPrimary (hpos : 0 < ts.length) (hhead : ∀ rest ts', ts ++ rest ≠ .not :: ts')
    (h : Complete .primary ts c) : Complete .unary ts c := by
  intro fuel rest hsign hfuel
  obtain ⟨n, rfl⟩ : ∃ n, fuel = n + 1 := Nat.exists_eq_add_one.mpr (by omega)
  rw [parseUnary, h n rest hsign (by omega)]
  exact hhead rest

theorem Complete.paren (h : Complete .or ts c) :
    Complete .primary (.lParen :: ts ++ [.rParen]) c := by
  intro fuel rest hsign hfuel
  simp only [length_append, length_cons, length_nil] at hfuel
  obtain ⟨n, rfl⟩ : ∃ n, fuel = n + 1 := Nat.exists_eq_add_one.mpr (by omega)
  obtain ⟨f, -, hinner⟩ := h n 0 (.rParen :: rest) rfl (by simp) (by omega)
  have hts : .lParen :: ts ++ [.rParen] ++ rest = .lParen :: (ts ++ .rParen :: rest) := by simp
  rw [hts, parsePrimary, hinner, parseOrLoop_stop (by simp)]
  rfl

/-- A comparison is handed on by `parse_primary` as it is. -/
theorem parsePrimary_comparison (hstart : StartsComparison ts) (fuel : ℕ) :
    parsePrimary (fuel + 1) ts = parseComparison ts := by
  rcases ts with _ | ⟨t, ts⟩
  · cases hstart
  · cases t with
    | word w => rw [parsePrimary] <;> simp_all [StartsComparison]
    | getCall _ _ => rw [parsePrimary]
    | _ => cases hstart

theorem StartsComparison.append (h : StartsComparison ts)
    (rest : List Token) : StartsComparison (ts ++ rest) := by
  rcases ts with _ | ⟨t, ts⟩
  · cases h
  · cases t <;> exact h

end Complete

theorem Derives.complete {level : Level}
    (h : Derives level ts c) : Complete level ts c := by
  induction h with
  | or _ _ hl hr => exact .or hl hr
  | ofAnd hc ih => exact .ofAnd hc.length_pos ih
  | and _ _ hl hr => exact .and hl hr
  | ofUnary hc ih => exact .ofUnary hc.length_pos ih
  | not _ ih => exact .not ih
  | ofPrimary hc ih => exact .ofPrimary hc.length_pos hc.head_ne_not ih
  | paren _ ih => exact .paren ih
  | literal b =>
    intro fuel rest _ hfuel
    obtain ⟨n, rfl⟩ : ∃ n, fuel = n + 1 := Nat.exists_eq_add_one.mpr (by simp at hfuel; omega)
    cases b <;> rfl
  | @bareExists rawPath o hbase =>
    intro fuel rest _ hfuel
    obtain ⟨n, rfl⟩ : ∃ n, fuel = n + 1 := Nat.exists_eq_add_one.mpr (by simp at hfuel; omega)
    rw [singleton_append, parsePrimary, parseBaseOperand_eq_ok_iff.mpr ⟨_, rfl, hbase⟩]
    rfl
  | @compare ts ts' l r op hl hstart hr =>
    intro fuel rest hsign hfuel
    obtain ⟨n, rfl⟩ : ∃ n, fuel = n + 1 := Nat.exists_eq_add_one.mpr (by simp at hfuel; omega)
    rw [parsePrimary_comparison ((hstart.append _).append rest)]
    exact parseComparison_eq_ok_iff.mpr ⟨ts, l, hl, .inl ⟨ts', op, r, rfl, hr, hsign, rfl⟩⟩
  | @isIn ts ts' l items hl hstart hlist =>
    intro fuel rest _ hfuel
    obtain ⟨n, rfl⟩ : ∃ n, fuel = n + 1 := Nat.exists_eq_add_one.mpr (by simp at hfuel; omega)
    rw [parsePrimary_comparison ((hstart.append _).append rest)]
    exact parseComparison_eq_ok_iff.mpr ⟨ts, l, hl, .inr ⟨ts', items, rfl, hlist, rfl⟩⟩

/-! ## Both ways -/

/-- **The parser accepts a token list, all of it, exactly when the grammar derives it.** -/
theorem parseOr_eq_ok_iff :
    parseOr (4 * (ts.length + 1)) ts = .ok (c, []) ↔ Derives .or ts c := by
  constructor
  · intro h
    obtain ⟨used, rfl, hused⟩ := (parser_sound _).or h
    rwa [append_nil]
  · intro h
    obtain ⟨f, -, hparse⟩ := h.complete (4 * (ts.length + 1)) 0 [] rfl (by simp) (by omega)
    rw [append_nil, parseOrLoop_stop (by simp)] at hparse
    exact hparse

/-- What `parse_condition` accepts. -/
theorem parseCondition_eq_ok_iff {source : String} :
    parseCondition source = .ok c ↔
      detectUnsupportedConstruct source = none ∧
        ∃ ts, tokenize source = .ok ts ∧ Derives .or ts c := by
  rw [parseCondition]
  constructor
  · intro h
    split at h
    · cases h
    · rename_i hdetect
      obtain ⟨ts, hts, hthen⟩ := bind_eq_ok h
      obtain ⟨⟨c', rest⟩, hparse, hlast⟩ := bind_eq_ok hthen
      simp only at hlast
      split_ifs at hlast with hrest
      · cases hlast
        rw [List.isEmpty_iff] at hrest
        subst hrest
        exact ⟨hdetect, ts, hts, parseOr_eq_ok_iff.mp hparse⟩
      · cases hlast
  · rintro ⟨hdetect, ts, hts, hderives⟩
    simp only [hdetect, hts, parseOr_eq_ok_iff.mpr hderives, bind, Except.bind]
    rfl

end Embyr
