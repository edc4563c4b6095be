import Embyr.ConditionText

/-!
# Quoted text

What stands between double quotes is the content of a string literal and nothing else.

* `Operand.shape`, `Condition.shape`, `Operand.strings`, `Condition.strings` — a tree apart from its
  string literals, and the string literals.
* `Derives.reshape`, `Derives.strings` — other contents give a tree of the same shape, with those
  contents.
* `lexes_append_iff` — a text cut where a literal opens is tokenized in two parts.
* `scanFrom_quoted` — the scan does not look into a literal.
* `Supported`, `Derives.supported` — the calls and brackets of an accepted source.
* `calledName`, `ScanState.Reading` — the identifier in front of an opening parenthesis.
* `quoted_text_inert` — both together.
-/

namespace Embyr

open ScanState Condition List

/-! ## Trees apart from their string literals -/

mutual

/-- An operand with every string emptied. -/
def Operand.shape : Operand → Operand
  | .stringLiteral _ => .stringLiteral ""
  | .listLiteral items => .listLiteral (shapes items)
  | .arithmetic left op right => .arithmetic left.shape op right.shape
  | o => o

def shapes : List Operand → List Operand
  | [] => []
  | item :: items => item.shape :: shapes items

end

mutual

/-- The strings of an operand, as they are written. -/
def Operand.strings : Operand → List String
  | .stringLiteral s => [s]
  | .listLiteral items => itemStrings items
  | .arithmetic left _ right => left.strings ++ right.strings
  | _ => []

def itemStrings : List Operand → List String
  | [] => []
  | item :: items => item.strings ++ itemStrings items

end

/-- A condition with every string emptied. -/
def Condition.shape : Condition → Condition
  | .literal b => .literal b
  | .compare left op right => .compare left.shape op right.shape
  | .isIn left list => .isIn left.shape list.shape
  | .not inner => .not inner.shape
  | .and left right => .and left.shape right.shape
  | .or left right => .or left.shape right.shape

def Condition.strings : Condition → List String
  | .literal _ => []
  | .compare left _ right => left.strings ++ right.strings
  | .isIn left list => left.strings ++ list.strings
  | .not inner => inner.strings
  | .and left right => left.strings ++ right.strings
  | .or left right => left.strings ++ right.strings

/-- A token apart from its string. -/
def Token.shape : Token → Token
  | .stringLiteral _ => .stringLiteral ""
  | t => t

def Token.strings : Token → List String
  | .stringLiteral s => [s]
  | _ => []

/-- Two texts of tokens that differ in their strings only. -/
def SameShape (ts ts' : List Token) : Prop := ts.map Token.shape = ts'.map Token.shape

variable {t : Token}

/-- A token without a string is the only one of its shape. -/
theorem Token.eq_of_shape {t' : Token} (h : t.shape = t'.shape) (hplain : t'.strings = []) :
    t = t' := by
  cases t' with
  | stringLiteral s => cases hplain
  | _ => cases t <;> first | exact h | cases h

variable {ts ts' : List Token}

theorem SameShape.eq (h : SameShape ts ts')
    (hplain : ∀ t ∈ ts', t.strings = []) : ts = ts' := by
  induction ts' generalizing ts with
  | nil => exact map_eq_nil_iff.mp h
  | cons t' ts' ih =>
    obtain ⟨t, ts, rfl, ht, hts⟩ := map_eq_cons_iff.mp h
    obtain ⟨hhead, htail⟩ := forall_mem_cons.mp hplain
    rw [Token.eq_of_shape ht hhead, ih hts htail]

/-- A token without a string cuts both texts at the same place. -/
theorem SameShape.split {us us' : List Token} (h : SameShape ts (us ++ t :: us'))
    (hplain : t.strings = []) :
    ∃ vs vs', ts = vs ++ t :: vs' ∧ SameShape vs us ∧ SameShape vs' us' := by
  rw [SameShape, map_append, map_cons] at h
  obtain ⟨vs, rest, rfl, hvs, hrest⟩ := map_eq_append_iff.mp h
  obtain ⟨t', vs', rfl, ht, hvs'⟩ := map_eq_cons_iff.mp hrest
  obtain rfl := Token.eq_of_shape ht hplain
  exact ⟨vs, vs', rfl, hvs, hvs'⟩

theorem SameShape.uncons {us : List Token} (h : SameShape ts (t :: us))
    (hplain : t.strings = []) : ∃ vs, ts = t :: vs ∧ SameShape vs us := by
  obtain ⟨t', vs, rfl, ht, hvs⟩ := map_eq_cons_iff.mp h
  obtain rfl := Token.eq_of_shape ht hplain
  exact ⟨vs, rfl, hvs⟩

theorem strings_arithmeticOp (op : ArithmeticOp) : op.token.strings = [] := by
  cases op <;> rfl

theorem strings_compareOp (op : CompareOp) : op.token.strings = [] := by
  cases op <;> rfl

theorem strings_durationTokens (amount : Int64) (unit : DurationUnit) :
    ∀ t ∈ durationTokens amount unit, t.strings = [] := by
  intro t ht
  fin_cases ht <;> rfl

/-! ## Operands -/

variable {o : Operand}

theorem IsWord.strings {w : String} (h : IsWord w o) : o.strings = [] := by
  cases h <;> rw [Operand.strings] <;> simp

theorem IsBase.strings (h : IsBase t o) : o.strings = t.strings := by
  cases h.isLeaf with
  | word hword => exact hword.strings
  | _ => rw [Operand.strings, Token.strings] <;> simp

theorem IsBase.reshape {t' : Token} (h : IsBase t o) (hshape : t'.shape = t.shape) :
    ∃ o', IsBase t' o' ∧ o'.shape = o.shape := by
  by_cases hplain : t.strings = []
  · obtain rfl := Token.eq_of_shape hshape hplain
    exact ⟨o, h, rfl⟩
  · cases t with
    | stringLiteral s =>
      cases t' with
      | stringLiteral s' =>
        cases h.isLeaf
        exact ⟨.stringLiteral s', rfl, by rw [Operand.shape, Operand.shape]⟩
      | _ => cases hshape
    | _ => exact absurd rfl hplain

/-- The strings of a text of tokens. -/
def tokenStrings (ts : List Token) : List String := ts.flatMap Token.strings

theorem tokenStrings_append (ts ts' : List Token) :
    tokenStrings (ts ++ ts') = tokenStrings ts ++ tokenStrings ts' := flatMap_append

theorem tokenStrings_cons (t : Token) (ts : List Token) :
    tokenStrings (t :: ts) = t.strings ++ tokenStrings ts := flatMap_cons

theorem tokenStrings_split (hplain : t.strings = []) (ts ts' : List Token) :
    tokenStrings (ts ++ t :: ts') = tokenStrings ts ++ tokenStrings ts' := by
  rw [tokenStrings_append, tokenStrings_cons, hplain, nil_append]

theorem IsOperand.strings (h : IsOperand ts o) :
    o.strings = tokenStrings ts := by
  cases h with
  | @base t _ hbase => rw [hbase.strings, tokenStrings, flatMap_singleton]
  | @arithmetic t t' l r op hl hr =>
    have hts := tokenStrings_split (strings_arithmeticOp op) [t] [t']
    rw [singleton_append] at hts
    rw [Operand.strings, hl.strings, hr.strings, hts, tokenStrings, tokenStrings,
      flatMap_singleton, flatMap_singleton]
  | @shifted t l op amount unit hl =>
    rw [Operand.strings, hl.strings, Operand.strings, tokenStrings_cons, tokenStrings_cons,
      strings_arithmeticOp]
    · rfl
    all_goals simp

theorem IsOperand.reshape (h : IsOperand ts o)
    (hshape : SameShape ts' ts) : ∃ o', IsOperand ts' o' ∧ o'.shape = o.shape := by
  cases h with
  | base hbase =>
    obtain ⟨t', hts', ht'⟩ := map_eq_singleton_iff.mp hshape
    obtain ⟨o', hbase', ho'⟩ := hbase.reshape ht'
    exact ⟨o', hts' ▸ .base hbase', ho'⟩
  | @arithmetic t₁ t₂ l r op hl hr =>
    obtain ⟨t₁', vs, rfl, ht₁, hvs⟩ := map_eq_cons_iff.mp hshape
    obtain ⟨vs', rfl, hvs'⟩ := SameShape.uncons hvs (strings_arithmeticOp op)
    obtain ⟨t₂', rfl, ht₂⟩ := map_eq_singleton_iff.mp hvs'
    obtain ⟨l', hl', hlshape⟩ := hl.reshape ht₁
    obtain ⟨r', hr', hrshape⟩ := hr.reshape ht₂
    refine ⟨_, .arithmetic op hl' hr', ?_⟩
    rw [Operand.shape, Operand.shape, hlshape, hrshape]
  | @shifted t₁ l op amount unit hl =>
    obtain ⟨t₁', vs, rfl, ht₁, hvs⟩ := map_eq_cons_iff.mp hshape
    obtain ⟨vs', rfl, hvs'⟩ := SameShape.uncons hvs (strings_arithmeticOp op)
    obtain rfl := SameShape.eq hvs' (strings_durationTokens amount unit)
    obtain ⟨l', hl', hlshape⟩ := hl.reshape ht₁
    refine ⟨_, .shifted op amount unit hl', ?_⟩
    rw [Operand.shape, Operand.shape, hlshape]

variable {items : List Operand}

theorem IsItems.strings (h : IsItems ts items) :
    itemStrings items = tokenStrings ts := by
  induction h with
  | last ho =>
    rw [itemStrings, itemStrings, ho.strings, tokenStrings_split rfl]
    rfl
  | cons ho _ ih => rw [itemStrings, ho.strings, ih, tokenStrings_split rfl]

theorem IsItems.reshape (h : IsItems ts items)
    (hshape : SameShape ts' ts) : ∃ items', IsItems ts' items' ∧ shapes items' = shapes items := by
  induction h generalizing ts' with
  | last ho =>
    obtain ⟨vs, vs', rfl, hvs, hvs'⟩ := hshape.split rfl
    obtain rfl := map_eq_nil_iff.mp hvs'
    obtain ⟨o', ho', hoshape⟩ := ho.reshape hvs
    refine ⟨_, .last ho', ?_⟩
    simp only [shapes, hoshape]
  | cons ho _ ih =>
    obtain ⟨vs, vs', rfl, hvs, hvs'⟩ := hshape.split rfl
    obtain ⟨o', ho', hoshape⟩ := ho.reshape hvs
    obtain ⟨os', hos', hosshape⟩ := ih hvs'
    refine ⟨_, .cons ho' hos', ?_⟩
    rw [shapes, shapes, hoshape, hosshape]

theorem IsList.strings (h : IsList ts items) :
    itemStrings items = tokenStrings ts := by
  rcases h with ⟨rfl, rfl⟩ | h
  · rw [itemStrings]
    rfl
  · exact h.strings

theorem IsList.reshape (h : IsList ts items)
    (hshape : SameShape ts' ts) : ∃ items', IsList ts' items' ∧ shapes items' = shapes items := by
  rcases h with ⟨rfl, rfl⟩ | h
  · obtain rfl := SameShape.eq hshape (by simp [Token.strings])
    exact ⟨[], .inl ⟨rfl, rfl⟩, rfl⟩
  · obtain ⟨items', h', hitems⟩ := h.reshape hshape
    exact ⟨items', .inr h', hitems⟩

/-! ## Conditions -/

theorem StartsComparison.reshape (h : StartsComparison ts)
    (hshape : SameShape ts' ts) : StartsComparison ts' := by
  rcases ts with _ | ⟨t, ts⟩
  · cases h
  obtain ⟨t', us, rfl, ht, -⟩ := map_eq_cons_iff.mp hshape
  have hplain : t.strings = [] := by
    cases t <;> first | rfl | cases h
  obtain rfl := Token.eq_of_shape ht hplain
  cases t' <;> exact h

variable {level : Level} {c : Condition}

theorem Derives.strings (h : Derives level ts c) :
    c.strings = tokenStrings ts := by
  induction h with
  | or _ _ hl hr | and _ _ hl hr => rw [Condition.strings, hl, hr, tokenStrings_split rfl]
  | ofAnd _ ih | ofUnary _ ih | ofPrimary _ ih => exact ih
  | not _ ih => exact ih
  | @paren ts _ _ ih =>
    rw [ih, cons_append, tokenStrings_cons, tokenStrings_split rfl]
    exact (append_nil _).symm
  | literal b => rfl
  | bareExists hbase =>
    rw [Condition.strings, hbase.strings, Operand.strings]
    · rfl
    all_goals simp
  | compare op hl _ hr =>
    rw [Condition.strings, hl.strings, hr.strings, tokenStrings_split (strings_compareOp op)]
  | isIn hl _ hlist =>
    rw [Condition.strings, hl.strings, Operand.strings, hlist.strings, tokenStrings_split rfl,
      tokenStrings_cons]
    rfl

/-- **Other strings give a tree of the same shape.** -/
theorem Derives.reshape (h : Derives level ts c) (hshape : SameShape ts' ts) :
    ∃ c', Derives level ts' c' ∧ c'.shape = c.shape := by
  induction h generalizing ts' with
  | or _ _ hl hr =>
    obtain ⟨vs, vs', rfl, hvs, hvs'⟩ := hshape.split rfl
    obtain ⟨l', hl', hlshape⟩ := hl hvs
    obtain ⟨r', hr', hrshape⟩ := hr hvs'
    exact ⟨_, .or hl' hr', by rw [shape, shape, hlshape, hrshape]⟩
  | and _ _ hl hr =>
    obtain ⟨vs, vs', rfl, hvs, hvs'⟩ := hshape.split rfl
    obtain ⟨l', hl', hlshape⟩ := hl hvs
    obtain ⟨r', hr', hrshape⟩ := hr hvs'
    exact ⟨_, .and hl' hr', by rw [shape, shape, hlshape, hrshape]⟩
  | ofAnd _ ih =>
    obtain ⟨c', hc', hcshape⟩ := ih hshape
    exact ⟨c', .ofAnd hc', hcshape⟩
  | ofUnary _ ih =>
    obtain ⟨c', hc', hcshape⟩ := ih hshape
    exact ⟨c', .ofUnary hc', hcshape⟩
  | ofPrimary _ ih =>
    obtain ⟨c', hc', hcshape⟩ := ih hshape
    exact ⟨c', .ofPrimary hc', hcshape⟩
  | not _ ih =>
    obtain ⟨vs, rfl, hvs⟩ := hshape.uncons rfl
    obtain ⟨c', hc', hcshape⟩ := ih hvs
    exact ⟨_, .not hc', by rw [shape, shape, hcshape]⟩
  | @paren ts _ _ ih =>
    obtain ⟨vs, rfl, hvs⟩ := hshape.uncons rfl
    obtain ⟨us, us', rfl, hus, hus'⟩ := hvs.split rfl
    obtain rfl := map_eq_nil_iff.mp hus'
    obtain ⟨c', hc', hcshape⟩ := ih hus
    exact ⟨c', .paren hc', hcshape⟩
  | literal b =>
    obtain rfl := hshape.eq (by simp [Token.strings])
    exact ⟨_, .literal b, rfl⟩
  | bareExists hbase =>
    obtain rfl := hshape.eq (by simp [Token.strings])
    exact ⟨_, .bareExists hbase, rfl⟩
  | compare op hl hstart hr =>
    obtain ⟨vs, vs', rfl, hvs, hvs'⟩ := hshape.split (strings_compareOp op)
    obtain ⟨l', hl', hlshape⟩ := hl.reshape hvs
    obtain ⟨r', hr', hrshape⟩ := hr.reshape hvs'
    refine ⟨_, .compare op hl' (hstart.reshape hvs) hr', ?_⟩
    rw [shape, shape, hlshape, hrshape]
  | isIn hl hstart hlist =>
    obtain ⟨vs, vs', rfl, hvs, hvs'⟩ := hshape.split rfl
    obtain ⟨us, rfl, hus⟩ := hvs'.uncons rfl
    obtain ⟨l', hl', hlshape⟩ := hl.reshape hvs
    obtain ⟨items', hlist', hitems⟩ := hlist.reshape hus
    refine ⟨_, .isIn hl' (hstart.reshape hvs) hlist', ?_⟩
    rw [shape, shape, hlshape, Operand.shape, Operand.shape, hitems]

/-! ## A literal in a text -/

variable {rest : List Char}

/-- What comes after a text may start with any character that does not lengthen its last token. -/
theorem Follows.append {c : Char} (h : Follows t rest) (hident : isIdentChar c = false)
    (heq : c ≠ '=') (hparen : c ≠ '(') (tail : List Char) :
    Follows t (rest ++ c :: tail) := by
  have hstops : ∀ {p : Char → Bool}, StopsAt p rest → p c = false →
      StopsAt p (rest ++ c :: tail) := by
    intro p hrest hc x hx
    rcases rest with _ | ⟨y, rest⟩
    · cases hx
      exact hc
    · exact hrest x hx
  have hfield : isFieldChar c = false ∧ (c == '.') = false := Bool.or_eq_false_iff.mp hident
  have hdigit : c.isDigit = false := by
    have halnum := (Bool.or_eq_false_iff.mp hfield.1).1
    exact (Bool.or_eq_false_iff.mp halnum).2
  have heq' : (c == '=') = false := beq_eq_false_iff_ne.mpr heq
  cases t with
  | not | lt | gt => exact hstops h heq'
  | minus | doubleLiteral _ => exact hstops h hdigit
  | word w =>
    exact ⟨hstops h.1 hident, fun hw => hstops (h.2 hw) (beq_eq_false_iff_ne.mpr hparen)⟩
  | intLiteral _ => exact hstops h (by rw [hdigit, hfield.2]; rfl)
  | getCall _ _ => exact hstops h hfield.1
  | _ => trivial

/-- The tokenizer reads one token at a place. -/
theorem spells_unique {text text' rest' : List Char} {t' : Token} (hspells : Spells text t)
    (hfollows : Follows t rest) (hspells' : Spells text' t') (hfollows' : Follows t' rest')
    (h : text ++ rest = text' ++ rest') : t = t' ∧ rest = rest' := by
  obtain ⟨c, cs, rfl, hscan⟩ := scanToken_complete hspells hfollows 0
  obtain ⟨c', cs', rfl, hscan'⟩ := scanToken_complete hspells' hfollows' 0
  rw [cons_append, cons_append] at h
  obtain ⟨rfl, hcs⟩ := cons.inj h
  rw [hcs, hscan'] at hscan
  cases hscan
  exact ⟨rfl, rfl⟩

variable {cs : List Char}

theorem lexes_blank_iff {c : Char} (hc : isWhitespace c = true) :
    Lexes (c :: cs) ts ↔ Lexes cs ts := by
  refine ⟨fun h => ?_, .blank hc⟩
  generalize hsource : c :: cs = source at h
  cases h with
  | nil => cases hsource
  | blank _ h =>
    cases hsource
    exact h
  | token hspells _ _ =>
    obtain ⟨c', cs', rfl, hvisible, -⟩ := hspells.head
    cases hsource
    rw [hc] at hvisible
    cases hvisible

theorem lexes_token_iff {text : List Char} (hspells : Spells text t) (hfollows : Follows t rest) :
    Lexes (text ++ rest) ts ↔ ∃ ts', ts = t :: ts' ∧ Lexes rest ts' := by
  constructor
  · intro h
    generalize hsource : text ++ rest = source at h
    cases h with
    | nil =>
      obtain ⟨c, cs, rfl, -, -⟩ := hspells.head
      cases hsource
    | blank hblank _ =>
      obtain ⟨c, cs, rfl, hvisible, -⟩ := hspells.head
      cases hsource
      rw [hblank] at hvisible
      cases hvisible
    | token hspells' hfollows' h =>
      obtain ⟨rfl, rfl⟩ := spells_unique hspells hfollows hspells' hfollows' hsource
      exact ⟨_, rfl, h⟩
  · rintro ⟨ts', rfl, h⟩
    exact .token hspells hfollows h

/-- A text is tokenized in two parts when the first ends with a whole token. -/
theorem lexes_append_iff {tail : List Char} {c : Char} {ts₁ : List Token} (h : Lexes cs ts₁)
    (hident : isIdentChar c = false) (heq : c ≠ '=') (hparen : c ≠ '(') :
    Lexes (cs ++ c :: tail) ts ↔ ∃ ts₂, ts = ts₁ ++ ts₂ ∧ Lexes (c :: tail) ts₂ := by
  induction h generalizing ts with
  | nil => exact ⟨fun h => ⟨ts, rfl, h⟩, fun ⟨_, hts, h⟩ => hts ▸ h⟩
  | blank hblank _ ih => rw [cons_append, lexes_blank_iff hblank, ih]
  | token hspells hfollows _ ih =>
    rw [append_assoc, lexes_token_iff hspells (hfollows.append hident heq hparen tail)]
    constructor
    · rintro ⟨ts', rfl, h⟩
      obtain ⟨ts₂, rfl, htail⟩ := ih.mp h
      exact ⟨ts₂, rfl, htail⟩
    · rintro ⟨ts₂, rfl, h⟩
      exact ⟨_, rfl, ih.mpr ⟨ts₂, rfl, h⟩⟩

/-- A source with a string literal in it. -/
def withLiteral (pre content post : List Char) : String :=
  .ofList (pre ++ '"' :: content ++ '"' :: post)

variable {pre content : List Char}

theorem tokenize_withLiteral_iff {post : List Char} {ts₁ : List Token}
    (hpre : tokenize (.ofList pre) = .ok ts₁) (hcontent : '"' ∉ content) :
    tokenize (withLiteral pre content post) = .ok ts ↔
      ∃ ts₂, ts = ts₁ ++ .stringLiteral (.ofList content) :: ts₂ ∧ Lexes post ts₂ := by
  rw [tokenize_eq_ok_iff, String.toList_ofList] at hpre
  rw [tokenize_eq_ok_iff, withLiteral, String.toList_ofList, List.append_assoc, List.cons_append,
    lexes_append_iff hpre rfl (by decide) (by decide)]
  have hliteral : ∀ ts, Lexes ('"' :: (content ++ '"' :: post)) ts ↔
      ∃ ts₂, ts = .stringLiteral (.ofList content) :: ts₂ ∧ Lexes post ts₂ := by
    intro ts
    rw [← lexes_token_iff (.string hcontent) trivial, append_assoc]
    rfl
  simp only [hliteral]
  constructor
  · rintro ⟨_, rfl, ts₂, rfl, h⟩
    exact ⟨ts₂, rfl, h⟩
  · rintro ⟨ts₂, rfl, h⟩
    exact ⟨_, rfl, ts₂, rfl, h⟩

/-! ## The scan outside and inside of quotes -/

variable {s : ScanState}

theorem ScanState.step_inQuotes {s' : ScanState} {c : Char} (h : s.step c = some s') :
    s'.inQuotes = (s.inQuotes ^^ (c == '"')) := by
  by_cases hquote : c = '"'
  · subst hquote
    cases h
    simp [fresh]
  · have hquote' : (c == '"') = false := beq_eq_false_iff_ne.mpr hquote
    rw [hquote', Bool.xor_false]
    rcases s with ⟨inQuotes, ident, star⟩
    cases inQuotes with
    | true =>
      simp only [step, hquote, if_false, if_true] at h
      cases h
      rfl
    | false =>
      cases ident <;> simp only [step, hquote, if_false, Bool.false_eq_true] at h <;>
        split_ifs at h <;>
        · cases h
          rfl

/-- An even number of quotes leaves the scan on the side it was on. -/
theorem scanFrom_inQuotes {s' : ScanState} (h : scanFrom s cs = some s') :
    s'.inQuotes = s.inQuotes ↔ Even (cs.count '"') := by
  induction cs generalizing s with
  | nil =>
    cases h
    simp
  | cons c cs ih =>
    obtain ⟨s₁, hstep, hrest⟩ := Option.bind_eq_some_iff.mp h
    have hs₁ := ScanState.step_inQuotes hstep
    by_cases hquote : c = '"'
    · subst hquote
      rw [count_cons_self, Nat.even_add_one, ← ih hrest, hs₁]
      cases s.inQuotes <;> cases s'.inQuotes <;> simp
    · have hquote' : (c == '"') = false := beq_eq_false_iff_ne.mpr hquote
      rw [count_cons_of_ne hquote, ← ih hrest, hs₁, hquote', Bool.xor_false]

/-- The scan does not look into a literal. -/
theorem scanFrom_quoted (hs : s.inQuotes = false) (hcontent : '"' ∉ content) (post : List Char) :
    scanFrom s ('"' :: content ++ '"' :: post) = scanFrom (.fresh false) post := by
  have hinside : scanFrom (.fresh true) (content ++ '"' :: post) = scanFrom (.fresh false) post := by
    induction content with
    | nil => rfl
    | cons c content ih =>
      rw [mem_cons, not_or] at hcontent
      obtain ⟨hc, hcontent'⟩ := hcontent
      have hstep : (fresh true).step c = some (.fresh true) := by
        simp [step, fresh, Ne.symm hc]
      rw [cons_append, scanFrom_cons, hstep, Option.bind_some, ih hcontent']
  have hstep : s.step '"' = some (.fresh true) := by
    simp [step, hs]
  rw [cons_append, scanFrom_cons, hstep, Option.bind_some, hinside]

/-- What comes before a literal, in as many quotes as close again. -/
structure OpensLiteral (pre : List Char) : Prop where
  tokenized : ∃ ts, tokenize (.ofList pre) = .ok ts
  even_quotes : Even (pre.count '"')

theorem detectUnsupportedConstruct_withLiteral {post : List Char} (heven : Even (pre.count '"'))
    (hcontent : '"' ∉ content) :
    detectUnsupportedConstruct (withLiteral pre content post) = none ↔
      (scanFrom (.fresh false) pre).isSome ∧ (scanFrom (.fresh false) post).isSome := by
  rw [detectUnsupportedConstruct_eq_none_iff, withLiteral, String.toList_ofList, append_assoc,
    scanFrom_append]
  rcases hpre : scanFrom (.fresh false) pre with _ | s
  · simp
  · have hs : s.inQuotes = false := (scanFrom_inQuotes hpre).mpr heven
    rw [Option.bind_some, scanFrom_quoted hs hcontent]
    simp

/-- Whether a source is accepted, and the shape of its tree, do not depend on what a literal says. -/
theorem parseCondition_withLiteral {content' post : List Char} (hpre : OpensLiteral pre)
    (hcontent : '"' ∉ content) (hcontent' : '"' ∉ content')
    (h : parseCondition (withLiteral pre content post) = .ok c) :
    ∃ c', parseCondition (withLiteral pre content' post) = .ok c' ∧ c'.shape = c.shape ∧
      ∃ before after, c.strings = before ++ .ofList content :: after ∧
        c'.strings = before ++ .ofList content' :: after := by
  obtain ⟨⟨ts₁, hts₁⟩, heven⟩ := hpre
  obtain ⟨hnone, ts, htokenize, hderives⟩ := parseCondition_eq_ok_iff.mp h
  obtain ⟨ts₂, rfl, hts₂⟩ := (tokenize_withLiteral_iff hts₁ hcontent).mp htokenize
  have hshape : SameShape (ts₁ ++ .stringLiteral (.ofList content') :: ts₂)
      (ts₁ ++ .stringLiteral (.ofList content) :: ts₂) := by
    simp [SameShape, Token.shape]
  obtain ⟨c', hderives', hc'⟩ := hderives.reshape hshape
  have hnone' : detectUnsupportedConstruct (withLiteral pre content' post) = none := by
    rw [detectUnsupportedConstruct_withLiteral heven hcontent] at hnone
    rwa [detectUnsupportedConstruct_withLiteral heven hcontent']
  have htokenize' : tokenize (withLiteral pre content' post) =
      .ok (ts₁ ++ .stringLiteral (.ofList content') :: ts₂) :=
    (tokenize_withLiteral_iff hts₁ hcontent').mpr ⟨ts₂, rfl, hts₂⟩
  have hstrings : ∀ s : String, tokenStrings (ts₁ ++ .stringLiteral s :: ts₂) =
      tokenStrings ts₁ ++ s :: tokenStrings ts₂ := by
    intro s
    rw [tokenStrings_append, tokenStrings_cons]
    rfl
  refine ⟨c', parseCondition_eq_ok_iff.mpr ⟨hnone', _, htokenize', hderives'⟩, hc',
    tokenStrings ts₁, tokenStrings ts₂, ?_, ?_⟩
  · rw [hderives.strings, hstrings]
  · rw [hderives'.strings, hstrings]

/-! ## Calls, brackets and units of an accepted source -/

/-- Every opening parenthesis after a word is that of a whole `duration.value(...)`, every opening
bracket after `in` that of a whole list, there are no others, and every text in single quotes is a
unit. The first argument is the token before. -/
def SupportedAfter : Option Token → List Token → Prop
  | _, [] => True
  | before, t :: ts =>
    (t = .lParen → ∀ w, before = some (.word w) →
      ∃ amount unit rest, .word w :: t :: ts = durationTokens amount unit ++ rest) ∧
    (t = .lBracket → before = some (.word "in") ∧
      ∃ list items rest, ts = list ++ rest ∧ IsList list items) ∧
    (∀ u, t = .singleQuotedUnit u → ∃ unit : DurationUnit, u = unit.text) ∧
    SupportedAfter (some t) ts

/-- Tokens the rules above say nothing of. -/
def Token.isFree : Token → Bool
  | .lParen | .lBracket | .singleQuotedUnit _ => false
  | _ => true

variable {before : Option Token}

theorem supportedAfter_free
    (h : t.isFree = true) (hts : SupportedAfter (some t) ts) : SupportedAfter before (t :: ts) := by
  refine ⟨?_, ?_, ?_, hts⟩
  · rintro rfl
    cases h
  · rintro rfl
    cases h
  · rintro u rfl
    cases h

/-- A free token separates what comes before it from what comes after. -/
theorem SupportedAfter.append (hts : SupportedAfter before ts) (ht : t.isFree = true)
    (hts' : SupportedAfter (some t) ts') :
    SupportedAfter before (ts ++ t :: ts') := by
  induction ts generalizing before with
  | nil => exact supportedAfter_free ht hts'
  | cons u us ih =>
    obtain ⟨hparen, hbracket, hunit, hus⟩ := hts
    refine ⟨fun hu w hw => ?_, fun hu => ⟨(hbracket hu).1, ?_⟩, hunit, ih hus⟩
    · obtain ⟨amount, unit, rest, hrest⟩ := hparen hu w hw
      exact ⟨amount, unit, rest ++ t :: ts', by rw [← append_assoc, ← hrest]; rfl⟩
    · obtain ⟨-, list, items, rest, rfl, hlist⟩ := hbracket hu
      exact ⟨list, items, rest ++ t :: ts', append_assoc .., hlist⟩

theorem free_arithmeticOp (op : ArithmeticOp) : op.token.isFree = true := by
  cases op <;> rfl

theorem free_compareOp (op : CompareOp) : op.token.isFree = true := by
  cases op <;> rfl

theorem IsBase.free (h : IsBase t o) : t.isFree = true := by
  cases h.isLeaf <;> rfl

theorem supportedAfter_durationTokens (amount : Int64) (unit : DurationUnit) (before : Option Token) :
    SupportedAfter before (durationTokens amount unit) := by
  refine supportedAfter_free (t := .word "duration.value") rfl ?_
  refine ⟨fun _ w hw => ?_, nofun, nofun, ?_⟩
  · obtain rfl := Token.word.inj (Option.some.inj hw)
    exact ⟨amount, unit, [], rfl⟩
  · refine supportedAfter_free rfl (supportedAfter_free rfl ?_)
    exact ⟨nofun, nofun, fun u hu => ⟨unit, (Token.singleQuotedUnit.inj hu).symm⟩,
      supportedAfter_free rfl trivial⟩

theorem IsOperand.supported (h : IsOperand ts o)
    (before : Option Token) : SupportedAfter before ts := by
  cases h with
  | base hbase => exact supportedAfter_free hbase.free trivial
  | arithmetic op hl hr =>
    exact supportedAfter_free hl.free (supportedAfter_free (free_arithmeticOp op)
      (supportedAfter_free hr.free trivial))
  | shifted op amount unit hl =>
    exact supportedAfter_free hl.free (supportedAfter_free (free_arithmeticOp op)
      (supportedAfter_durationTokens amount unit _))

theorem IsItems.supported (h : IsItems ts items)
    (before : Option Token) : SupportedAfter before ts := by
  induction h generalizing before with
  | last ho => exact (ho.supported before).append rfl trivial
  | cons ho _ ih => exact (ho.supported before).append rfl (ih _)

theorem IsList.supported (h : IsList ts items)
    (before : Option Token) : SupportedAfter before ts := by
  rcases h with ⟨rfl, -⟩ | h
  · exact supportedAfter_free rfl trivial
  · exact h.supported before

theorem Derives.supported (h : Derives level ts c) (hbefore : ∀ w, before ≠ some (.word w)) :
    SupportedAfter before ts := by
  induction h generalizing before with
  | or _ _ hl hr | and _ _ hl hr =>
    exact (hl hbefore).append rfl (hr nofun)
  | ofAnd _ ih | ofUnary _ ih | ofPrimary _ ih => exact ih hbefore
  | not _ ih => exact supportedAfter_free rfl (ih nofun)
  | paren _ ih =>
    have hinside : SupportedAfter (some .lParen) _ := ih nofun
    exact ⟨fun _ w hw => absurd hw (hbefore w), nofun, nofun, hinside.append rfl trivial⟩
  | literal b => exact supportedAfter_free rfl trivial
  | bareExists hbase => exact supportedAfter_free hbase.free trivial
  | compare op hl _ hr => exact (hl.supported before).append (free_compareOp op) (hr.supported _)
  | isIn hl _ hlist =>
    refine (hl.supported before).append rfl ?_
    exact ⟨nofun, fun _ => ⟨rfl, _, _, [], (append_nil _).symm, hlist⟩, nofun,
      hlist.supported _⟩

theorem SupportedAfter.unit {u : String} (h : SupportedAfter before ts)
    (hu : .singleQuotedUnit u ∈ ts) :
    ∃ unit : DurationUnit, u = unit.text := by
  induction ts generalizing before with
  | nil => cases hu
  | cons t ts ih =>
    obtain ⟨-, -, hunit, hts⟩ := h
    rcases mem_cons.mp hu with ht | hmem
    · exact hunit u ht.symm
    · exact ih hts hmem

/-! ## Wildcards and calls in the text -/

/-- The identifier a text ends with. -/
def calledName (pre : List Char) : List Char :=
  (pre.rtakeWhile isIdentChar).dropWhile (!isIdentStart ·)

theorem calledName_concat_neg {c : Char} (hc : isIdentChar c = false) (pre : List Char) :
    calledName (pre ++ [c]) = [] := by
  rw [calledName, rtakeWhile_concat_neg _ _ _ (by simp [hc]), dropWhile_nil]

theorem calledName_concat_pos {c : Char} (hc : isIdentChar c = true) (pre : List Char) :
    calledName (pre ++ [c]) =
      if calledName pre = [] then (if isIdentStart c then [c] else []) else calledName pre ++ [c] := by
  rw [calledName, rtakeWhile_concat_pos _ _ _ hc, calledName, dropWhile_append]
  by_cases hnil : (pre.rtakeWhile isIdentChar).dropWhile (!isIdentStart ·) = []
  · simp only [hnil, dropWhile_cons, isEmpty_nil, if_true, dropWhile_nil]
    cases isIdentStart c <;> rfl
  · simp [hnil]

/-- Outside of quotes the scan reads the identifier its text ends with. -/
theorem scanFrom_calledName (h : scanFrom (.fresh false) pre = some s) (hs : s.inQuotes = false) :
    s.ident.getD [] = calledName pre ∧ s.ident ≠ some [] := by
  induction pre using reverseRecOn generalizing s with
  | nil =>
    cases h
    exact ⟨rfl, nofun⟩
  | append_singleton pre c ih =>
    rw [scanFrom_append] at h
    obtain ⟨s₀, hpre, hlast⟩ := Option.bind_eq_some_iff.mp h
    rw [scanFrom_cons] at hlast
    obtain ⟨s₁, hstep, hnil⟩ := Option.bind_eq_some_iff.mp hlast
    cases hnil
    cases hc : isIdentChar c with
    | false =>
      rw [step_ident hstep hc, calledName_concat_neg hc]
      exact ⟨rfl, nofun⟩
    | true =>
      have hne : c ≠ '"' ∧ c ≠ '\x7b' ∧ c ≠ '*' := by
        refine ⟨?_, ?_, ?_⟩ <;> rintro rfl <;> cases hc
      have hquotes := step_inQuotes hstep
      rw [beq_eq_false_iff_ne.mpr hne.1, Bool.xor_false, hs] at hquotes
      obtain ⟨hname, hsome⟩ := ih hpre hquotes.symm
      rw [calledName_concat_pos hc, ← hname]
      rw [step, if_neg hne.1, ← hquotes, if_neg Bool.false_ne_true, if_neg hne.2.1,
        if_neg hne.2.2] at hstep
      rcases hident : s₀.ident with _ | word
      · simp only [hident] at hstep
        cases hstep
        cases isIdentStart c <;> simp
      · simp only [hident, hc, if_true] at hstep
        cases hstep
        have hword : word ≠ [] := fun hword => hsome (by rw [hident, hword])
        simp [hword]

/-- No unsupported construct begins, or is called, at this place of a text. -/
structure PlainAt (pre rest : List Char) : Prop where
  no_brace : rest.head? ≠ some '\x7b'
  no_stars : ¬ ['*', '*'] <+: rest
  known_call : rest.head? = some '(' →
    calledName pre = [] ∨ String.ofList (calledName pre) ∈ knownCalls
  /-- a single star is the start of no token either -/
  no_star : (∃ ts, tokenize (.ofList pre) = .ok ts) → rest.head? ≠ some '*'

theorem not_lexes_star (rest : List Char) (ts : List Token) : ¬ Lexes ('*' :: rest) ts := by
  intro h
  generalize hsource : '*' :: rest = source at h
  cases h with
  | nil => cases hsource
  | blank hblank _ =>
    cases hsource
    cases hblank
  | token hspells hfollows _ =>
    obtain ⟨c, cs, rfl, hscan⟩ := scanToken_complete hspells hfollows 0
    cases hsource
    cases hscan

theorem plainAt_of_parsed {source : String} (h : parseCondition source = .ok c)
    (hsource : source.toList = pre ++ rest) (heven : Even (pre.count '"')) :
    PlainAt pre rest := by
  obtain ⟨hnone, ts, htokenize, -⟩ := parseCondition_eq_ok_iff.mp h
  obtain ⟨s', hscan⟩ := Option.isSome_iff_exists.mp (detectUnsupportedConstruct_eq_none_iff.mp hnone)
  rw [hsource, scanFrom_append] at hscan
  obtain ⟨s, hpre, hrest⟩ := Option.bind_eq_some_iff.mp hscan
  have hs : s.inQuotes = false := (scanFrom_inQuotes hpre).mpr heven
  -- the scan takes the first character of the rest, outside of quotes
  have hstep : ∀ {x : Char} {xs : List Char}, rest = x :: xs → ∃ s₁, s.step x = some s₁ ∧
      scanFrom s₁ xs = some s' := by
    rintro x xs rfl
    exact Option.bind_eq_some_iff.mp hrest
  refine ⟨?_, ?_, ?_, ?_⟩
  · intro hhead
    obtain ⟨xs, hxs⟩ := head?_eq_some_iff.mp hhead
    obtain ⟨s₁, hs₁, -⟩ := hstep hxs
    simp [step, hs] at hs₁
  · rintro ⟨xs, hxs⟩
    obtain ⟨s₁, hs₁, hthen⟩ := hstep hxs.symm
    obtain ⟨s₂, hs₂, -⟩ := Option.bind_eq_some_iff.mp hthen
    have hstar : s₁ = ⟨false, none, true⟩ := by
      simp only [step, hs] at hs₁
      revert hs₁
      cases s.star <;> simp [eq_comm]
    subst hstar
    simp [step] at hs₂
  · intro hhead
    obtain ⟨xs, hxs⟩ := head?_eq_some_iff.mp hhead
    obtain ⟨s₁, hs₁, -⟩ := hstep hxs
    obtain ⟨hname, -⟩ := scanFrom_calledName hpre hs
    rw [← hname]
    rcases hident : s.ident with _ | word
    · exact .inl rfl
    · right
      by_contra hunknown
      simp only [step, hs, hident] at hs₁
      rw [if_neg (by decide), if_neg (by decide), if_neg (by decide), if_neg (by decide),
        if_neg (by decide), if_pos ⟨trivial, hunknown⟩] at hs₁
      cases hs₁
  · rintro ⟨ts₁, hts₁⟩ hhead
    obtain ⟨xs, rfl⟩ := head?_eq_some_iff.mp hhead
    rw [tokenize_eq_ok_iff, String.toList_ofList] at hts₁
    rw [tokenize_eq_ok_iff, hsource,
      lexes_append_iff hts₁ rfl (by decide) (by decide)] at htokenize
    obtain ⟨ts₂, -, hstar⟩ := htokenize
    exact not_lexes_star xs ts₂ hstar

/-- **Double-quoted text is inert, and outside of it only the supported calls, brackets and
single-quoted units are accepted.** -/
theorem quoted_text_inert :
    (∀ pre content content' post : List Char, OpensLiteral pre → '"' ∉ content →
      '"' ∉ content' → ∀ c, parseCondition (withLiteral pre content post) = .ok c →
      ∃ c', parseCondition (withLiteral pre content' post) = .ok c' ∧ c'.shape = c.shape ∧
        ∃ before after, c.strings = before ++ .ofList content :: after ∧
          c'.strings = before ++ .ofList content' :: after) ∧
    ∀ source c, parseCondition source = .ok c →
      (∀ pre rest, source.toList = pre ++ rest → Even (pre.count '"') → PlainAt pre rest) ∧
      ∃ ts, tokenize source = .ok ts ∧ SupportedAfter none ts := by
  constructor
  · intro pre content content' post hpre hcontent hcontent' c h
    exact parseCondition_withLiteral hpre hcontent hcontent' h
  · intro source c h
    obtain ⟨-, ts, htokenize, hderives⟩ := parseCondition_eq_ok_iff.mp h
    exact ⟨fun pre rest hsource heven => plainAt_of_parsed h hsource heven, ts, htokenize,
      hderives.supported nofun⟩

theorem isBase_authUid : IsBase (.word "request.auth.uid") .authUid := by
  simp [IsBase, parseBaseOperand, wordToOperand]

/-- `request.auth.uid == "ada"` -/
def isAda : Condition := .compare .authUid .eq (.stringLiteral "ada")

theorem derives_isAda :
    Derives .primary [.word "request.auth.uid", .eq, .stringLiteral "ada"] isAda :=
  .compare .eq (.base isBase_authUid) ⟨by decide, by decide⟩
    (.base (t := .stringLiteral "ada") rfl)

theorem parseCondition_isAda :
    parseCondition (withLiteral "request.auth.uid == ".toList "ada".toList []) = .ok isAda :=
  parseCondition_eq_ok_iff.mpr ⟨by decide, _, by decide,
    .ofAnd (.ofUnary (.ofPrimary derives_isAda))⟩

theorem quoted_text_inert_isAda :
    (∃ c, parseCondition (withLiteral "request.auth.uid == ".toList "\x7bid\x7d f()".toList []) =
        .ok c ∧ c.shape = isAda.shape) ∧
      PlainAt "request.auth.uid == ".toList "\"ada\"".toList := by
  have hopens : OpensLiteral "request.auth.uid == ".toList :=
    ⟨⟨[.word "request.auth.uid", .eq], by decide⟩, by decide⟩
  constructor
  · obtain ⟨c, hc, hshape, -⟩ := quoted_text_inert.1 _ _ "\x7bid\x7d f()".toList [] hopens
      (by decide) (by decide) isAda parseCondition_isAda
    exact ⟨c, hc, hshape⟩
  · exact (quoted_text_inert.2 _ _ parseCondition_isAda).1 _ _ (by decide)
      (by decide)

theorem derives_exists {rawPath : String} {template : PathTemplate}
    (hpath : parsePathTemplate rawPath = .ok template) :
    Derives .unary [.existsCall rawPath]
      (.compare (.crossDocumentExists template) .eq (.boolLiteral true)) := by
  refine .ofPrimary (.bareExists ?_)
  rw [IsBase, parseBaseOperand, hpath]
  rfl

theorem parseCondition_unit_x (c : Condition) :
    parseCondition "request.time < request.time + duration.value(1, 'x')" ≠ .ok c := by
  intro h
  obtain ⟨-, ts, htokenize, hderives⟩ := parseCondition_eq_ok_iff.mp h
  have hts : tokenize "request.time < request.time + duration.value(1, 'x')" =
      .ok [.word "request.time", .lt, .word "request.time", .plus, .word "duration.value",
        .lParen, .intLiteral 1, .comma, .singleQuotedUnit "x", .rParen] := by decide
  obtain rfl := Except.ok.inj (hts.symm.trans htokenize)
  have hsupported : SupportedAfter none _ := hderives.supported nofun
  obtain ⟨unit, hunit⟩ := hsupported.unit (u := "x") (by decide)
  cases unit <;> exact absurd hunit (by decide)

/-- Single-quoted text is a unit, brackets may stand in a path, and a double quote in a path turns
the scan inside out for the literals after it. -/
theorem quotes_and_brackets_matter :
    ((∃ c, parseCondition "request.time < request.time + duration.value(1, 's')" = .ok c) ∧
      ∀ c, parseCondition "request.time < request.time + duration.value(1, 'x')" ≠ .ok c) ∧
    (∃ c, parseCondition "exists(/databases/$(database)/documents/a[0]/b)" = .ok c) ∧
    (∃ c, parseCondition
      "exists(/databases/$(database)/documents/a\"b/c) && request.auth.uid == \"ada\"" = .ok c) ∧
    ∀ c, parseCondition
      "exists(/databases/$(database)/documents/a\"b/c) && request.auth.uid == \"\x7b\"" ≠ .ok c := by
  refine ⟨⟨?_, parseCondition_unit_x⟩, ?_, ?_, ?_⟩
  · have htime : IsBase (.word "request.time") .requestTime := by
      simp [IsBase, parseBaseOperand, wordToOperand]
    have hlater := Derives.compare .lt (.base htime) ⟨by decide, by decide⟩
      (.shifted .add 1 .seconds htime)
    exact ⟨_, parseCondition_eq_ok_iff.mpr ⟨by decide, _, by decide,
      .ofAnd (.ofUnary (.ofPrimary hlater))⟩⟩
  · have hpath : parsePathTemplate "/databases/$(database)/documents/a[0]/b" =
        .ok ⟨[.literal "a[0]", .literal "b"]⟩ := by decide
    exact ⟨_, parseCondition_eq_ok_iff.mpr ⟨by decide, _, by decide,
      .ofAnd (.ofUnary (derives_exists hpath))⟩⟩
  · have hpath : parsePathTemplate "/databases/$(database)/documents/a\"b/c" =
        .ok ⟨[.literal "a\"b", .literal "c"]⟩ := by decide
    exact ⟨_, parseCondition_eq_ok_iff.mpr ⟨by decide, _, by decide,
      .ofAnd (.and (.ofUnary (derives_exists hpath)) (.ofPrimary derives_isAda))⟩⟩
  · intro c h
    have hnone := (parseCondition_eq_ok_iff.mp h).1
    rw [detectUnsupportedConstruct_eq_none_iff] at hnone
    exact absurd hnone (by decide)

end Embyr
