import Mathlib.Data.List.Basic
import Mathlib.Tactic

/-!
# SQL conditions

The text of an SQL condition, its AND/OR structure, and three-valued truth.

* `lex` — the tokens of a text: words, quoted constants, placeholders, operators,
  brackets.
* `parse` — the structure of a token list by the usual precedence: OR binds
  loosest, then AND, brackets group, and what is left is an atom. Atoms are kept as
  their tokens.
* `isSealed` — a token list with matched brackets and no separator outside them. A
  list of sealed parts between separators is split into exactly the parts
  (`splitTop_intercalate`), so `parse_conj` and `parse_disj` read the structure off
  the way the text was put together.
* `and3`, `or3`, `allOf`, `anyOf` — truth with an unknown value.
-/

namespace Sql

open List

/-! ## Tokens -/

inductive Token where
  | word (text : String)
  | quoted (text : String)
  | param (digits : String)
  | symbol (text : String)
  | lParen
  | rParen
  deriving DecidableEq

/-- A character of keywords and names. -/
def isWordChar (c : Char) : Bool := c.isAlphanum || c == '_'

/-- What the scanner is in the middle of; the characters are kept in reverse. -/
inductive Mode where
  | plain
  | word (seen : List Char)
  | quoted (seen : List Char)
  | param (seen : List Char)
  | symbol (seen : List Char)

/-- The token that ends here; an open quote is dropped. -/
def Mode.flush : Mode → List Token
  | .plain | .quoted _ => []
  | .word seen => [.word (String.ofList seen.reverse)]
  | .param seen => [.param (String.ofList seen.reverse)]
  | .symbol seen => [.symbol (String.ofList seen.reverse)]

/-- A character outside every token: the tokens it is and the mode it starts. -/
def start (c : Char) : List Token × Mode :=
  if c = ' ' then ([], .plain)
  else if c = '(' then ([.lParen], .plain)
  else if c = ')' then ([.rParen], .plain)
  else if c = ',' then ([.symbol ","], .plain)
  else if c = '\'' then ([], .quoted [])
  else if c = '$' then ([], .param [])
  else if isWordChar c then ([], .word [c])
  else ([], .symbol [c])

/-- Whether a character continues a symbol. -/
def isSymbolChar (c : Char) : Bool :=
  !(isWordChar c || c == ' ' || c == '(' || c == ')' || c == ',' || c == '\'' || c == '$')

/-- One character: the tokens that end with it and the mode after it. -/
def Mode.step (mode : Mode) (c : Char) : List Token × Mode :=
  match mode with
  | .plain => start c
  | .quoted seen =>
    if c = '\'' then ([.quoted (String.ofList seen.reverse)], .plain) else ([], .quoted (c :: seen))
  | .word seen =>
    if isWordChar c then ([], .word (c :: seen))
    else (mode.flush ++ (start c).1, (start c).2)
  | .param seen =>
    if c.isDigit then ([], .param (c :: seen))
    else (mode.flush ++ (start c).1, (start c).2)
  | .symbol seen =>
    if isSymbolChar c then ([], .symbol (c :: seen))
    else (mode.flush ++ (start c).1, (start c).2)

def lexFrom (mode : Mode) : List Char → List Token
  | [] => mode.flush
  | c :: cs => (mode.step c).1 ++ lexFrom (mode.step c).2 cs

/-- The tokens of a text. -/
def lex (text : List Char) : List Token := lexFrom .plain text

@[simp] theorem lexFrom_cons (mode : Mode) (c : Char) (cs : List Char) :
    lexFrom mode (c :: cs) = (mode.step c).1 ++ lexFrom (mode.step c).2 cs := rfl

/-- A text without a quote is all inside the quoted constant. -/
theorem lexFrom_quoted {text : List Char} (h : '\'' ∉ text) (seen rest : List Char) :
    lexFrom (.quoted seen) (text ++ rest) = lexFrom (.quoted (text.reverse ++ seen)) rest := by
  induction text generalizing seen with
  | nil => rfl
  | cons c text ih =>
    obtain ⟨hc, htext⟩ := not_or.mp (mt mem_cons.mpr h)
    rw [cons_append, lexFrom_cons, Mode.step, if_neg (Ne.symm hc), nil_append,
      ih htext, reverse_cons, append_assoc]
    rfl

/-- The text ends, or goes on with a blank, a bracket, a comma or a cast: no word,
placeholder or quoted constant before it goes on. -/
def Stops (rest : List Char) : Prop :=
  ∀ c ∈ rest.head?, c = ' ' ∨ c = '(' ∨ c = ')' ∨ c = ',' ∨ c = ':'

variable {rest : List Char}

theorem stops_cons {c : Char}
    (h : c = ' ' ∨ c = '(' ∨ c = ')' ∨ c = ',' ∨ c = ':') : Stops (c :: rest) := by
  intro d hd
  cases hd
  exact h

theorem Stops.not_isWordChar {c : Char} {cs : List Char} (h : Stops (c :: cs)) :
    isWordChar c = false ∧ c.isDigit = false := by
  rcases h c rfl with rfl | rfl | rfl | rfl | rfl <;> decide

/-- The digits of a placeholder are one token. -/
theorem lexFrom_param {digits : List Char} (h : ∀ c ∈ digits, c.isDigit = true) (hrest : Stops rest)
    (seen : List Char) :
    lexFrom (.param seen) (digits ++ rest) =
      .param (String.ofList (seen.reverse ++ digits)) :: lex rest := by
  induction digits generalizing seen with
  | nil =>
    cases rest with
    | nil => simp [lexFrom, Mode.flush, lex]
    | cons c cs =>
      rw [nil_append, lexFrom_cons, Mode.step, if_neg (by simp [hrest.not_isWordChar.2])]
      simp [Mode.flush, lex, Mode.step]
  | cons d digits ih =>
    rw [cons_append, lexFrom_cons, Mode.step, if_pos (h d mem_cons_self), nil_append,
      ih (forall_mem_cons.mp h).2, reverse_cons, append_assoc]
    rfl

/-- A word ends where the text stops. -/
theorem lexFrom_word (hrest : Stops rest) (seen : List Char) :
    lexFrom (.word seen) rest = .word (String.ofList seen.reverse) :: lex rest := by
  cases rest with
  | nil => rfl
  | cons c cs =>
    rw [lexFrom_cons, Mode.step, if_neg (by simp [hrest.not_isWordChar.1])]
    simp [Mode.flush, lex, Mode.step]

/-! ## The AND/OR structure -/

/-- The structure of a condition over its atoms. -/
inductive Formula where
  | atom (tokens : List Token)
  | and (parts : List Formula)
  | or (parts : List Formula)

def conj : List Formula → Formula
  | [f] => f
  | fs => .and fs

def disj : List Formula → Formula
  | [f] => f
  | fs => .or fs

/-- The bracket depth after a token. -/
def deeper (depth : ℕ) : Token → ℕ
  | .lParen => depth + 1
  | .rParen => depth - 1
  | _ => depth

/-- A token put before the first part. -/
def consHead (t : Token) : List (List Token) → List (List Token)
  | [] => [[t]]
  | part :: parts => (t :: part) :: parts

/-- The parts of a token list between the separators outside brackets. -/
def splitTop (sep : Token) (depth : ℕ) : List Token → List (List Token)
  | [] => [[]]
  | t :: ts =>
    if depth = 0 ∧ t = sep then [] :: splitTop sep 0 ts
    else consHead t (splitTop sep (deeper depth t) ts)

/-- What stands before the bracket that closes the current group, and after it. -/
def closing (depth : ℕ) : List Token → Option (List Token × List Token)
  | [] => none
  | t :: ts =>
    if depth = 0 ∧ t = .rParen then some ([], ts)
    else (closing (deeper depth t) ts).map fun p => (t :: p.1, p.2)

/-- The inside of a token list that is one bracketed group. -/
def group : List Token → Option (List Token)
  | .lParen :: ts =>
    match closing 0 ts with
    | some (inside, []) => some inside
    | _ => none
  | _ => none

/-- The keywords that separate. -/
def andTok : Token := .word "AND"

def orTok : Token := .word "OR"

/-- The structure of a token list, with fuel for the nesting. -/
def parseFuel : ℕ → List Token → Formula
  | 0, ts => .atom ts
  | n + 1, ts =>
    match splitTop orTok 0 ts with
    | first :: second :: rest => .or ((first :: second :: rest).map (parseFuel n))
    | _ =>
      match splitTop andTok 0 ts with
      | first :: second :: rest => .and ((first :: second :: rest).map (parseFuel n))
      | _ =>
        match group ts with
        | some inside => parseFuel n inside
        | none => .atom ts

/-- The structure of a token list. -/
def parse (ts : List Token) : Formula := parseFuel (ts.length + 1) ts

/-! ### Sealed parts -/

/-- From a depth on, the brackets are matched and the separator does not stand
outside them. -/
def sealedFrom (sep : Token) (depth : ℕ) : List Token → Bool
  | [] => depth = 0
  | t :: ts =>
    if depth = 0 ∧ (t = sep ∨ t = .rParen) then false else sealedFrom sep (deeper depth t) ts

/-- The brackets are matched and the separator does not stand outside them. -/
def isSealed (sep : Token) (ts : List Token) : Bool := sealedFrom sep 0 ts

/-- The brackets are matched: no closing bracket stands outside a group. -/
def isMatched (ts : List Token) : Bool := sealedFrom .rParen 0 ts

/-- Tokens put before the first part. -/
def prependHead (ts : List Token) (parts : List (List Token)) : List (List Token) :=
  ts.foldr consHead parts

@[simp] theorem prependHead_cons (ts part : List Token) (parts : List (List Token)) :
    prependHead ts (part :: parts) = (ts ++ part) :: parts := by
  induction ts with
  | nil => rfl
  | cons t ts ih => rw [prependHead, foldr_cons, ← prependHead, ih]; rfl

variable {sep : Token} {depth : ℕ} {ts : List Token}

theorem sealedFrom_cons {t : Token} :
    sealedFrom sep depth (t :: ts) = true ↔
      (depth = 0 → t ≠ sep ∧ t ≠ .rParen) ∧ sealedFrom sep (deeper depth t) ts = true := by
  rw [sealedFrom]
  split_ifs with hsep
  · simp only [false_iff, not_and]
    exact fun h => absurd hsep.2 (not_or.mpr (h hsep.1))
  · exact (and_iff_right fun hd => not_or.mp fun ht => hsep ⟨hd, ht⟩).symm

/-- A sealed list is passed over as a whole. -/
theorem splitTop_append (h : sealedFrom sep depth ts = true) (rest : List Token) :
    splitTop sep depth (ts ++ rest) = prependHead ts (splitTop sep 0 rest) := by
  induction ts generalizing depth with
  | nil =>
    obtain rfl : depth = 0 := by simpa [sealedFrom] using h
    rfl
  | cons t ts ih =>
    obtain ⟨ht, hts⟩ := sealedFrom_cons.mp h
    rw [cons_append, splitTop, if_neg fun hsep => (ht hsep.1).1 hsep.2, ih hts]
    rfl

theorem closing_append (h : sealedFrom sep depth ts = true) (rest : List Token) :
    closing depth (ts ++ rest) = (closing 0 rest).map fun p => (ts ++ p.1, p.2) := by
  induction ts generalizing depth with
  | nil =>
    obtain rfl : depth = 0 := by simpa [sealedFrom] using h
    simp
  | cons t ts ih =>
    obtain ⟨ht, hts⟩ := sealedFrom_cons.mp h
    rw [cons_append, closing, if_neg fun hsep => (ht hsep.1).2 hsep.2, ih hts]
    simp [Function.comp_def]

theorem sealedFrom_append (h : sealedFrom sep depth ts = true) (rest : List Token) :
    sealedFrom sep depth (ts ++ rest) = sealedFrom sep 0 rest := by
  induction ts generalizing depth with
  | nil =>
    obtain rfl : depth = 0 := by simpa [sealedFrom] using h
    rfl
  | cons t ts ih =>
    obtain ⟨ht, hts⟩ := sealedFrom_cons.mp h
    rw [cons_append, sealedFrom, if_neg fun hsep => not_or.mpr (ht hsep.1) hsep.2, ih hts]

theorem isMatched_of_isSealed (h : isSealed sep ts = true) :
    isMatched ts = true := by
  suffices aux : ∀ depth, sealedFrom sep depth ts = true → sealedFrom .rParen depth ts = true from
    aux 0 h
  clear h
  induction ts with
  | nil => exact fun depth h => by simpa [sealedFrom] using h
  | cons t ts ih =>
    intro depth h
    obtain ⟨ht, hts⟩ := sealedFrom_cons.mp h
    exact sealedFrom_cons.mpr ⟨fun hd => ⟨(ht hd).2, (ht hd).2⟩, ih _ hts⟩

/-- Inside brackets a matched list is passed over, whatever the separator. -/
theorem sealedFrom_group (sep : Token) (h : isMatched ts = true) (rest : List Token) :
    sealedFrom sep 1 (ts ++ .rParen :: rest) = sealedFrom sep 0 rest := by
  suffices aux : ∀ depth, sealedFrom .rParen depth ts = true →
      sealedFrom sep (depth + 1) (ts ++ .rParen :: rest) = sealedFrom sep 0 rest from aux 0 h
  clear h
  induction ts with
  | nil =>
    intro depth h
    obtain rfl : depth = 0 := by simpa [sealedFrom] using h
    simp [sealedFrom, deeper]
  | cons t ts ih =>
    intro depth h
    obtain ⟨ht, hts⟩ := sealedFrom_cons.mp h
    have hdeeper : deeper (depth + 1) t = deeper depth t + 1 := by
      cases t with
      | rParen =>
        have : depth ≠ 0 := fun hd => (ht hd).1 rfl
        simp only [deeper]
        omega
      | lParen | word | quoted | param | symbol => rfl
    rw [cons_append, sealedFrom, if_neg fun hd => Nat.succ_ne_zero _ hd.1, hdeeper, ih _ hts]

theorem isSealed_group (sep : Token) (hsep : sep ≠ .lParen)
    (h : isMatched ts = true) : isSealed sep (.lParen :: ts ++ [.rParen]) = true := by
  refine sealedFrom_cons.mpr ⟨fun _ => ⟨hsep.symm, by simp⟩, ?_⟩
  exact (sealedFrom_group sep h []).trans rfl

/-! ### Parts between separators -/

/-- The parts joined by a separator. -/
def join (sep : Token) : List (List Token) → List Token
  | [] => []
  | [part] => part
  | part :: parts => part ++ sep :: join sep parts

variable {parts : List (List Token)}

theorem join_cons {part : List Token} (h : parts ≠ []) :
    join sep (part :: parts) = part ++ sep :: join sep parts := by
  cases parts with
  | nil => exact absurd rfl h
  | cons => rfl

theorem join_append {more : List (List Token)} (h : parts ≠ [])
    (hmore : more ≠ []) : join sep (parts ++ more) = join sep parts ++ sep :: join sep more := by
  induction parts with
  | nil => exact absurd rfl h
  | cons part parts ih =>
    by_cases hparts : parts = []
    · subst hparts
      exact join_cons hmore
    · rw [cons_append, join_cons (by simp [hparts]), ih hparts, join_cons hparts]
      simp

/-- A joined list among other parts is its parts among them. -/
theorem join_join (sep : Token) (h : parts ≠ []) (before after : List (List Token)) :
    join sep (before ++ join sep parts :: after) = join sep (before ++ parts ++ after) := by
  have hafter : join sep (join sep parts :: after) = join sep (parts ++ after) := by
    by_cases hnil : after = []
    · subst hnil
      simp [join]
    · rw [join_cons hnil, join_append h hnil]
  by_cases hnil : before = []
  · subst hnil
    exact hafter
  · rw [join_append hnil (by simp), hafter, append_assoc, join_append hnil (by simp [h])]

theorem splitTop_join (hne : parts ≠ [])
    (h : ∀ part ∈ parts, isSealed sep part = true) : splitTop sep 0 (join sep parts) = parts := by
  induction parts with
  | nil => exact absurd rfl hne
  | cons part parts ih =>
    have hpart := h part mem_cons_self
    by_cases hparts : parts = []
    · subst hparts
      have hsplit := splitTop_append hpart []
      rw [append_nil] at hsplit
      rw [join, hsplit, splitTop, prependHead_cons, append_nil]
    · rw [join_cons hparts, splitTop_append hpart, splitTop, if_pos ⟨rfl, rfl⟩,
        ih hparts (forall_mem_cons.mp h).2, prependHead_cons, append_nil]

/-- Parts sealed for one separator stay sealed when joined by another. -/
theorem isSealed_join {other : Token} (hother : other ≠ sep) (hplain : ∀ d, deeper d other = d)
    (hparen : other ≠ .rParen)
    (h : ∀ part ∈ parts, isSealed sep part = true) : isSealed sep (join other parts) = true := by
  induction parts with
  | nil => rfl
  | cons part parts ih =>
    have hpart := h part mem_cons_self
    have hjoin := ih (forall_mem_cons.mp h).2
    by_cases hparts : parts = []
    · subst hparts
      exact hpart
    · rw [join_cons hparts, isSealed, sealedFrom_append hpart]
      refine sealedFrom_cons.mpr ⟨fun _ => ⟨hother, hparen⟩, ?_⟩
      rw [hplain]
      exact hjoin

theorem length_join_lt (h : 2 ≤ parts.length)
    {part : List Token} (hpart : part ∈ parts) : part.length < (join sep parts).length := by
  induction parts with
  | nil => cases hpart
  | cons first parts ih =>
    have hparts : parts ≠ [] := by
      rintro rfl
      simp at h
    rw [join_cons hparts, length_append, length_cons]
    rcases mem_cons.mp hpart with rfl | hpart
    · omega
    · rcases Nat.lt_or_ge parts.length 2 with hlt | hge
      · obtain ⟨p, rfl⟩ : ∃ p, parts = [p] := length_eq_one_iff.mp (by
          have := length_pos_iff.mpr hparts
          omega)
        obtain rfl : part = p := by simpa using hpart
        rw [join]
        omega
      · have := ih hge hpart
        omega

/-- What is split is what is joined. -/
theorem join_splitTop (sep : Token) (depth : ℕ) (ts : List Token) :
    splitTop sep depth ts ≠ [] ∧ join sep (splitTop sep depth ts) = ts := by
  induction ts generalizing depth with
  | nil => exact ⟨by simp [splitTop], rfl⟩
  | cons t ts ih =>
    rw [splitTop]
    split_ifs with hsep
    · obtain ⟨hne, hjoin⟩ := ih 0
      refine ⟨by simp, ?_⟩
      rw [join_cons hne, hjoin, hsep.2]
      rfl
    · obtain ⟨hne, hjoin⟩ := ih (deeper depth t)
      obtain ⟨part, parts, hparts⟩ := exists_cons_of_ne_nil hne
      rw [hparts] at hjoin ⊢
      refine ⟨by simp [consHead], ?_⟩
      cases parts <;> simpa [consHead, join] using hjoin

theorem length_closing {inside rest : List Token}
    (h : closing depth ts = some (inside, rest)) : inside.length + rest.length < ts.length := by
  induction ts generalizing depth inside rest with
  | nil => cases h
  | cons t ts ih =>
    rw [closing] at h
    split_ifs at h with hend
    · cases h
      simp
    · obtain ⟨⟨a, b⟩, hab, heq⟩ := Option.map_eq_some_iff.mp h
      cases heq
      have := ih hab
      simp only [length_cons]
      omega

theorem length_group {inside : List Token} (h : group ts = some inside) :
    inside.length < ts.length := by
  rcases ts with _ | ⟨t, ts⟩
  · cases h
  · cases t with
    | lParen =>
      rw [group] at h
      rcases hclose : closing 0 ts with _ | ⟨a, _ | _⟩ <;> rw [hclose] at h <;> cases h
      have := length_closing hclose
      simp only [length_cons]
      omega
    | rParen | word | quoted | param | symbol => cases h

/-- The fuel does not matter once it exceeds the length. -/
theorem parseFuel_eq {n m : ℕ} (hn : ts.length < n) (hm : ts.length < m) :
    parseFuel n ts = parseFuel m ts := by
  induction n generalizing m ts with
  | zero => omega
  | succ n ih =>
    obtain ⟨m, rfl⟩ := Nat.exists_eq_add_of_lt (Nat.zero_lt_of_lt hm)
    have hparts (sep : Token) {first second : List Token} {rest : List (List Token)}
        (hsplit : splitTop sep 0 ts = first :: second :: rest) :
        ∀ part ∈ first :: second :: rest, parseFuel n part = parseFuel (0 + m) part := by
      intro part hpart
      have hlt := @length_join_lt sep (first :: second :: rest) (by simp) part hpart
      rw [← hsplit, (join_splitTop sep 0 ts).2] at hlt
      exact ih (by omega) (by omega)
    rw [parseFuel, parseFuel]
    split
    · rename_i first second rest hsplit
      rw [map_congr_left (hparts orTok hsplit)]
    · split
      · rename_i first second rest hsplit
        rw [map_congr_left (hparts andTok hsplit)]
      · split
        · rename_i inside hgroup
          have := length_group hgroup
          exact ih (by omega) (by omega)
        · rfl

/-- A token list reads as a formula, with any fuel that suffices. -/
def Reads (ts : List Token) (f : Formula) : Prop := ∀ n, ts.length < n → parseFuel n ts = f

theorem Reads.parse {f : Formula} (h : Reads ts f) : parse ts = f :=
  h _ (Nat.lt_succ_self _)

theorem reads_parse (ts : List Token) : Reads ts (parse ts) :=
  fun _ hn => parseFuel_eq hn (Nat.lt_succ_self _)

/-- A part of a conjunction: neither separator stands outside its brackets. -/
def IsConjunct (ts : List Token) : Prop := isSealed andTok ts = true ∧ isSealed orTok ts = true

theorem splitTop_of_isSealed (h : isSealed sep ts = true) :
    splitTop sep 0 ts = [ts] :=
  @splitTop_join sep [ts] (by simp) (by simpa using h)

theorem reads_atom (h : IsConjunct ts) (hgroup : group ts = none) :
    Reads ts (.atom ts) := by
  intro n hn
  cases n with
  | zero => rfl
  | succ n =>
    rw [parseFuel, splitTop_of_isSealed h.2, splitTop_of_isSealed h.1, hgroup]

theorem group_lParen (h : isMatched ts = true) :
    group (.lParen :: ts ++ [.rParen]) = some ts := by
  have hclose := closing_append h [.rParen]
  rw [cons_append, group, hclose]
  simp [closing]

theorem isConjunct_group (h : isMatched ts = true) :
    IsConjunct (.lParen :: ts ++ [.rParen]) :=
  ⟨isSealed_group andTok (by decide) h, isSealed_group orTok (by decide) h⟩

/-- Brackets do not change what is read. -/
theorem Reads.group {f : Formula} (h : Reads ts f) (hm : isMatched ts = true) :
    Reads (.lParen :: ts ++ [.rParen]) f := by
  intro n hn
  simp only [cons_append, length_cons, length_append] at hn
  cases n with
  | zero => omega
  | succ n =>
    have hconj := isConjunct_group hm
    rw [parseFuel, splitTop_of_isSealed hconj.2, splitTop_of_isSealed hconj.1, group_lParen hm]
    exact h n (by omega)

variable {fs : List Formula}

/-- The parts of a joined list are read with the fuel left. -/
theorem map_parseFuel {n : ℕ} (htwo : 2 ≤ parts.length) (h : Forall₂ Reads parts fs)
    (hn : (join sep parts).length < n + 1) : parts.map (parseFuel n) = fs := by
  have hlt : ∀ part ∈ parts, part.length < n := fun part hpart => by
    have := @length_join_lt sep parts htwo part hpart
    omega
  clear htwo hn
  induction h with
  | nil => rfl
  | cons hpart _ ih =>
    rw [map_cons, hpart n (hlt _ mem_cons_self),
      ih (forall_mem_cons.mp hlt).2]

/-- Conjuncts joined by AND read as their conjunction. -/
theorem reads_conj (hne : parts ≠ []) (hparts : ∀ part ∈ parts, IsConjunct part)
    (h : Forall₂ Reads parts fs) :
    Reads (join andTok parts) (conj fs) := by
  cases h with
  | nil => exact absurd rfl hne
  | @cons first f rest gs hfirst hrest =>
    cases hrest with
    | nil => exact hfirst
    | @cons second g rest gs hsecond hrest =>
      intro n hn
      cases n with
      | zero => omega
      | succ n =>
        have hor : isSealed orTok (join andTok (first :: second :: rest)) = true :=
          isSealed_join (by decide) (fun _ => rfl) (by decide) fun part hpart => (hparts part hpart).2
        have hmap := map_parseFuel (by simp) (.cons hfirst (.cons hsecond hrest)) hn
        rw [parseFuel, splitTop_of_isSealed hor, splitTop_join hne fun part hpart => (hparts part hpart).1]
        exact congrArg Formula.and hmap

/-- Parts without OR outside brackets, joined by OR, read as their disjunction. -/
theorem reads_disj (hne : parts ≠ []) (hparts : ∀ part ∈ parts, isSealed orTok part = true)
    (h : Forall₂ Reads parts fs) :
    Reads (join orTok parts) (disj fs) := by
  cases h with
  | nil => exact absurd rfl hne
  | @cons first f rest gs hfirst hrest =>
    cases hrest with
    | nil => exact hfirst
    | @cons second g rest gs hsecond hrest =>
      intro n hn
      cases n with
      | zero => omega
      | succ n =>
        have hmap := map_parseFuel (by simp) (.cons hfirst (.cons hsecond hrest)) hn
        rw [parseFuel, splitTop_join hne hparts]
        exact congrArg Formula.or hmap

/-! ## Three-valued truth -/

/-- Conjunction with an unknown value: false wins over unknown. -/
def and3 : Option Bool → Option Bool → Option Bool
  | some false, _ | _, some false => some false
  | some true, some true => some true
  | _, _ => none

/-- Disjunction with an unknown value: true wins over unknown. -/
def or3 : Option Bool → Option Bool → Option Bool
  | some true, _ | _, some true => some true
  | some false, some false => some false
  | _, _ => none

def allOf (values : List (Option Bool)) : Option Bool := values.foldr and3 (some true)

def anyOf (values : List (Option Bool)) : Option Bool := values.foldr or3 (some false)

theorem and3_eq_true {x y : Option Bool} : and3 x y = some true ↔ x = some true ∧ y = some true := by
  rcases x with _ | _ | _ <;> rcases y with _ | _ | _ <;> simp [and3]

theorem or3_eq_true {x y : Option Bool} : or3 x y = some true ↔ x = some true ∨ y = some true := by
  rcases x with _ | _ | _ <;> rcases y with _ | _ | _ <;> simp [or3]

theorem allOf_eq_true {values : List (Option Bool)} :
    allOf values = some true ↔ ∀ v ∈ values, v = some true := by
  induction values with
  | nil => simp [allOf]
  | cons v values ih =>
    rw [allOf, foldr_cons, ← allOf, and3_eq_true, ih]
    simp

theorem anyOf_eq_true {values : List (Option Bool)} :
    anyOf values = some true ↔ some true ∈ values := by
  induction values with
  | nil => simp [anyOf]
  | cons v values ih =>
    rw [anyOf, foldr_cons, ← anyOf, or3_eq_true, ih, mem_cons, eq_comm]

end Sql
