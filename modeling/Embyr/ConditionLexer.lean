import Embyr.ConditionParser

/-!
# The tokens of a source

What the tokenizer accepts, as a relation between texts and tokens.

* `Closed` — the argument of a call, with matching parentheses.
* `Spells` — a text of a token; numbers and calls have many.
* `Follows` — what may come directly after a token: each is read as far as it goes.
* `Lexes`, `tokenize_eq_ok_iff` — a source is tokens and white space.
-/

namespace Embyr

open Binary64 List

/-! ## Runs of characters -/

/-- No character with `p` comes next. -/
def StopsAt (p : Char → Bool) (rest : List Char) : Prop := ∀ c ∈ rest.head?, p c = false

variable {l : List Char} {c : Char}

section Runs

variable {p : Char → Bool} {used rest : List Char}

theorem stopsAt_dropWhile (l : List Char) : StopsAt p (l.dropWhile p) := by
  intro c hc
  have hhead := head?_dropWhile_not p l
  rw [Option.mem_def.mp hc] at hhead
  simpa using hhead

theorem takeWhile_of_stopsAt (hused : ∀ c ∈ used, p c = true) (hrest : StopsAt p rest) :
    (used ++ rest).takeWhile p = used := by
  rw [takeWhile_append_of_pos hused]
  rcases rest with _ | ⟨c, rest⟩
  · simp
  · simp [hrest c rfl]

theorem dropWhile_of_stopsAt (hused : ∀ c ∈ used, p c = true) (hrest : StopsAt p rest) :
    (used ++ rest).dropWhile p = rest := by
  rw [dropWhile_append_of_pos hused]
  rcases rest with _ | ⟨c, rest⟩
  · simp
  · simp [hrest c rfl]

theorem mem_takeWhile_pos (h : c ∈ l.takeWhile p) : p c = true :=
  mem_takeWhile_imp h

end Runs

/-! ## Call arguments -/

/-- Inside `d` open parentheses: none of them is closed too early, and one is left open. -/
def Closed : ℕ → List Char → Prop
  | d, [] => d = 1
  | d, c :: cs =>
    if c = '(' then Closed (d + 1) cs
    else if c = ')' then 1 < d ∧ Closed (d - 1) cs
    else Closed d cs

variable {rest : List Char}

/-- One character more, and the rest of the argument. -/
theorem map_cons_eq_some_iff {x : Option (List Char × List Char)} {inside : List Char} :
    (x.map fun (inside, rest) => (c :: inside, rest)) = some (inside, rest) ↔
      ∃ tail, inside = c :: tail ∧ x = some (tail, rest) := by
  rcases x with _ | ⟨tail, rest'⟩
  · simp
  · simp only [Option.map_some, Option.some.injEq, Prod.mk.injEq]
    exact ⟨fun ⟨h, h'⟩ => ⟨tail, h.symm, rfl, h'⟩, fun ⟨_, h, h', h''⟩ => ⟨h' ▸ h.symm, h''⟩⟩

theorem findMatchingParen_cons (d : ℕ) (c : Char) (cs : List Char) :
    findMatchingParen d (c :: cs) =
      if c = ')' ∧ d ≤ 1 then some ([], cs)
      else (findMatchingParen (if c = '(' then d + 1 else if c = ')' then d - 1 else d) cs).map
        fun (inside, rest) => (c :: inside, rest) := by
  by_cases hopen : c = '('
  · subst hopen
    simp [findMatchingParen]
  by_cases hclose : c = ')'
  · subst hclose
    simp [findMatchingParen]
  · rw [findMatchingParen]
    · simp [hopen, hclose]
    · exact hopen
    · exact hclose

variable {cs : List Char}

theorem findMatchingParen_eq_some_iff {d : ℕ} {inside : List Char} (hd : 1 ≤ d) :
    findMatchingParen d cs = some (inside, rest) ↔
      cs = inside ++ ')' :: rest ∧ Closed d inside := by
  induction cs generalizing d inside with
  | nil => simp [findMatchingParen]
  | cons c cs ih =>
    rw [findMatchingParen_cons]
    split_ifs with hend hopen hclose
    · obtain ⟨rfl, hdepth⟩ := hend
      obtain rfl : d = 1 := by omega
      rcases inside with _ | ⟨c', tail⟩
      · simp [Closed]
      · simp only [cons_append, cons.injEq, Closed]
        simp +contextual [eq_comm]
    · rw [map_cons_eq_some_iff]
      simp only [ih (show 1 ≤ d + 1 by omega)]
      rcases inside with _ | ⟨c', tail⟩
      · simp [hopen]
      · simp only [cons_append, cons.injEq, Closed]
        grind
    · have hdepth : 1 < d := by
        by_contra h
        exact hend ⟨hclose, by omega⟩
      rw [map_cons_eq_some_iff]
      simp only [ih (show 1 ≤ d - 1 by omega)]
      rcases inside with _ | ⟨c', tail⟩
      · simp [Closed]
        grind
      · simp only [cons_append, cons.injEq, Closed]
        grind
    · rw [map_cons_eq_some_iff]
      simp only [ih hd]
      rcases inside with _ | ⟨c', tail⟩
      · simp [hclose]
      · simp only [cons_append, cons.injEq, Closed]
        grind

theorem closed_cons (d : ℕ) (c : Char) (cs : List Char) :
    Closed d (c :: cs) ↔ if c = '(' then Closed (d + 1) cs
      else if c = ')' then 1 < d ∧ Closed (d - 1) cs else Closed d cs := Iff.rfl

-- a path is not to be walked through each time its type is looked at
attribute [irreducible] Closed

/-! ## Texts of tokens -/

/-- The characters of a field name after `get(...).data.`. -/
def isFieldChar (c : Char) : Bool := c.isAlphanum || c == '_'

/-- Tokens with one text. -/
def Token.symbol : Token → Option (List Char)
  | .lParen => some ['(']
  | .rParen => some [')']
  | .lBracket => some ['[']
  | .rBracket => some [']']
  | .comma => some [',']
  | .and => some ['&', '&']
  | .or => some ['|', '|']
  | .not => some ['!']
  | .eq => some ['=', '=']
  | .ne => some ['!', '=']
  | .lt => some ['<']
  | .le => some ['<', '=']
  | .gt => some ['>']
  | .ge => some ['>', '=']
  | .plus => some ['+']
  | .minus => some ['-']
  | _ => none

/-- The sign of a literal. -/
def signText (negative : Bool) : List Char := if negative then ['-'] else []

/-- A text of a token. -/
inductive Spells : List Char → Token → Prop
  | symbol {text : List Char} {t : Token} : t.symbol = some text → Spells text t
  | word {c : Char} {w : List Char} : isIdentStart c = true → (∀ x ∈ w, isIdentChar x = true) →
    Spells (c :: w) (.word (.ofList (c :: w)))
  | string {content : List Char} : '"' ∉ content →
    Spells ('"' :: content ++ ['"']) (.stringLiteral (.ofList content))
  | unit {content : List Char} : '\x27' ∉ content →
    Spells ('\x27' :: content ++ ['\x27']) (.singleQuotedUnit (.ofList content))
  | int {negative : Bool} {digits : List Char} {i : Int64} : digits ≠ [] →
    (∀ x ∈ digits, x.isDigit = true) → parseI64 negative digits = some i →
    Spells (signText negative ++ digits) (.intLiteral i)
  | double {negative : Bool} {whole frac : List Char} : whole ≠ [] →
    (∀ x ∈ whole, x.isDigit = true) → frac ≠ [] → (∀ x ∈ frac, x.isDigit = true) →
    Spells (signText negative ++ whole ++ '.' :: frac)
      (.doubleLiteral (.ofDecimal negative (digitsValue (whole ++ frac)) frac.length))
  | existsCall {rawPath : List Char} : Closed 1 rawPath →
    Spells ("exists(".toList ++ rawPath ++ [')']) (.existsCall (.ofList rawPath))
  | getCall {rawPath field : List Char} : Closed 1 rawPath → field ≠ [] →
    (∀ x ∈ field, isFieldChar x = true) →
    Spells ("get(".toList ++ rawPath ++ ')' :: ".data.".toList ++ field)
      (.getCall (.ofList rawPath) (.ofList field))

/-- What may come directly after a token. -/
def Follows : Token → List Char → Prop
  | .not, rest | .lt, rest | .gt, rest => StopsAt (· == '=') rest
  | .minus, rest => StopsAt (·.isDigit) rest
  | .word w, rest => StopsAt isIdentChar rest ∧
    (w = "exists" ∨ w = "get" → StopsAt (· == '(') rest)
  | .intLiteral _, rest => StopsAt (fun c => c.isDigit || c == '.') rest
  | .doubleLiteral _, rest => StopsAt (·.isDigit) rest
  | .getCall _ _, rest => StopsAt isFieldChar rest
  | _, _ => True

/-! ## Reading one token -/

/-- The tokenizer reads `t` at the front of `cs`. -/
def Reads (cs : List Char) (t : Token) (rest : List Char) : Prop :=
  ∃ text, cs = text ++ rest ∧ Spells text t ∧ Follows t rest

variable {negative : Bool} {i : ℕ} {t : Token}

theorem scanNumber_reads (hc : c.isDigit = true)
    (h : scanNumber negative i (c :: cs) = .ok (t, rest)) :
    Reads (signText negative ++ c :: cs) t rest := by
  have hwhole : (c :: cs).takeWhile (·.isDigit) ≠ [] := by simp [hc]
  have hdigits : ∀ x ∈ (c :: cs).takeWhile (·.isDigit), x.isDigit = true := fun x hx =>
    mem_takeWhile_pos hx
  have hcut := takeWhile_append_dropWhile (p := (·.isDigit)) (l := c :: cs)
  simp only [scanNumber] at h
  split at h
  · rename_i rest' hrest
    split_ifs at h with hempty
    · cases h
    cases h
    refine ⟨signText negative ++ (c :: cs).takeWhile (·.isDigit) ++
      '.' :: rest'.takeWhile (·.isDigit), ?_, ?_, stopsAt_dropWhile _⟩
    · conv_lhs => rw [← hcut, hrest]
      simp [takeWhile_append_dropWhile]
    · exact .double hwhole hdigits (by simpa using hempty) fun x hx => mem_takeWhile_pos hx
  · rename_i rest' hdot
    split at h
    · rename_i value hvalue
      cases h
      refine ⟨signText negative ++ (c :: cs).takeWhile (·.isDigit), ?_,
        .int hwhole hdigits hvalue, ?_⟩
      · rw [append_assoc, hcut]
      · intro x hx
        have hdigit := stopsAt_dropWhile (c :: cs) x hx
        obtain ⟨tail, htail⟩ := head?_eq_some_iff.mp hx
        rw [Bool.or_eq_false_iff, beq_eq_false_iff_ne]
        exact ⟨hdigit, fun hx => hdot tail (hx ▸ htail)⟩
    · cases h

theorem scanNumber_int {digits : List Char} {i : Int64} (pos : ℕ)
    (hdigits : ∀ x ∈ digits, x.isDigit = true) (hvalue : parseI64 negative digits = some i)
    (hrest : StopsAt (fun c => c.isDigit || c == '.') rest) :
    scanNumber negative pos (digits ++ rest) = .ok (.intLiteral i, rest) := by
  have hstop : StopsAt (·.isDigit) rest := fun c hc => (Bool.or_eq_false_iff.mp (hrest c hc)).1
  simp only [scanNumber, takeWhile_of_stopsAt hdigits hstop, dropWhile_of_stopsAt hdigits hstop]
  split
  · have hdot := hrest '.' rfl
    simp at hdot
  · simp [hvalue]

theorem scanNumber_double {whole frac : List Char} (pos : ℕ)
    (hwhole : ∀ x ∈ whole, x.isDigit = true) (hne : frac ≠ [])
    (hfrac : ∀ x ∈ frac, x.isDigit = true) (hrest : StopsAt (·.isDigit) rest) :
    scanNumber negative pos (whole ++ '.' :: (frac ++ rest)) =
      .ok (.doubleLiteral (.ofDecimal negative (digitsValue (whole ++ frac)) frac.length), rest) := by
  have hstop : StopsAt (·.isDigit) ('.' :: (frac ++ rest)) := by
    intro c hc
    cases hc
    rfl
  simp only [scanNumber, takeWhile_of_stopsAt hwhole hstop, dropWhile_of_stopsAt hwhole hstop,
    takeWhile_of_stopsAt hfrac hrest, dropWhile_of_stopsAt hfrac hrest]
  rw [if_neg (by simpa using hne)]

theorem dropPrefix_eq_some_iff {p : List Char} :
    l.dropPrefix? p = some rest ↔ l = p ++ rest := by
  rw [dropPrefix?_eq_some_iff]
  simp

theorem scanQuoted_eq_some_iff {quote : Char} {content : String} :
    scanQuoted quote cs = some (content, rest) ↔
      cs = content.toList ++ quote :: rest ∧ quote ∉ content.toList := by
  rw [scanQuoted.eq_def]
  constructor
  · intro h
    split at h
    · cases h
    · rename_i c rest' hdrop
      cases h
      have hc : c = quote := by
        have hstop := stopsAt_dropWhile (p := (· != quote)) cs c (by rw [hdrop]; rfl)
        simpa using hstop
      subst hc
      rw [String.toList_ofList, ← hdrop, takeWhile_append_dropWhile]
      refine ⟨rfl, fun hmem => ?_⟩
      have hne := mem_takeWhile_pos hmem
      simp at hne
  · rintro ⟨rfl, hquote⟩
    have hused : ∀ x ∈ content.toList, (x != quote) = true := by
      intro x hx
      rw [bne_iff_ne]
      rintro rfl
      exact hquote hx
    have hstop : StopsAt (· != quote) (quote :: rest) := by
      intro x hx
      cases hx
      simp
    rw [takeWhile_of_stopsAt hused hstop, dropWhile_of_stopsAt hused hstop]
    simp

theorem isIdentChar_of_isIdentStart (h : isIdentStart c = true) :
    isIdentChar c = true := by
  simp only [isIdentStart, isIdentChar, Char.isAlphanum, Bool.or_eq_true] at *
  tauto

theorem isIdentStart_of_not_isIdentChar (h : isIdentChar c = false) :
    isIdentStart c = false := by
  by_contra hs
  rw [isIdentChar_of_isIdentStart (by simpa using hs)] at h
  cases h

theorem scanCallArgument_eq_ok_iff {start : ℕ} {rawPath : String} :
    scanCallArgument start cs = .ok (rawPath, rest) ↔
      cs = rawPath.toList ++ ')' :: rest ∧ Closed 1 rawPath.toList := by
  rw [scanCallArgument.eq_def, ← findMatchingParen_eq_some_iff le_rfl]
  rcases findMatchingParen 1 cs with _ | ⟨inside, rest'⟩
  · simp [syntaxError]
  · simp only [Except.ok.injEq, Prod.mk.injEq, Option.some.injEq]
    exact and_congr_left fun _ => ⟨fun h => h ▸ String.toList_ofList.symm, fun h => by simp [h]⟩

theorem scanGetCall_reads {start : ℕ}
    (h : scanGetCall start cs = .ok (t, rest)) : Reads ("get(".toList ++ cs) t rest := by
  obtain ⟨⟨rawPath, rest₁⟩, harg, hthen⟩ := bind_eq_ok h
  obtain ⟨hcs, hclosed⟩ := scanCallArgument_eq_ok_iff.mp harg
  clear h harg
  simp only [show (fun c : Char => c.isAlphanum || c == '_') = isFieldChar from rfl] at hthen
  split at hthen
  · cases hthen
  · rename_i rest₂ hdata
    split_ifs at hthen with hempty
    · cases hthen
    cases hthen
    rw [hcs, dropPrefix_eq_some_iff.mp hdata]
    have hfield := takeWhile_append_dropWhile (p := isFieldChar) (l := rest₂)
    refine ⟨"get(".toList ++ rawPath.toList ++ ')' :: ".data.".toList ++
      rest₂.takeWhile isFieldChar, ?_, ?_, stopsAt_dropWhile _⟩
    · conv_lhs => rw [← hfield]
      simp
    · have hspells := Spells.getCall hclosed (by simpa using hempty) fun x hx =>
        mem_takeWhile_pos (p := isFieldChar) (l := rest₂) hx
      rwa [String.ofList_toList] at hspells

/-- A word that is a call's name is not read as a word before its parenthesis. -/
theorem stopsAt_paren_of_dropPrefix {name : String}
    (hword : String.ofList (l.takeWhile isIdentChar) = name)
    (hcall : l.dropPrefix? (name.toList ++ ['(']) = none) :
    StopsAt (· == '(') (l.dropWhile isIdentChar) := by
  intro x hx
  rw [beq_eq_false_iff_ne]
  rintro rfl
  obtain ⟨tail, htail⟩ := head?_eq_some_iff.mp hx
  have hcut := takeWhile_append_dropWhile (p := isIdentChar) (l := l)
  have hname : l.takeWhile isIdentChar = name.toList := by rw [← hword, String.toList_ofList]
  rw [htail, hname] at hcut
  have hsome : l.dropPrefix? (name.toList ++ ['(']) = some tail :=
    dropPrefix_eq_some_iff.mpr (by simp [hcut])
  rw [hcall] at hsome
  cases hsome

theorem scanWordLike_reads
    (h : scanWordLike i c cs = .ok (t, rest)) : Reads (c :: cs) t rest := by
  rcases hexists : (c :: cs).dropPrefix? "exists(".toList with _ | rest₀
  · rcases hget : (c :: cs).dropPrefix? "get(".toList with _ | rest₀
    · simp only [scanWordLike, hexists, hget] at h
      split_ifs at h with hident hquote hunit
      · cases h
        have hspells : Spells ((c :: cs).takeWhile isIdentChar)
            (.word (.ofList ((c :: cs).takeWhile isIdentChar))) := by
          rw [takeWhile_cons_of_pos (isIdentChar_of_isIdentStart hident)]
          exact .word hident fun x hx => mem_takeWhile_pos hx
        refine ⟨_, takeWhile_append_dropWhile.symm, hspells, stopsAt_dropWhile _, ?_⟩
        rintro (hname | hname)
        · exact stopsAt_paren_of_dropPrefix hname hexists
        · exact stopsAt_paren_of_dropPrefix hname hget
      · obtain rfl := hquote
        split at h
        · rename_i content rest₁ hcontent
          cases h
          obtain ⟨rfl, hnot⟩ := scanQuoted_eq_some_iff.mp hcontent
          have hspells := Spells.string hnot
          rw [String.ofList_toList] at hspells
          exact ⟨_, by simp, hspells, trivial⟩
        · cases h
      · obtain rfl := hunit
        split at h
        · rename_i content rest₁ hcontent
          cases h
          obtain ⟨rfl, hnot⟩ := scanQuoted_eq_some_iff.mp hcontent
          have hspells := Spells.unit hnot
          rw [String.ofList_toList] at hspells
          exact ⟨_, by simp, hspells, trivial⟩
        · cases h
      · cases h
      · cases h
    · simp only [scanWordLike, hexists, hget] at h
      rw [dropPrefix_eq_some_iff.mp hget]
      exact scanGetCall_reads h
  · simp only [scanWordLike, hexists] at h
    obtain ⟨⟨rawPath, rest₁⟩, harg, hlast⟩ := bind_eq_ok h
    cases hlast
    obtain ⟨rfl, hclosed⟩ := scanCallArgument_eq_ok_iff.mp harg
    have hspells := Spells.existsCall hclosed
    rw [String.ofList_toList] at hspells
    exact ⟨_, by rw [dropPrefix_eq_some_iff.mp hexists]; simp, hspells, trivial⟩

theorem stopsAt_of_ne (h : ∀ tail, rest = c :: tail → False) :
    StopsAt (· == c) rest := by
  intro x hx
  rw [beq_eq_false_iff_ne]
  rintro rfl
  obtain ⟨tail, htail⟩ := head?_eq_some_iff.mp hx
  exact h tail htail

theorem scanToken_reads
    (h : scanToken i c cs = .ok (t, rest)) : Reads (c :: cs) t rest := by
  rw [scanToken.eq_def] at h
  split at h
  case h_16 =>
    split_ifs at h with hdigit
    · rcases cs with _ | ⟨d, cs⟩
      · cases hdigit
      · have hread : Reads (signText true ++ d :: cs) t rest := scanNumber_reads hdigit h
        exact hread
    · cases h
      refine ⟨['-'], rfl, .symbol rfl, fun x hx => ?_⟩
      rw [Option.mem_def.mp hx] at hdigit
      simpa using hdigit
  case h_17 =>
    split_ifs at h with hdigit
    · have hread : Reads (signText false ++ c :: cs) t rest := scanNumber_reads hdigit h
      exact hread
    · exact scanWordLike_reads h
  case h_10 hne =>
    cases h
    exact ⟨['!'], rfl, .symbol rfl, stopsAt_of_ne hne⟩
  case h_12 hne =>
    cases h
    exact ⟨['<'], rfl, .symbol rfl, stopsAt_of_ne hne⟩
  case h_14 hne =>
    cases h
    exact ⟨['>'], rfl, .symbol rfl, stopsAt_of_ne hne⟩
  all_goals
    cases h
    refine ⟨_, ?_, .symbol rfl, trivial⟩
    rfl

/-! ## Every text is read -/

/-- A word followed by what may follow it is not a call. -/
theorem dropPrefix_word {name : String} {word : List Char}
    (hname : ∀ x ∈ name.toList, isIdentChar x = true) (hword : ∀ x ∈ word, isIdentChar x = true)
    (hrest : StopsAt isIdentChar rest)
    (hcall : String.ofList word = name → StopsAt (· == '(') rest) :
    (word ++ rest).dropPrefix? (name.toList ++ ['(']) = none := by
  rcases h : (word ++ rest).dropPrefix? (name.toList ++ ['(']) with _ | tail
  · rfl
  rw [dropPrefix_eq_some_iff, append_assoc, singleton_append] at h
  have hstop : StopsAt isIdentChar ('(' :: tail) := by
    intro x hx
    cases hx
    rfl
  have htake := congrArg (takeWhile isIdentChar) h
  have hdrop := congrArg (dropWhile isIdentChar) h
  rw [takeWhile_of_stopsAt hword hrest, takeWhile_of_stopsAt hname hstop] at htake
  rw [dropWhile_of_stopsAt hword hrest, dropWhile_of_stopsAt hname hstop] at hdrop
  have hparen := hcall (by rw [htake, String.ofList_toList]) '(' (by rw [hdrop]; rfl)
  cases hparen

theorem scanWordLike_word {w : List Char} (hc : isIdentStart c = true)
    (hw : ∀ x ∈ w, isIdentChar x = true) (hrest : Follows (.word (.ofList (c :: w))) rest) (i : ℕ) :
    scanWordLike i c (w ++ rest) = .ok (.word (.ofList (c :: w)), rest) := by
  have hident : ∀ x ∈ c :: w, isIdentChar x = true :=
    forall_mem_cons.mpr ⟨isIdentChar_of_isIdentStart hc, hw⟩
  have hexists : (c :: w ++ rest).dropPrefix? ("exists".toList ++ ['(']) = none :=
    dropPrefix_word (all_eq_true.mp (by decide)) hident hrest.1 fun h =>
      hrest.2 (.inl h)
  have hget : (c :: w ++ rest).dropPrefix? ("get".toList ++ ['(']) = none :=
    dropPrefix_word (all_eq_true.mp (by decide)) hident hrest.1 fun h =>
      hrest.2 (.inr h)
  have hexistsText : "exists(".toList = "exists".toList ++ ['('] := by decide
  have hgetText : "get(".toList = "get".toList ++ ['('] := by decide
  rw [cons_append] at hexists hget
  have htake := takeWhile_of_stopsAt hident hrest.1
  have hdrop := dropWhile_of_stopsAt hident hrest.1
  rw [cons_append] at htake hdrop
  simp only [scanWordLike, hexistsText, hgetText, hexists, hget, hc, htake, hdrop, if_true]

/-- A call's name is not at the front when the first character is another one. -/
theorem dropPrefix_head_ne {c' : Char} {cs' : List Char} (h : c ≠ c') :
    (c :: cs).dropPrefix? (c' :: cs') = none := by
  rcases hcut : (c :: cs).dropPrefix? (c' :: cs') with _ | tail
  · rfl
  · exact absurd (cons.inj (dropPrefix_eq_some_iff.mp hcut)).1 h

theorem scanWordLike_existsCall {rawPath : List Char} (h : Closed 1 rawPath) (i : ℕ) :
    scanWordLike i 'e' ("xists(".toList ++ rawPath ++ ')' :: rest) =
      .ok (.existsCall (.ofList rawPath), rest) := by
  have hexists : ('e' :: ("xists(".toList ++ rawPath ++ ')' :: rest)).dropPrefix? "exists(".toList =
      some (rawPath ++ ')' :: rest) := by
    rw [dropPrefix_eq_some_iff]
    simp
  have harg : scanCallArgument (i + 7) (rawPath ++ ')' :: rest) = .ok (.ofList rawPath, rest) :=
    scanCallArgument_eq_ok_iff.mpr (by simpa using h)
  simp only [scanWordLike, hexists, harg]
  rfl

theorem scanWordLike_getCall {rawPath field : List Char} (h : Closed 1 rawPath) (hne : field ≠ [])
    (hfield : ∀ x ∈ field, isFieldChar x = true) (hrest : StopsAt isFieldChar rest) (i : ℕ) :
    scanWordLike i 'g' ("et(".toList ++ rawPath ++ ')' :: ".data.".toList ++ (field ++ rest)) =
      .ok (.getCall (.ofList rawPath) (.ofList field), rest) := by
  have hexists : ('g' :: ("et(".toList ++ rawPath ++ ')' :: ".data.".toList ++
      (field ++ rest))).dropPrefix? "exists(".toList = none := by
    exact dropPrefix_head_ne (by decide)
  have hget : ('g' :: ("et(".toList ++ rawPath ++ ')' :: ".data.".toList ++
      (field ++ rest))).dropPrefix? "get(".toList =
      some (rawPath ++ ')' :: (".data.".toList ++ (field ++ rest))) := by
    rw [dropPrefix_eq_some_iff]
    simp
  have harg : scanCallArgument (i + 4) (rawPath ++ ')' :: (".data.".toList ++ (field ++ rest))) =
      .ok (.ofList rawPath, ".data.".toList ++ (field ++ rest)) :=
    scanCallArgument_eq_ok_iff.mpr (by simpa using h)
  have hdata : (".data.".toList ++ (field ++ rest)).dropPrefix? ".data.".toList =
      some (field ++ rest) := dropPrefix_eq_some_iff.mpr rfl
  simp only [scanWordLike, hexists, hget, scanGetCall, harg, bind, Except.bind, hdata,
    show (fun c : Char => c.isAlphanum || c == '_') = isFieldChar from rfl,
    takeWhile_of_stopsAt hfield hrest, dropWhile_of_stopsAt hfield hrest]
  rw [if_neg (by simpa using hne)]

theorem toNat_of_isIdentStart (h : isIdentStart c = true) :
    65 ≤ c.toNat ∧ c.toNat ≤ 122 := by
  simp only [isIdentStart, Char.isAlpha, Char.isUpper, Char.isLower, Bool.or_eq_true,
    Bool.and_eq_true, decide_eq_true_eq, beq_iff_eq, UInt32.le_iff_toNat_le, ge_iff_le] at h
  have hA : 'A'.val.toNat = 65 := rfl
  have hZ : 'Z'.val.toNat = 90 := rfl
  have ha : 'a'.val.toNat = 97 := rfl
  have hz : 'z'.val.toNat = 122 := rfl
  have hval : c.toNat = c.val.toNat := rfl
  rcases h with (⟨hl, hu⟩ | ⟨hl, hu⟩) | rfl
  · omega
  · omega
  · decide

theorem isDigit_of_isIdentStart (h : isIdentStart c = true) : c.isDigit = false := by
  obtain ⟨hl, -⟩ := toNat_of_isIdentStart h
  rw [Char.isDigit, Bool.and_eq_false_iff, decide_eq_false_iff_not, decide_eq_false_iff_not,
    ge_iff_le, UInt32.le_iff_toNat_le, UInt32.le_iff_toNat_le]
  have hnine : '9'.val.toNat = 57 := rfl
  have hval : c.toNat = c.val.toNat := rfl
  right
  omega

/-- Characters without a rule of their own are left to `scanWordLike`. -/
theorem scanToken_other (h : c ∉ ['(', ')', '[', ']', ',', '&', '|', '=', '!', '<', '>', '+', '-'])
    (hdigit : c.isDigit = false) (i : ℕ) (cs : List Char) :
    scanToken i c cs = scanWordLike i c cs := by
  rw [scanToken.eq_def]
  split
  case h_17 => rw [if_neg (by simp [hdigit])]
  all_goals simp at h

theorem scanToken_ident (h : isIdentStart c = true) (i : ℕ) (cs : List Char) :
    scanToken i c cs = scanWordLike i c cs := by
  refine scanToken_other (fun hmem => ?_) (isDigit_of_isIdentStart h) i cs
  simp only [mem_cons, not_mem_nil, or_false] at hmem
  rcases hmem with rfl | rfl | rfl | rfl | rfl | rfl | rfl | rfl | rfl | rfl | rfl | rfl | rfl <;>
    cases h

theorem scanWordLike_string {content : List Char} (h : '"' ∉ content) (i : ℕ) :
    scanWordLike i '"' (content ++ '"' :: rest) = .ok (.stringLiteral (.ofList content), rest) := by
  have hquoted : scanQuoted '"' (content ++ '"' :: rest) = some (.ofList content, rest) :=
    scanQuoted_eq_some_iff.mpr (by simpa using h)
  have hexists : ('"' :: (content ++ '"' :: rest)).dropPrefix? "exists(".toList = none :=
    dropPrefix_head_ne (by decide)
  have hget : ('"' :: (content ++ '"' :: rest)).dropPrefix? "get(".toList = none :=
    dropPrefix_head_ne (by decide)
  simp only [scanWordLike, hexists, hget, hquoted]
  rfl

theorem scanWordLike_unit {content : List Char} (h : '\x27' ∉ content) (i : ℕ) :
    scanWordLike i '\x27' (content ++ '\x27' :: rest) =
      .ok (.singleQuotedUnit (.ofList content), rest) := by
  have hquoted : scanQuoted '\x27' (content ++ '\x27' :: rest) = some (.ofList content, rest) :=
    scanQuoted_eq_some_iff.mpr (by simpa using h)
  have hexists : ('\x27' :: (content ++ '\x27' :: rest)).dropPrefix? "exists(".toList = none :=
    dropPrefix_head_ne (by decide)
  have hget : ('\x27' :: (content ++ '\x27' :: rest)).dropPrefix? "get(".toList = none :=
    dropPrefix_head_ne (by decide)
  simp only [scanWordLike, hexists, hget, hquoted]
  rfl

theorem scanToken_digit (h : c.isDigit = true) (i : ℕ) (cs : List Char) :
    scanToken i c cs = scanNumber false i (c :: cs) := by
  rw [scanToken.eq_def]
  split
  case h_17 => rw [if_pos h]
  all_goals cases h

theorem scanToken_minus (h : c.isDigit = true) (i : ℕ) (cs : List Char) :
    scanToken i '-' (c :: cs) = scanNumber true (i + 1) (c :: cs) := by
  rw [scanToken, if_pos (by simpa using h)]

/-- A number is read with its sign. -/
theorem scanToken_number {digits after : List Char} (hne : digits ≠ [])
    (hdigits : ∀ x ∈ digits, x.isDigit = true)
    (h : ∀ pos, scanNumber negative pos (digits ++ (after ++ rest)) = .ok (t, rest)) (i : ℕ) :
    ∃ c cs, signText negative ++ digits ++ after = c :: cs ∧
      scanToken i c (cs ++ rest) = .ok (t, rest) := by
  rcases digits with _ | ⟨d, ds⟩
  · exact absurd rfl hne
  have hd : d.isDigit = true := hdigits d mem_cons_self
  cases negative with
  | false =>
    refine ⟨d, ds ++ after, rfl, ?_⟩
    rw [scanToken_digit hd, append_assoc, ← cons_append, h]
  | true =>
    refine ⟨'-', d :: ds ++ after, rfl, ?_⟩
    rw [cons_append, cons_append, scanToken_minus hd, append_assoc,
      ← cons_append, h]

theorem scanToken_complete {text : List Char} (hspells : Spells text t) (hfollows : Follows t rest)
    (i : ℕ) :
    ∃ c cs, text = c :: cs ∧ scanToken i c (cs ++ rest) = .ok (t, rest) := by
  cases hspells with
  | symbol h =>
    cases t with
    | not | lt | gt =>
      cases h
      refine ⟨_, _, rfl, ?_⟩
      rw [nil_append, scanToken]
      rintro cs rfl
      cases hfollows '=' rfl
    | minus =>
      cases h
      refine ⟨_, _, rfl, ?_⟩
      rw [nil_append, scanToken, if_neg]
      rcases rest with _ | ⟨c, rest⟩
      · simp
      · simpa using hfollows c rfl
    | word _ | stringLiteral _ | intLiteral _ | doubleLiteral _ | singleQuotedUnit _
    | existsCall _ | getCall _ _ => cases h
    | _ =>
      cases h
      exact ⟨_, _, rfl, rfl⟩
  | @word c w hc hw =>
    exact ⟨c, w, rfl, (scanToken_ident hc i _).trans (scanWordLike_word hc hw hfollows i)⟩
  | @string content hnot =>
    refine ⟨'"', content ++ ['"'], rfl, ?_⟩
    rw [scanToken_other (by decide) (by decide), append_assoc, singleton_append]
    exact scanWordLike_string hnot i
  | @unit content hnot =>
    refine ⟨'\x27', content ++ ['\x27'], rfl, ?_⟩
    rw [scanToken_other (by decide) (by decide), append_assoc, singleton_append]
    exact scanWordLike_unit hnot i
  | @int negative digits value hne hdigits hvalue =>
    have hread : ∃ c cs, signText negative ++ digits ++ [] = c :: cs ∧
        scanToken i c (cs ++ rest) = .ok (.intLiteral value, rest) :=
      scanToken_number hne hdigits (fun pos => scanNumber_int pos hdigits hvalue hfollows) i
    rwa [append_nil] at hread
  | @double negative whole frac hne hwhole hne' hfrac =>
    refine scanToken_number hne hwhole (fun pos => ?_) i
    rw [cons_append]
    exact scanNumber_double pos hwhole hne' hfrac hfollows
  | @existsCall rawPath hclosed =>
    refine ⟨'e', "xists(".toList ++ rawPath ++ [')'], rfl, ?_⟩
    rw [scanToken_ident rfl, append_assoc, singleton_append]
    exact scanWordLike_existsCall hclosed i
  | @getCall rawPath field hclosed hne hfield =>
    refine ⟨'g', "et(".toList ++ rawPath ++ ')' :: ".data.".toList ++ field, rfl, ?_⟩
    rw [scanToken_ident rfl, append_assoc]
    exact scanWordLike_getCall hclosed hne hfield hfollows i

/-! ## Sources -/

/-- A source, as tokens with white space between them. -/
inductive Lexes : List Char → List Token → Prop
  | nil : Lexes [] []
  | blank {c : Char} {cs : List Char} {ts : List Token} : isWhitespace c = true → Lexes cs ts →
    Lexes (c :: cs) ts
  | token {text rest : List Char} {t : Token} {ts : List Token} : Spells text t → Follows t rest →
    Lexes rest ts → Lexes (text ++ rest) (t :: ts)

/-- The visible characters of ASCII are no white space. -/
theorem isWhitespace_of_visible (hl : 33 ≤ c.toNat) (hu : c.toNat ≤ 126) :
    isWhitespace c = false := by
  simp only [isWhitespace, Bool.or_eq_false_iff, Bool.and_eq_false_iff, decide_eq_false_iff_not,
    beq_eq_false_iff_ne]
  omega

theorem isWhitespace_of_isIdentStart (h : isIdentStart c = true) :
    isWhitespace c = false := by
  obtain ⟨hl, hu⟩ := toNat_of_isIdentStart h
  exact isWhitespace_of_visible (by omega) (by omega)

theorem isWhitespace_of_isDigit (h : c.isDigit = true) : isWhitespace c = false := by
  simp only [Char.isDigit, Bool.and_eq_true, decide_eq_true_eq, ge_iff_le,
    UInt32.le_iff_toNat_le] at h
  have hzero : '0'.val.toNat = 48 := rfl
  have hnine : '9'.val.toNat = 57 := rfl
  have hval : c.toNat = c.val.toNat := rfl
  exact isWhitespace_of_visible (by omega) (by omega)

theorem isIdentChar_of_isWhitespace (h : isWhitespace c = true) :
    isIdentChar c = false := by
  by_contra hident
  simp only [isIdentChar, Char.isAlphanum, Bool.not_eq_false, Bool.or_eq_true] at hident
  rcases hident with ((hc | hc) | hc) | hc
  · rw [isWhitespace_of_isIdentStart (by simp [isIdentStart, hc])] at h
    cases h
  · rw [isWhitespace_of_isDigit hc] at h
    cases h
  · rw [eq_of_beq hc] at h
    cases h
  · rw [eq_of_beq hc] at h
    cases h

/-- The first character of a token is visible, and no dot. -/
theorem Spells.head {text : List Char} (h : Spells text t) :
    ∃ c cs, text = c :: cs ∧ isWhitespace c = false ∧ c ≠ '.' := by
  have hdigit : ∀ {d : Char}, d.isDigit = true → isWhitespace d = false ∧ d ≠ '.' := by
    intro d hd
    refine ⟨isWhitespace_of_isDigit hd, ?_⟩
    rintro rfl
    cases hd
  cases h with
  | symbol h =>
    cases t <;> cases h <;> exact ⟨_, _, rfl, rfl, by decide⟩
  | @word c w hc _ =>
    refine ⟨c, w, rfl, isWhitespace_of_isIdentStart hc, ?_⟩
    rintro rfl
    cases hc
  | string _ | unit _ | existsCall _ | getCall _ _ _ => exact ⟨_, _, rfl, rfl, by decide⟩
  | @int negative digits _ hne hdigits _ =>
    rcases digits with _ | ⟨d, ds⟩
    · exact absurd rfl hne
    · cases negative
      · exact ⟨d, ds, rfl, hdigit (hdigits d mem_cons_self)⟩
      · exact ⟨'-', d :: ds, rfl, rfl, by decide⟩
  | @double negative whole frac hne hwhole _ _ =>
    rcases whole with _ | ⟨d, ds⟩
    · exact absurd rfl hne
    · cases negative
      · exact ⟨d, _, rfl, hdigit (hwhole d mem_cons_self)⟩
      · exact ⟨'-', _, rfl, rfl, by decide⟩

variable {ts : List Token}

theorem tokenizeLoop_sound {fuel : ℕ}
    (hfuel : cs.length ≤ fuel) (h : tokenizeLoop fuel i cs = .ok ts) : Lexes cs ts := by
  induction fuel generalizing i cs ts with
  | zero =>
    obtain rfl := length_eq_zero_iff.mp (Nat.le_zero.mp hfuel)
    rw [tokenizeLoop] at h
    cases h
    exact .nil
  | succ fuel ih =>
    rcases cs with _ | ⟨c, cs⟩
    · rw [tokenizeLoop] at h
      cases h
      exact .nil
    rw [length_cons] at hfuel
    rw [tokenizeLoop] at h
    split_ifs at h with hblank
    · exact .blank hblank (ih (by omega) h)
    obtain ⟨⟨t, rest⟩, htoken, hthen⟩ := bind_eq_ok h
    obtain ⟨ts', hts, hlast⟩ := bind_eq_ok hthen
    cases hlast
    obtain ⟨text, hcs, hspells, hfollows⟩ := scanToken_reads htoken
    obtain ⟨c', text', rfl, -, -⟩ := hspells.head
    have hlength := congrArg length hcs
    simp only [length_cons, length_append] at hlength
    rw [hcs]
    exact .token hspells hfollows (ih (by omega) hts)

theorem tokenizeLoop_complete (h : Lexes cs ts) {fuel : ℕ}
    (hfuel : cs.length ≤ fuel) (i : ℕ) : tokenizeLoop fuel i cs = .ok ts := by
  induction h generalizing fuel i with
  | nil => cases fuel <;> rfl
  | blank hblank _ ih =>
    rw [length_cons] at hfuel
    obtain ⟨n, rfl⟩ : ∃ n, fuel = n + 1 := Nat.exists_eq_add_one.mpr (by omega)
    rw [tokenizeLoop, if_pos hblank]
    exact ih (by omega) _
  | @token text rest t ts hspells hfollows _ ih =>
    obtain ⟨c, cs, hhead, hblank, -⟩ := hspells.head
    obtain ⟨c', cs', htext, hscan⟩ := scanToken_complete hspells hfollows i
    obtain ⟨rfl, rfl⟩ := cons.inj (hhead.symm.trans htext)
    subst hhead
    rw [cons_append, length_cons, length_append] at hfuel
    obtain ⟨n, rfl⟩ : ∃ n, fuel = n + 1 := Nat.exists_eq_add_one.mpr (by omega)
    rw [cons_append, tokenizeLoop, if_neg (by simp [hblank]), hscan]
    have hrest : tokenizeLoop n (i + ((cs ++ rest).length + 1 - rest.length)) rest = .ok ts :=
      ih (by omega) _
    simp only [bind, Except.bind, hrest]
    rfl

theorem Lexes.stopsAt_dot (h : Lexes cs ts) :
    StopsAt (· == '.') cs := by
  intro x hx
  rw [beq_eq_false_iff_ne]
  rintro rfl
  cases h with
  | nil => cases hx
  | blank hblank _ =>
    cases hx
    cases hblank
  | token hspells _ _ =>
    obtain ⟨c, cs, rfl, -, hdot⟩ := hspells.head
    exact hdot (Option.some.inj hx)

/-- **The tokenizer accepts a source exactly when it is tokens and white space.** -/
theorem tokenize_eq_ok_iff {source : String} :
    tokenize source = .ok ts ↔ Lexes source.toList ts :=
  ⟨tokenizeLoop_sound le_rfl, fun h => tokenizeLoop_complete h le_rfl 0⟩

end Embyr
