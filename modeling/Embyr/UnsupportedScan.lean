import Embyr.ConditionLexer

/-!
# The scan for unsupported constructs

`detect_unsupported_construct` blanks out what stands between double quotes and then looks for
wildcards and calls, in three passes. Here it is one pass with a state.

* `ScanState`, `ScanState.step`, `scanFrom` — the pass.
* `detectUnsupportedConstruct_eq_none_iff` — it finds nothing exactly when the pass gets through.
* `Resets`, `scanParts`, `scanFrom_intercalate` — a text cut at characters that end every construct
  is scanned part by part; only the quotes matter from one part to the next.
-/

namespace Embyr

open List

/-! ## One pass -/

/-- Where the scan stands: inside quotes or not, the identifier being read, and whether the last
character was a star. -/
structure ScanState where
  inQuotes : Bool
  ident : Option (List Char)
  star : Bool
  deriving DecidableEq

/-- Nothing is being read. -/
def ScanState.fresh (inQuotes : Bool) : ScanState := ⟨inQuotes, none, false⟩

/-- The calls the grammar knows. -/
def knownCalls : List String := ["duration.value", "get", "exists"]

/-- One character; `none` is a finding. -/
def ScanState.step (s : ScanState) (c : Char) : Option ScanState :=
  if c = '"' then some (.fresh !s.inQuotes)
  else if s.inQuotes then some (.fresh true)
  else if c = '\x7b' then none
  else if c = '*' then (if s.star then none else some ⟨false, none, true⟩)
  else
    match s.ident with
    | some word =>
      if isIdentChar c then some ⟨false, some (word ++ [c]), false⟩
      else if c = '(' ∧ String.ofList word ∉ knownCalls then none
      else some (.fresh false)
    | none => some ⟨false, if isIdentStart c then some [c] else none, false⟩

/-- A whole text. -/
def scanFrom (s : ScanState) : List Char → Option ScanState
  | [] => some s
  | c :: cs => (s.step c).bind fun s => scanFrom s cs

@[simp] theorem scanFrom_nil (s : ScanState) : scanFrom s [] = some s := rfl

theorem scanFrom_cons (s : ScanState) (c : Char) (cs : List Char) :
    scanFrom s (c :: cs) = (s.step c).bind fun s => scanFrom s cs := rfl

theorem scanFrom_append (s : ScanState) (cs cs' : List Char) :
    scanFrom s (cs ++ cs') = (scanFrom s cs).bind fun s => scanFrom s cs' := by
  induction cs generalizing s with
  | nil => rfl
  | cons c cs ih =>
    rw [cons_append, scanFrom_cons, scanFrom_cons, Option.bind_assoc]
    exact congrArg _ (funext fun s => ih s)

/-! ## The three passes of the source -/

/-- Two stars in a row, the first of them perhaps already read. -/
def hasStars (star : Bool) (cs : List Char) : Bool :=
  (if star then '*' :: cs else cs).tails.any "**".toList.isPrefixOf

theorem hasStars_cons (star : Bool) (c : Char) (cs : List Char) :
    hasStars star (c :: cs) = (star && c == '*' || hasStars (c == '*') cs) := by
  have htails : ∀ c cs, (c :: cs).tails.any "**".toList.isPrefixOf =
      (('*' == c && ['*'].isPrefixOf cs) || cs.tails.any "**".toList.isPrefixOf) := by
    intro c cs
    rw [tails_cons, any_cons]
    rfl
  rw [hasStars, hasStars]
  by_cases hc : c = '*'
  · subst hc
    cases star
    · rfl
    · rw [if_pos rfl, htails]
      simp [isPrefixOf]
  · have hc' : ('*' == c) = false := beq_eq_false_iff_ne.mpr (Ne.symm hc)
    have hc'' : (c == '*') = false := beq_eq_false_iff_ne.mpr hc
    cases star <;> simp [hc', hc'', isPrefixOf]

/-- Quoted characters, and the quotes, count as blanks. -/
theorem maskQuoted_quoted {inQuotes : Bool} {c : Char} (h : c = '"' ∨ inQuotes = true)
    (cs : List Char) :
    maskQuoted inQuotes (c :: cs) = ' ' :: maskQuoted (inQuotes ^^ (c == '"')) cs := by
  by_cases hc : c = '"'
  · subst hc
    simp [maskQuoted]
  · have hc' : (c == '"') = false := beq_eq_false_iff_ne.mpr hc
    simp [maskQuoted, hc, hc', h.resolve_left hc]

theorem maskQuoted_plain {c : Char} (h : c ≠ '"') (cs : List Char) :
    maskQuoted false (c :: cs) = c :: maskQuoted false cs := by
  simp [maskQuoted, h]

theorem findCustomCall_blank (ident : Option (List Char)) (cs : List Char) :
    findCustomCall ident (' ' :: cs) = findCustomCall none cs := by
  cases ident <;> rfl

theorem findCustomCall_star (ident : Option (List Char)) (cs : List Char) :
    findCustomCall ident ('*' :: cs) = findCustomCall none cs := by
  cases ident <;> rfl

theorem findCustomCall_some (word : List Char) (c : Char) (cs : List Char) :
    findCustomCall (some word) (c :: cs) =
      if isIdentChar c then findCustomCall (some (word ++ [c])) cs
      else if c = '(' ∧ String.ofList word ∉ knownCalls then some (String.ofList word)
      else findCustomCall none cs := rfl

/-- What the three passes say of the text that is left, after the state's own past. -/
def Passes (s : ScanState) (cs : List Char) : Prop :=
  '\x7b' ∉ maskQuoted s.inQuotes cs ∧ hasStars s.star (maskQuoted s.inQuotes cs) = false ∧
    findCustomCall s.ident (maskQuoted s.inQuotes cs) = none

theorem passes_quoted {s : ScanState} {c : Char} (h : c = '"' ∨ s.inQuotes = true)
    (cs : List Char) : Passes s (c :: cs) ↔ Passes (.fresh (s.inQuotes ^^ (c == '"'))) cs := by
  rw [Passes, maskQuoted_quoted h, hasStars_cons, findCustomCall_blank]
  simp [Passes, ScanState.fresh]

theorem scanFrom_isSome_iff (s : ScanState) (cs : List Char) :
    (scanFrom s cs).isSome ↔ Passes s cs := by
  induction cs generalizing s with
  | nil =>
    rcases s with ⟨_, ident, star⟩
    cases ident <;> cases star <;> simp [Passes, maskQuoted, findCustomCall, hasStars]
  | cons c cs ih =>
    rw [scanFrom_cons, ScanState.step]
    by_cases hquote : c = '"'
    · rw [if_pos hquote, Option.bind_some, ih, passes_quoted (.inl hquote)]
      simp [hquote]
    rw [if_neg hquote]
    by_cases hin : s.inQuotes = true
    · have hquote' : (c == '"') = false := beq_eq_false_iff_ne.mpr hquote
      rw [if_pos hin, Option.bind_some, ih, passes_quoted (.inr hin), hquote', hin, Bool.xor_false]
    have hmask : maskQuoted s.inQuotes (c :: cs) = c :: maskQuoted false cs := by
      rw [Bool.not_eq_true] at hin
      rw [hin, maskQuoted_plain hquote]
    rw [if_neg hin, Passes, hmask, hasStars_cons, mem_cons, not_or]
    by_cases hbrace : c = '\x7b'
    · simp [hbrace]
    rw [if_neg hbrace]
    by_cases hstar : c = '*'
    · subst hstar
      rw [if_pos rfl, findCustomCall_star]
      cases hs : s.star <;> simp [ih, Passes]
    have hstar' : (c == '*') = false := beq_eq_false_iff_ne.mpr hstar
    rw [if_neg hstar, hstar']
    rcases s.ident with _ | word
    · rw [Option.bind_some, ih]
      simp [Passes, findCustomCall, Ne.symm hbrace]
    · simp only [findCustomCall_some]
      split_ifs with hident hcall
      · simp [ih, Passes, Ne.symm hbrace]
      · simp
      · simp [ih, Passes, ScanState.fresh, Ne.symm hbrace]

/-- **Nothing is detected exactly when the pass gets through.** -/
theorem detectUnsupportedConstruct_eq_none_iff {source : String} :
    detectUnsupportedConstruct source = none ↔
      (scanFrom (.fresh false) source.toList).isSome := by
  have hstars : hasStars false (maskQuoted false source.toList) =
      Text.containsStr "**" (String.ofList (maskQuoted false source.toList)) := by
    rw [Text.containsStr, String.toList_ofList]
    rfl
  rw [scanFrom_isSome_iff, Passes, detectUnsupportedConstruct]
  simp only [ScanState.fresh, hstars]
  split_ifs with hwild
  · simp only [false_iff]
    rintro ⟨hbrace, hstar, -⟩
    simp [hbrace, hstar] at hwild
  · rw [Option.map_eq_none_iff]
    simp only [Bool.or_eq_true, not_or, Bool.not_eq_true, contains_eq_mem,
      decide_eq_false_iff_not] at hwild
    simp [hwild]

/-! ## Part by part -/

/-- A text that does not go on with an identifier may as well be scanned from the start. -/
theorem ScanState.step_fresh {s s' : ScanState} {c : Char} (h : s.step c = some s')
    (hident : s.inQuotes = false → s.ident ≠ none → isIdentChar c = false) :
    (ScanState.fresh s.inQuotes).step c = some s' := by
  rcases s with ⟨inQuotes, ident, star⟩
  by_cases hquote : c = '"'
  · simpa [ScanState.step, ScanState.fresh, hquote] using h
  cases inQuotes with
  | true => simpa [ScanState.step, ScanState.fresh, hquote] using h
  | false =>
    by_cases hbrace : c = '\x7b'
    · simp [ScanState.step, hbrace] at h
    by_cases hstar : c = '*'
    · cases star
      · simpa [ScanState.step, ScanState.fresh, hstar] using h
      · simp [ScanState.step, hstar] at h
    rcases ident with _ | word
    · simpa [ScanState.step, ScanState.fresh, hquote, hbrace, hstar] using h
    · have hc : isIdentChar c = false := hident rfl (by simp)
      simp only [ScanState.step, hquote, hbrace, hstar, hc, if_false, Bool.false_eq_true] at h
      split_ifs at h
      have hstart : isIdentStart c = false := isIdentStart_of_not_isIdentChar hc
      simpa [ScanState.step, ScanState.fresh, hquote, hbrace, hstar, hstart] using h

theorem ScanState.step_ident {s s' : ScanState} {c : Char} (h : s.step c = some s')
    (hc : isIdentChar c = false) : s'.ident = none := by
  have hstart : isIdentStart c = false := isIdentStart_of_not_isIdentChar hc
  rcases s with ⟨inQuotes, ident, star⟩
  cases ident <;> simp only [ScanState.step, hc, hstart, Bool.false_eq_true, if_false] at h <;>
    split_ifs at h <;>
    · cases h
      rfl

theorem scanFrom_fresh {s s' : ScanState} {text : List Char} (hne : text ≠ [])
    (h : scanFrom s text = some s')
    (hident : s.inQuotes = false → s.ident ≠ none → StopsAt isIdentChar text) :
    scanFrom (.fresh s.inQuotes) text = some s' := by
  rcases text with _ | ⟨c, cs⟩
  · exact absurd rfl hne
  rw [scanFrom_cons] at h ⊢
  obtain ⟨s₁, hstep, hrest⟩ := Option.bind_eq_some_iff.mp h
  rw [ScanState.step_fresh hstep fun hin hsome => hident hin hsome c rfl]
  exact hrest

/-- `c` ends whatever is being read. -/
def Resets (c : Char) : Prop := ∀ s : ScanState, s.step c = some (.fresh s.inQuotes)

theorem resets_of_ne {c : Char} (hident : isIdentChar c = false)
    (h : c ∉ ['"', '\x7b', '*', '(']) : Resets c := by
  have hstart : isIdentStart c = false := isIdentStart_of_not_isIdentChar hident
  simp only [mem_cons, not_mem_nil, or_false, not_or] at h
  rintro ⟨inQuotes, ident, star⟩
  cases inQuotes <;> cases ident <;>
    simp [ScanState.step, ScanState.fresh, h, hident, hstart]

/-- The parts of a text, each from the start; only the quotes are carried on. -/
def scanParts (inQuotes : Bool) : List (List Char) → Option Bool
  | [] => some inQuotes
  | part :: parts => (scanFrom (.fresh inQuotes) part).bind fun s => scanParts s.inQuotes parts

theorem scanFrom_intercalate {sep : Char} (hsep : Resets sep) (inQuotes : Bool)
    (parts : List (List Char)) :
    (scanFrom (.fresh inQuotes) ([sep].intercalate parts)).map (·.inQuotes) =
      scanParts inQuotes parts := by
  induction parts generalizing inQuotes with
  | nil => rfl
  | cons part parts ih =>
    rcases parts with _ | ⟨part', parts⟩
    · rw [intercalate_singleton, scanParts]
      rcases scanFrom (.fresh inQuotes) part with _ | s <;> rfl
    · rw [intercalate_cons_cons, scanParts, append_assoc, scanFrom_append]
      rcases scanFrom (.fresh inQuotes) part with _ | s
      · rfl
      · rw [Option.bind_some, Option.bind_some, singleton_append, scanFrom_cons, hsep s,
          Option.bind_some, ih]

/-- Empty parts change nothing. -/
theorem scanParts_filter (inQuotes : Bool) (parts : List (List Char)) :
    scanParts inQuotes (parts.filter (!·.isEmpty)) = scanParts inQuotes parts := by
  induction parts generalizing inQuotes with
  | nil => rfl
  | cons part parts ih =>
    rcases part with _ | ⟨c, cs⟩
    · exact ih inQuotes
    · rw [filter_cons_of_pos (by rfl), scanParts, scanParts]
      exact congrArg _ (funext fun s => ih s.inQuotes)

end Embyr
