import Embyr.ConditionGrammar
import Embyr.UnsupportedScan
import Embyr.TemplateShape
import Embyr.Lib.Rounding

/-!
# Texts of tokens

One text for every token a source can have.

* `intText`, `doubleText` — literals in full, so that no digit is lost.
* `PathTemplate.text`, `normalizePath` — paths without empty segments.
* `Token.text`, `Token.canonical` — the text of a token, its path normalised.
* `Spells.canonical` — the tokens of a source are spelled by their texts.
* `scanFrom_canonical` — and these are to the scan for unsupported constructs what the source was.
-/

namespace Embyr

open Binary64 Token Text Double List

/-! ## Digits -/

/-- The last `k` decimal digits of `n`. -/
def paddedDigits : ℕ → ℕ → List Char
  | 0, _ => []
  | k + 1, n => paddedDigits k (n / 10) ++ [Nat.digitChar (n % 10)]

/-- The decimal digits of `n`. -/
def decimalDigits (n : ℕ) : List Char := paddedDigits (Nat.log 10 n + 1) n

theorem digitsValue_concat (digits : List Char) (c : Char) :
    digitsValue (digits ++ [c]) = digitsValue digits * 10 + (c.toNat - '0'.toNat) := by
  simp [digitsValue]

theorem digitsValue_append (digits digits' : List Char) :
    digitsValue (digits ++ digits') =
      digitsValue digits * 10 ^ digits'.length + digitsValue digits' := by
  induction digits' using reverseRecOn with
  | nil => simp [digitsValue]
  | append_singleton digits' c ih =>
    rw [← append_assoc, digitsValue_concat, ih, digitsValue_concat, length_append,
      length_singleton, pow_succ]
    ring

theorem digitChar_spec {d : ℕ} (h : d < 10) :
    (Nat.digitChar d).isDigit = true ∧ (Nat.digitChar d).toNat - '0'.toNat = d := by
  interval_cases d <;> decide

theorem digitsValue_paddedDigits (k n : ℕ) : digitsValue (paddedDigits k n) = n % 10 ^ k := by
  induction k generalizing n with
  | zero => simp [paddedDigits, digitsValue, Nat.mod_one]
  | succ k ih =>
    rw [paddedDigits, digitsValue_concat, ih, (digitChar_spec (Nat.mod_lt n (by norm_num))).2,
      pow_succ', Nat.mod_mul]
    ring

theorem isDigit_of_mem_paddedDigits {k n : ℕ} {c : Char} (h : c ∈ paddedDigits k n) :
    c.isDigit = true := by
  induction k generalizing n with
  | zero => cases h
  | succ k ih =>
    rcases mem_append.mp h with h | h
    · exact ih h
    · obtain rfl := mem_singleton.mp h
      exact (digitChar_spec (Nat.mod_lt n (by norm_num))).1

@[simp] theorem length_paddedDigits (k n : ℕ) : (paddedDigits k n).length = k := by
  induction k generalizing n with
  | zero => rfl
  | succ k ih => rw [paddedDigits, length_append, ih, length_singleton]

@[simp] theorem digitsValue_decimalDigits (n : ℕ) : digitsValue (decimalDigits n) = n := by
  rw [decimalDigits, digitsValue_paddedDigits]
  exact Nat.mod_eq_of_lt (Nat.lt_pow_succ_log_self (by norm_num) n)

theorem decimalDigits_ne_nil (n : ℕ) : decimalDigits n ≠ [] := by
  intro h
  have hlength := congrArg length h
  simp [decimalDigits] at hlength

/-! ## Numbers -/

def intText (i : Int64) : List Char :=
  signText (i.toInt < 0) ++ decimalDigits i.toInt.natAbs

theorem spells_int (i : Int64) : Spells (intText i) (.intLiteral i) := by
  refine .int (decimalDigits_ne_nil _) (fun x hx => isDigit_of_mem_paddedDigits hx) ?_
  have hle := i.le_toInt
  have hlt := i.toInt_lt
  have hvalue : (if decide (i.toInt < 0) = true then -(digitsValue (decimalDigits i.toInt.natAbs) : ℤ)
      else digitsValue (decimalDigits i.toInt.natAbs)) = i.toInt := by
    rw [digitsValue_decimalDigits]
    split_ifs with hneg
    · simp only [decide_eq_true_eq] at hneg
      omega
    · simp only [decide_eq_true_eq] at hneg
      omega
  rw [parseI64, hvalue, if_pos ⟨hle, hlt⟩, Int64.ofInt_toInt]

/-- A double in full: `2 ^ (-1074)` has 1074 decimals. Beyond the largest double every decimal is
read as the infinity. -/
def doubleText : Double → List Char
  | .nan => []
  | .inf negative => signText negative ++ decimalDigits (2 ^ 1024) ++ '.' :: paddedDigits 1 0
  | .fin negative magnitude =>
    signText negative ++ decimalDigits (magnitude.units * 5 ^ 1074 / 10 ^ 1074) ++
      '.' :: paddedDigits 1074 (magnitude.units * 5 ^ 1074)

theorem paddedDigits_ne_nil {k : ℕ} (hk : 0 < k) (n : ℕ) : paddedDigits k n ≠ [] := by
  intro h
  have hlength := congrArg length h
  rw [length_paddedDigits] at hlength
  exact hk.ne' hlength

/-- A decimal with `k` decimals. -/
theorem spells_decimal (negative : Bool) {k : ℕ} (hk : 0 < k) (whole n : ℕ) :
    Spells (signText negative ++ decimalDigits whole ++ '.' :: paddedDigits k n)
      (.doubleLiteral (.ofDecimal negative (whole * 10 ^ k + n % 10 ^ k) k)) := by
  have hvalue : digitsValue (decimalDigits whole ++ paddedDigits k n) =
      whole * 10 ^ k + n % 10 ^ k := by
    rw [digitsValue_append, length_paddedDigits, digitsValue_decimalDigits,
      digitsValue_paddedDigits]
  have hdouble : ofDecimal negative (whole * 10 ^ k + n % 10 ^ k) k =
      .ofDecimal negative (digitsValue (decimalDigits whole ++ paddedDigits k n))
        (paddedDigits k n).length := by
    rw [hvalue, length_paddedDigits]
  rw [hdouble]
  exact .double (decimalDigits_ne_nil whole) (fun x hx => isDigit_of_mem_paddedDigits hx)
    (paddedDigits_ne_nil hk n) (fun x hx => isDigit_of_mem_paddedDigits hx)

theorem ofDecimal_fin (negative : Bool) (magnitude : Magnitude) :
    ofDecimal negative (magnitude.units * 5 ^ 1074) 1074 = .fin negative magnitude := by
  have hnum : magnitude.units * 5 ^ 1074 * 2 ^ 1074 = magnitude.units * 10 ^ 1074 := by
    rw [Nat.mul_assoc, ← Nat.mul_pow]
  have hround : roundMagnitude (magnitude.units * 10 ^ 1074) (10 ^ 1074) = magnitude.units :=
    roundMagnitude_exact (Nat.pow_pos (by norm_num)) magnitude.representable
  rw [ofDecimal, hnum, roundScaled, dif_pos]
  · congr
  · rw [hround]
    exact magnitude.representable.1

theorem ofDecimal_inf (negative : Bool) {n : ℕ} (h : 2 ^ 2098 ≤ n * 2 ^ 1074) :
    ofDecimal negative (n * 10) 1 = .inf negative := by
  have hquot : n * 10 * 2 ^ 1074 / 10 ^ 1 = n * 2 ^ 1074 := by
    rw [Nat.mul_right_comm, pow_one, Nat.mul_div_cancel _ (by norm_num)]
  have hpos : n * 2 ^ 1074 ≠ 0 := (lt_of_lt_of_le (Nat.pow_pos (by norm_num)) h).ne'
  have hlog : 2098 ≤ Nat.log 2 (n * 10 * 2 ^ 1074 / 10 ^ 1) := by
    rw [hquot]
    exact (Nat.le_log_iff_pow_le (by norm_num) hpos).mpr h
  rw [ofDecimal, roundScaled, dif_neg]
  refine Nat.not_lt.mpr ((Nat.pow_le_pow_right (by norm_num) hlog).trans ?_)
  exact pow_le_roundMagnitude (by rw [hquot]; exact hpos)

theorem spells_inf (negative : Bool) {n : ℕ} (h : 2 ^ 2098 ≤ n * 2 ^ 1074) :
    Spells (signText negative ++ decimalDigits n ++ '.' :: paddedDigits 1 0)
      (.doubleLiteral (.inf negative)) := by
  have hspells := spells_decimal negative one_pos n 0
  rw [pow_one, Nat.zero_mod, Nat.add_zero, ofDecimal_inf negative h] at hspells
  exact hspells

theorem spells_double {d : Double} (h : d ≠ .nan) : Spells (doubleText d) (.doubleLiteral d) := by
  cases d with
  | nan => exact absurd rfl h
  | inf negative =>
    have hle : 2 ^ 2098 ≤ 2 ^ 1024 * 2 ^ 1074 := by rw [← pow_add]
    exact spells_inf negative hle
  | fin negative magnitude =>
    have hspells := spells_decimal negative (k := 1074) (by norm_num)
      (magnitude.units * 5 ^ 1074 / 10 ^ 1074) (magnitude.units * 5 ^ 1074)
    rw [Nat.div_add_mod', ofDecimal_fin] at hspells
    exact hspells

/-! ## Paths -/

def PathTemplateSegment.text : PathTemplateSegment → String
  | .literal s => s
  | .authUid => "$(request.auth.uid)"
  | .pathVariable name => "$(" ++ ("request.path." ++ name ++ ")")

def PathTemplate.text (template : PathTemplate) : String :=
  "/" ++ Text.join '/'
    ("databases" :: "$(database)" :: "documents" :: template.segments.map PathTemplateSegment.text)

/-- A path without its empty segments. -/
def normalizePath (rawPath : String) : String :=
  "/" ++ Text.join '/' ((Text.split '/' rawPath).filter (!·.isEmpty))

theorem parseTemplateSegment_text {raw : String} {segment : PathTemplateSegment}
    (h : parseTemplateSegment raw = .ok segment) : segment.text = raw := by
  rw [parseTemplateSegment] at h
  split at h
  · rename_i inner hinner
    obtain ⟨rest, hrest, hsuffix⟩ := Option.bind_eq_some_iff.mp hinner
    rw [stripPrefix_eq_some_iff] at hrest
    rw [stripSuffix_eq_some_iff] at hsuffix
    split_ifs at h with huid
    · cases h
      rw [hrest, hsuffix, huid]
      rfl
    · split at h
      · rename_i name hname
        split_ifs at h
        · cases h
        cases h
        rw [stripPrefix_eq_some_iff] at hname
        rw [hrest, hsuffix, hname]
        rfl
      · cases h
  · split_ifs at h
    · cases h
    · cases h
      rfl

theorem map_text_of_parsed {raws : List String} {segments : List PathTemplateSegment}
    (h : Forall₂ (fun raw segment => parseTemplateSegment raw = .ok segment) raws segments) :
    segments.map PathTemplateSegment.text = raws := by
  induction h with
  | nil => rfl
  | cons hsegment _ ih => rw [map_cons, parseTemplateSegment_text hsegment, ih]

theorem parsePathTemplate_text {rawPath : String} {template : PathTemplate}
    (h : parsePathTemplate rawPath = .ok template) : template.text = normalizePath rawPath := by
  rw [parsePathTemplate] at h
  split at h
  · rename_i raws hraws
    split_ifs at h
    · cases h
    obtain ⟨segments, hsegments, hlast⟩ := bind_eq_ok h
    cases hlast
    rw [PathTemplate.text, normalizePath, hraws, map_text_of_parsed (mapM_eq_ok_iff.mp hsegments)]
  · cases h

theorem filter_split_normalizePath (rawPath : String) :
    (split '/' (normalizePath rawPath)).filter (!·.isEmpty) =
      (split '/' rawPath).filter (!·.isEmpty) := by
  have hslash : ∀ s, split '/' ("/" ++ s) = "" :: split '/' s := by
    intro s
    have happend := split_append "" s
    rwa [String.empty_append, split_of_not_mem (s := "") (by simp)] at happend
  have hparts : ∀ part ∈ (split '/' rawPath).filter (!·.isEmpty),
      '/' ∉ part.toList ∧ (!part.isEmpty) = true := by
    intro part hpart
    obtain ⟨hmem, hne⟩ := mem_filter.mp hpart
    exact ⟨not_mem_of_mem_split hmem, hne⟩
  rw [normalizePath, hslash, filter_cons_of_neg (by simp)]
  generalize (split '/' rawPath).filter (!·.isEmpty) = parts at hparts
  rcases parts with _ | ⟨part, parts⟩
  · decide
  · rw [split_join (cons_ne_nil _ _) fun p hp => (hparts p hp).1]
    exact filter_eq_self.mpr fun p hp => (hparts p hp).2

theorem parsePathTemplate_normalizePath (rawPath : String) :
    parsePathTemplate (normalizePath rawPath) = parsePathTemplate rawPath := by
  rw [parsePathTemplate, parsePathTemplate, filter_split_normalizePath]

/-! ## Parentheses in paths -/

theorem closed_filter (d : ℕ) (cs : List Char) :
    Closed d (cs.filter (· != '/')) ↔ Closed d cs := by
  induction cs generalizing d with
  | nil => rfl
  | cons c cs ih =>
    by_cases hc : c = '/'
    · subst hc
      rw [filter_cons_of_neg (by simp), closed_cons, if_neg (by decide), if_neg (by decide), ih]
    · rw [filter_cons_of_pos (by simpa using hc), closed_cons, closed_cons, ih, ih, ih]

theorem filter_join (parts : List String) :
    (join '/' parts).toList.filter (· != '/') =
      parts.flatMap fun part => part.toList.filter (· != '/') := by
  induction parts with
  | nil => rfl
  | cons part parts ih =>
    rcases parts with _ | ⟨part', parts⟩
    · simp [join_singleton]
    · rw [join_cons_cons, String.toList_append, String.toList_append, filter_append,
        filter_append, ih, flatMap_cons]
      simp

/-- Only separators go. -/
theorem filter_normalizePath (rawPath : String) :
    (normalizePath rawPath).toList.filter (· != '/') = rawPath.toList.filter (· != '/') := by
  have hempty : ∀ parts : List String,
      ((parts.filter (!·.isEmpty)).flatMap fun part => part.toList.filter (· != '/')) =
        parts.flatMap fun part => part.toList.filter (· != '/') := by
    intro parts
    induction parts with
    | nil => rfl
    | cons part parts ih =>
      by_cases hpart : part.isEmpty = true
      · rw [filter_cons_of_neg (by simpa using hpart), ih, flatMap_cons,
          String.isEmpty_iff.mp hpart]
        simp
      · rw [filter_cons_of_pos (by simpa using hpart), flatMap_cons, ih,
          flatMap_cons]
  conv_rhs => rw [← join_split '/' rawPath, filter_join, ← hempty]
  rw [normalizePath, String.toList_append, filter_append, filter_join]
  simp

/-- Separators close nothing. -/
theorem closed_normalizePath (rawPath : String) (h : Closed 1 rawPath.toList) :
    Closed 1 (normalizePath rawPath).toList := by
  rw [← closed_filter] at h ⊢
  rwa [filter_normalizePath]

/-! ## Tokens -/

def Token.text : Token → List Char
  | .word w => w.toList
  | .stringLiteral s => '"' :: s.toList ++ ['"']
  | .singleQuotedUnit u => '\x27' :: u.toList ++ ['\x27']
  | .intLiteral i => intText i
  | .doubleLiteral d => doubleText d
  | .existsCall rawPath => "exists(".toList ++ rawPath.toList ++ [')']
  | .getCall rawPath field =>
    "get(".toList ++ rawPath.toList ++ ')' :: ".data.".toList ++ field.toList
  | t => t.symbol.getD []

/-- The token with its path normalised. -/
def Token.canonical : Token → Token
  | .existsCall rawPath => .existsCall (normalizePath rawPath)
  | .getCall rawPath field => .getCall (normalizePath rawPath) field
  | t => t

section Texts

@[simp] theorem Token.text_word (w : String) : (word w).text = w.toList := rfl

@[simp] theorem Token.text_string (s : String) :
    (stringLiteral s).text = '"' :: s.toList ++ ['"'] := rfl

@[simp] theorem Token.text_unit (u : String) :
    (singleQuotedUnit u).text = '\x27' :: u.toList ++ ['\x27'] := rfl

@[simp] theorem Token.text_existsCall (rawPath : String) :
    (existsCall rawPath).text = "exists(".toList ++ rawPath.toList ++ [')'] := rfl

@[simp] theorem Token.text_getCall (rawPath field : String) : (getCall rawPath field).text =
    "get(".toList ++ rawPath.toList ++ ')' :: ".data.".toList ++ field.toList := rfl

end Texts

theorem ofDecimal_ne_nan (negative : Bool) (digits scale : ℕ) :
    ofDecimal negative digits scale ≠ .nan := by
  rw [ofDecimal, roundScaled]
  split_ifs <;> simp

theorem spells_canonical_double {d : Double} (h : d ≠ .nan) :
    Spells (doubleLiteral d).canonical.text (doubleLiteral d).canonical :=
  spells_double h

theorem spells_canonical_existsCall {rawPath : List Char} (h : Closed 1 rawPath) :
    Spells (existsCall (.ofList rawPath)).canonical.text
      (existsCall (.ofList rawPath)).canonical := by
  have hnormal := closed_normalizePath (.ofList rawPath) (by rwa [String.toList_ofList])
  have hspells := Spells.existsCall hnormal
  rw [String.ofList_toList] at hspells
  exact hspells

theorem spells_canonical_getCall {rawPath field : List Char} (h : Closed 1 rawPath)
    (hne : field ≠ []) (hfield : ∀ x ∈ field, isFieldChar x = true) :
    Spells (getCall (.ofList rawPath) (.ofList field)).canonical.text
      (getCall (.ofList rawPath) (.ofList field)).canonical := by
  have hnormal := closed_normalizePath (.ofList rawPath) (by rwa [String.toList_ofList])
  have hspells := Spells.getCall hnormal hne hfield
  rw [String.ofList_toList] at hspells
  rw [canonical, text_getCall, String.toList_ofList (l := field)]
  exact hspells

/-- **The tokens of a source are spelled by their texts.** -/
theorem Spells.canonical {text : List Char} {t : Token} (h : Spells text t) :
    Spells t.canonical.text t.canonical := by
  cases h with
  | symbol h =>
    cases t <;> cases h <;> exact .symbol rfl
  | @word c w hc hw =>
    change Spells (Token.word (.ofList (c :: w))).text (.word (.ofList (c :: w)))
    rw [Token.text_word, String.toList_ofList]
    exact .word hc hw
  | @string content hnot =>
    change Spells (Token.stringLiteral (.ofList content)).text (.stringLiteral (.ofList content))
    rw [Token.text_string, String.toList_ofList]
    exact .string hnot
  | @unit content hnot =>
    change Spells (Token.singleQuotedUnit (.ofList content)).text
      (.singleQuotedUnit (.ofList content))
    rw [Token.text_unit, String.toList_ofList]
    exact .unit hnot
  | int _ _ _ => exact spells_int _
  | double _ _ _ _ => exact spells_canonical_double (ofDecimal_ne_nan _ _ _)
  | existsCall hclosed => exact spells_canonical_existsCall hclosed
  | getCall hclosed hne hfield => exact spells_canonical_getCall hclosed hne hfield

/-! ## The scan on texts -/

/-- Digits, signs and dots alone start nothing. -/
theorem scanFrom_number {inQuotes : Bool} {cs : List Char}
    (h : ∀ c ∈ cs, c.isDigit = true ∨ c = '.' ∨ c = '-') :
    scanFrom (.fresh inQuotes) cs = some (.fresh inQuotes) := by
  have hstep : ∀ c, c.isDigit = true ∨ c = '.' ∨ c = '-' →
      (ScanState.fresh inQuotes).step c = some (.fresh inQuotes) := by
    intro c hc
    have hstart : isIdentStart c = false := by
      by_contra hs
      rcases hc with hc | rfl | rfl
      · rw [isDigit_of_isIdentStart (by simpa using hs)] at hc
        cases hc
      · exact hs rfl
      · exact hs rfl
    have hne : c ≠ '"' ∧ c ≠ '\x7b' ∧ c ≠ '*' := by
      refine ⟨?_, ?_, ?_⟩ <;> rintro rfl <;> revert hc <;> decide
    cases inQuotes <;> simp [ScanState.step, ScanState.fresh, hne, hstart]
  induction cs with
  | nil => rfl
  | cons c cs ih =>
    rw [scanFrom_cons, hstep c (h c mem_cons_self), Option.bind_some]
    exact ih (forall_mem_cons.mp h).2

theorem resets_slash : Resets '/' := resets_of_ne rfl (by decide)

theorem resets_rParen : Resets ')' := resets_of_ne rfl (by decide)

theorem resets_blank : Resets ' ' := resets_of_ne rfl (by decide)

theorem scanFrom_join (inQuotes : Bool) (parts : List String) :
    (scanFrom (.fresh inQuotes) (join '/' parts).toList).map (·.inQuotes) =
      scanParts inQuotes (parts.map String.toList) := by
  rw [join, String.toList_ofList, scanFrom_intercalate resets_slash]

/-- Empty segments mean nothing to the scan. -/
theorem scanFrom_normalizePath (inQuotes : Bool) (rawPath : String) :
    (scanFrom (.fresh inQuotes) (normalizePath rawPath).toList).map (·.inQuotes) =
      (scanFrom (.fresh inQuotes) rawPath.toList).map (·.inQuotes) := by
  have hfilter : ((split '/' rawPath).filter (!·.isEmpty)).map String.toList =
      ((split '/' rawPath).map String.toList).filter (!·.isEmpty) := by
    rw [List.filter_map]
    congr 1
    refine List.filter_congr fun part _ => ?_
    have hempty : part.isEmpty = part.toList.isEmpty := by
      rw [Bool.eq_iff_iff, String.isEmpty_iff, List.isEmpty_iff, String.toList_eq_nil_iff]
    simp [hempty]
  have hslash : (normalizePath rawPath).toList =
      '/' :: (join '/' ((split '/' rawPath).filter (!·.isEmpty))).toList := by
    rw [normalizePath, String.toList_append]
    rfl
  conv_rhs => rw [← join_split '/' rawPath, scanFrom_join]
  rw [hslash, scanFrom_cons, resets_slash, Option.bind_some]
  change (scanFrom (.fresh inQuotes) _).map _ = _
  rw [scanFrom_join, hfilter, scanParts_filter]

/-- What follows a path sees of it only the quotes. -/
theorem scanFrom_call {name : List Char} (after : List Char) {inQuotes : Bool}
    (hname : scanFrom (.fresh inQuotes) name = some (.fresh inQuotes)) (rawPath : String) :
    scanFrom (.fresh inQuotes) (name ++ rawPath.toList ++ ')' :: after) =
      ((scanFrom (.fresh inQuotes) rawPath.toList).map (·.inQuotes)).bind fun inQuotes =>
        scanFrom (.fresh inQuotes) after := by
  rw [append_assoc, scanFrom_append, hname, Option.bind_some, scanFrom_append]
  rcases scanFrom (.fresh inQuotes) rawPath.toList with _ | s
  · rfl
  · rw [Option.bind_some, scanFrom_cons, resets_rParen s]
    rfl

theorem numeric_signText {negative : Bool} {c : Char} (h : c ∈ signText negative) :
    c.isDigit = true ∨ c = '.' ∨ c = '-' := by
  cases negative
  · cases h
  · exact .inr (.inr (mem_singleton.mp h))

theorem numeric_decimal {negative : Bool} {whole frac : List Char}
    (hwhole : ∀ x ∈ whole, x.isDigit = true) (hfrac : ∀ x ∈ frac, x.isDigit = true) :
    ∀ c ∈ signText negative ++ whole ++ '.' :: frac, c.isDigit = true ∨ c = '.' ∨ c = '-' := by
  intro c hc
  rcases mem_append.mp hc with hc | hc
  · rcases mem_append.mp hc with hc | hc
    · exact numeric_signText hc
    · exact .inl (hwhole c hc)
  · rcases mem_cons.mp hc with hc | hc
    · exact .inr (.inl hc)
    · exact .inl (hfrac c hc)

theorem numeric_int {negative : Bool} {digits : List Char}
    (hdigits : ∀ x ∈ digits, x.isDigit = true) :
    ∀ c ∈ signText negative ++ digits, c.isDigit = true ∨ c = '.' ∨ c = '-' := by
  intro c hc
  rcases mem_append.mp hc with hc | hc
  · exact numeric_signText hc
  · exact .inl (hdigits c hc)

theorem numeric_doubleText (d : Double) :
    ∀ c ∈ doubleText d, c.isDigit = true ∨ c = '.' ∨ c = '-' := by
  have hpadded : ∀ k n, ∀ x ∈ paddedDigits k n, x.isDigit = true := fun _ _ _ hx =>
    isDigit_of_mem_paddedDigits hx
  cases d with
  | nan => exact nofun
  | inf | fin => exact numeric_decimal (hpadded _ _) (hpadded _ _)

/-- **The scan finds the same in the text of a token and in its canonical text.** -/
theorem scanFrom_canonical {text : List Char} {t : Token} (h : Spells text t) (inQuotes : Bool) :
    (scanFrom (.fresh inQuotes) t.canonical.text).map (·.inQuotes) =
      (scanFrom (.fresh inQuotes) text).map (·.inQuotes) := by
  cases h with
  | symbol h =>
    cases t <;> cases h <;> rfl
  | @word c w _ _ =>
    have htext : (word (.ofList (c :: w))).canonical.text = c :: w := String.toList_ofList
    rw [htext]
  | @string content _ =>
    have htext : (stringLiteral (.ofList content)).canonical.text =
        '"' :: content ++ ['"'] := by
      change (stringLiteral (.ofList content)).text = _
      rw [text_string, String.toList_ofList]
    rw [htext]
  | @unit content _ =>
    have htext : (singleQuotedUnit (.ofList content)).canonical.text =
        '\x27' :: content ++ ['\x27'] := by
      change (singleQuotedUnit (.ofList content)).text = _
      rw [text_unit, String.toList_ofList]
    rw [htext]
  | @int negative digits i _ hdigits _ =>
    have htext : ∀ c ∈ (intLiteral i).canonical.text,
        c.isDigit = true ∨ c = '.' ∨ c = '-' :=
      numeric_int fun _ hx => isDigit_of_mem_paddedDigits hx
    rw [scanFrom_number htext, scanFrom_number (numeric_int hdigits)]
  | @double negative whole frac _ hwhole _ hfrac =>
    generalize ofDecimal negative (digitsValue (whole ++ frac)) frac.length = d
    have htext : ∀ c ∈ (doubleLiteral d).canonical.text,
        c.isDigit = true ∨ c = '.' ∨ c = '-' := numeric_doubleText d
    rw [scanFrom_number htext, scanFrom_number (numeric_decimal hwhole hfrac)]
  | @existsCall rawPath _ =>
    have hname : scanFrom (.fresh inQuotes) "exists(".toList = some (.fresh inQuotes) := by
      cases inQuotes <;> decide
    have hsource := scanFrom_call [] hname (.ofList rawPath)
    rw [String.toList_ofList (l := rawPath)] at hsource
    rw [canonical, text_existsCall, scanFrom_call [] hname, scanFrom_normalizePath,
      hsource, String.toList_ofList (l := rawPath)]
  | @getCall rawPath field _ _ _ =>
    have hname : scanFrom (.fresh inQuotes) "get(".toList = some (.fresh inQuotes) := by
      cases inQuotes <;> decide
    have hsource := scanFrom_call (".data.".toList ++ field) hname (.ofList rawPath)
    rw [String.toList_ofList (l := rawPath), ← cons_append, ← append_assoc] at hsource
    rw [canonical, text_getCall, String.toList_ofList (l := field), hsource,
      append_assoc, cons_append, scanFrom_call _ hname, scanFrom_normalizePath,
      String.toList_ofList (l := rawPath)]

end Embyr
