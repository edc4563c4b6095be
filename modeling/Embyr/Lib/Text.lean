import Mathlib

/-!
# Separated text

Splitting, joining and trimming of strings, in the words of Rust's `str`. Every
operation goes through the list of characters, so a proof about it is a proof
about lists: `split` and `join` are inverse to each other on parts that do not
contain the separator.
-/

namespace Text

open List

/-- `str::split(sep)`: the empty string has one empty part. -/
def split (sep : Char) (s : String) : List String :=
  (s.toList.splitOn sep).map String.ofList

/-- `[str]::join(sep)`. -/
def join (sep : Char) (parts : List String) : String :=
  String.ofList ([sep].intercalate (parts.map String.toList))

/-- `str::strip_prefix`. -/
def stripPrefix (p s : String) : Option String :=
  (s.toList.dropPrefix? p.toList).map String.ofList

/-- `str::strip_suffix`. -/
def stripSuffix (p s : String) : Option String :=
  (s.toList.dropSuffix? p.toList).map String.ofList

/-- `str::ends_with`. -/
def endsWith (p s : String) : Bool := p.toList.isSuffixOf s.toList

/-- `str::contains(char)`. -/
def containsChar (c : Char) (s : String) : Bool := s.toList.contains c

/-- `str::contains(str)`. -/
def containsStr (p s : String) : Bool := s.toList.tails.any p.toList.isPrefixOf

/-- `str::splitn(n, sep)`: at most `n` parts, the last one unsplit. -/
def splitn (n : ℕ) (sep : Char) (s : String) : List String :=
  match n with
  | 0 => []
  | n + 1 =>
    let parts := split sep s
    if parts.length ≤ n + 1 then parts else parts.take n ++ [join sep (parts.drop n)]

/-- `str::rsplit_once(sep)`: the text before and after the last separator. -/
def rsplitOnce (sep : Char) (s : String) : Option (String × String) :=
  match (split sep s).reverse with
  | last :: before :: rest => some (join sep (before :: rest).reverse, last)
  | _ => none

/-- The text after the first occurrence of `p` (`&s[s.find(p)? + p.len()..]`). -/
def afterFirst (p s : String) : Option String :=
  (s.toList.tails.find? p.toList.isPrefixOf).map fun tail =>
    String.ofList (tail.drop p.toList.length)

/-- The text before the first occurrence of `p`, all of it if there is none. -/
def beforeFirst (p s : String) : String :=
  match s.toList.tails.find? p.toList.isPrefixOf with
  | none => s
  | some tail => String.ofList (s.toList.take (s.toList.length - tail.length))

/-- `str::split(p).nth(1)`: the text between the first and the second occurrence. -/
def betweenFirstTwo (p s : String) : Option String := (afterFirst p s).map (beforeFirst p)

/-- `str::trim_start_matches(char)`. -/
def trimStart (c : Char) (s : String) : String := String.ofList (s.toList.dropWhile (· == c))

/-- `LIKE` on characters: `%` is any text, `_` any character, and a backslash quotes the
character after it. -/
def likeChars : List Char → List Char → Bool
  | [], s => s.isEmpty
  | '%' :: ps, s => s.tails.any (likeChars ps)
  | '_' :: ps, s =>
    match s with
    | [] => false
    | _ :: t => likeChars ps t
  | '\\' :: p :: ps, s | p :: ps, s =>
    match s with
    | [] => false
    | c :: t => c == p && likeChars ps t

/-- SQL's `LIKE`. -/
def like (pattern s : String) : Bool := likeChars pattern.toList s.toList

/-! ## Trimming -/

variable {s p : String}

theorem stripPrefix_eq_some_iff {rest : String} :
    stripPrefix p s = some rest ↔ s = p ++ rest := by
  unfold stripPrefix
  constructor
  · intro h
    obtain ⟨l, hl, rfl⟩ := Option.map_eq_some_iff.mp h
    obtain ⟨p', hs, hp⟩ := dropPrefix?_eq_some_iff.mp hl
    rw [beq_iff_eq] at hp
    subst hp
    rw [← String.toList_inj, String.toList_append, String.toList_ofList]
    exact hs
  · rintro rfl
    refine Option.map_eq_some_iff.mpr ⟨rest.toList, ?_, String.ofList_toList⟩
    exact dropPrefix?_eq_some_iff.mpr ⟨p.toList, by simp, by simp⟩

theorem stripSuffix_eq_some_iff {rest : String} :
    stripSuffix p s = some rest ↔ s = rest ++ p := by
  unfold stripSuffix
  constructor
  · intro h
    obtain ⟨l, hl, rfl⟩ := Option.map_eq_some_iff.mp h
    obtain ⟨p', hs, hp⟩ := dropSuffix?_eq_some_iff.mp hl
    rw [beq_iff_eq] at hp
    subst hp
    rw [← String.toList_inj, String.toList_append, String.toList_ofList]
    exact hs
  · rintro rfl
    refine Option.map_eq_some_iff.mpr ⟨rest.toList, ?_, String.ofList_toList⟩
    exact dropSuffix?_eq_some_iff.mpr ⟨p.toList, by simp, by simp⟩

/-! ## Splitting and joining -/

theorem split_ne_nil (sep : Char) (s : String) : split sep s ≠ [] := by
  simp [split, splitOn]

@[simp] theorem join_split (sep : Char) (s : String) : join sep (split sep s) = s := by
  simp [split, join, map_map, Function.comp_def, intercalate_splitOn]

variable {sep : Char} {parts : List String}

theorem split_join (hne : parts ≠ [])
    (hsep : ∀ p ∈ parts, sep ∉ p.toList) : split sep (join sep parts) = parts := by
  have hsep' : ∀ l ∈ parts.map String.toList, sep ∉ l := by
    intro l hl
    obtain ⟨p, hp, rfl⟩ := mem_map.mp hl
    exact hsep p hp
  rw [split, join, String.toList_ofList,
    splitOn_intercalate sep hsep' (by simpa using hne), map_map]
  simp [Function.comp_def]

theorem toList_join_cons (sep : Char) (p : String) (ps : List String) :
    ∃ rest, (join sep (p :: ps)).toList = p.toList ++ rest := by
  cases ps with
  | nil => exact ⟨[], by simp [join]⟩
  | cons q qs => exact ⟨sep :: (join sep (q :: qs)).toList, by simp [join, intercalate_cons_cons]⟩

variable {ps : List String}

theorem join_ne_empty (hp : p ≠ "") :
    join sep (p :: ps) ≠ "" := by
  intro h
  obtain ⟨rest, hrest⟩ := toList_join_cons sep p ps
  rw [h] at hrest
  have : p.toList = [] := (append_eq_nil_iff.mp hrest.symm).1
  exact hp (String.toList_eq_nil_iff.mp this)

/-- A joined path of non-empty parts does not start with the separator. -/
theorem stripPrefix_join_eq_none (hp : p ≠ "")
    (hsep : '/' ∉ p.toList) : stripPrefix "/" (join '/' (p :: ps)) = none := by
  rcases h : stripPrefix "/" (join '/' (p :: ps)) with _ | rest
  · rfl
  · exfalso
    rw [stripPrefix_eq_some_iff] at h
    obtain ⟨tail, htail⟩ := toList_join_cons '/' p ps
    rw [h, String.toList_append] at htail
    rcases hl : p.toList with _ | ⟨c, cs⟩
    · exact hp (String.toList_eq_nil_iff.mp hl)
    · rw [hl] at htail
      have hc : '/' = c := (cons.inj htail).1
      exact hsep (by rw [hl, hc]; exact mem_cons_self ..)

/-- No part of a text has the separator. -/
theorem not_mem_of_mem_split {part : String} (h : part ∈ split sep s) :
    sep ∉ part.toList := by
  have hparts : ∀ (l : List Char), ∀ p ∈ l.splitOn sep, sep ∉ p := by
    intro l
    induction l with
    | nil => simp [splitOn]
    | cons c l ih =>
      rw [splitOn, splitOnP_cons_eq_if_modifyHead]
      split
      · intro p hp
        rcases mem_cons.mp hp with rfl | hp
        · simp
        · exact ih p hp
      · rename_i hc
        obtain ⟨first, rest, hsplit⟩ :=
          exists_cons_of_ne_nil (show l.splitOnP (· == sep) ≠ [] by simp)
        rw [splitOn, hsplit] at ih
        rw [hsplit, modifyHead_cons]
        intro p hp
        rcases mem_cons.mp hp with rfl | hp
        · rw [mem_cons, not_or]
          exact ⟨fun hsep => hc (by simp [hsep]), ih first mem_cons_self⟩
        · exact ih p (mem_cons_of_mem _ hp)
  obtain ⟨p, hp, rfl⟩ := mem_map.mp h
  rw [String.toList_ofList]
  exact hparts _ p hp

/-- Text without the separator is one part. -/
theorem split_of_not_mem (h : sep ∉ s.toList) : split sep s = [s] := by
  have hsplit := split_join (cons_ne_nil s []) (by simpa using h)
  simpa [join] using hsplit

variable {last : String}

/-- There is no separator after the last one. -/
theorem not_mem_of_rsplitOnce {before : String}
    (h : rsplitOnce sep s = some (before, last)) : sep ∉ last.toList := by
  rw [rsplitOnce] at h
  split at h
  · rename_i part part' rest hparts
    obtain ⟨-, rfl⟩ := Prod.mk.inj (Option.some.inj h)
    refine not_mem_of_mem_split (show part ∈ split sep s from ?_)
    rw [← mem_reverse, hparts]
    exact mem_cons_self ..
  · cases h

/-- The parts before a separator, then those after it. -/
theorem split_append (before rest : String) :
    split '/' (before ++ "/" ++ rest) = split '/' before ++ split '/' rest := by
  have hcons : (before ++ "/" ++ rest).toList = before.toList ++ '/' :: rest.toList := by simp
  rw [split, hcons, splitOn, splitOnP_append_cons _ _ (by simp), map_append]
  simp [split, splitOn]

/-- A path with a separator has a last part. -/
theorem rsplitOnce_ne_none (before rest : String) : rsplitOnce '/' (before ++ "/" ++ rest) ≠ none := by
  rw [rsplitOnce, split_append, reverse_append]
  rcases hrest : (split '/' rest).reverse with _ | ⟨part, parts⟩
  · exact absurd (reverse_eq_nil_iff.mp hrest) (split_ne_nil '/' rest)
  · rcases hbefore : (split '/' before).reverse with _ | ⟨part', parts'⟩
    · exact absurd (reverse_eq_nil_iff.mp hbefore) (split_ne_nil '/' before)
    · rcases parts with _ | ⟨part'', parts''⟩ <;> exact nofun

/-- The last part of a path is found again. -/
theorem rsplitOnce_append {before : String} (h : '/' ∉ last.toList) :
    rsplitOnce '/' (before ++ "/" ++ last) = some (before, last) := by
  rw [rsplitOnce, split_append, split_of_not_mem h, reverse_append]
  rcases hparts : (split '/' before).reverse with _ | ⟨part, rest⟩
  · exact absurd (reverse_eq_nil_iff.mp hparts) (split_ne_nil '/' before)
  · have hbefore : (part :: rest).reverse = split '/' before := by
      rw [← hparts, reverse_reverse]
    simp only [reverse_singleton, singleton_append]
    rw [hbefore, join_split]

theorem join_singleton (sep : Char) (p : String) : join sep [p] = p := by
  simp [join]

theorem join_cons_cons (p q : String) (qs : List String) :
    join '/' (p :: q :: qs) = p ++ "/" ++ join '/' (q :: qs) := by
  rw [← String.toList_inj]
  simp [join, intercalate_cons_cons]

theorem join_append_singleton (hne : parts ≠ []) (last : String) :
    join '/' (parts ++ [last]) = join '/' parts ++ "/" ++ last := by
  induction parts with
  | nil => exact absurd rfl hne
  | cons p ps ih =>
    rcases ps with _ | ⟨q, qs⟩
    · rw [singleton_append, join_cons_cons, join_singleton, join_singleton]
    · rw [cons_append, cons_append, join_cons_cons, join_cons_cons, ← cons_append,
        ih (cons_ne_nil q qs)]
      simp only [String.append_assoc]

/-- Cutting the last part off a text gives `before` and `last` for one text only. -/
theorem cutLast_eq_iff {before : String} (hbefore : before ≠ "") (hlast : '/' ∉ last.toList) :
    (join '/' (split '/' s).dropLast = before ∧ (split '/' s).getLastD "" = last) ↔
      s = before ++ "/" ++ last := by
  constructor
  · rintro ⟨hb, hl⟩
    have hparts : (split '/' s).dropLast ++ [last] = split '/' s := by
      rw [← hl, getLastD_eq_getLast?, getLast?_eq_getLast_of_ne_nil (split_ne_nil '/' s)]
      exact dropLast_append_getLast (split_ne_nil '/' s)
    have hne : (split '/' s).dropLast ≠ [] := by
      intro hnil
      rw [hnil] at hb
      exact hbefore (hb.symm.trans (by simp [join]))
    rw [← join_split '/' s, ← hparts, join_append_singleton hne, hb]
  · rintro rfl
    rw [split_append, split_of_not_mem hlast]
    simp

/-! ## Searching a path for a segment

A pattern that starts with the separator can only be found where a segment starts, and one
that ends with it only where a whole segment is the text between. -/

section Search

variable {sep : Char} {pattern a b m : List Char}

/-- The search skips text without the pattern's first character. -/
theorem find_tails_append (ha : sep ∉ a) (rest : List Char) :
    (a ++ rest).tails.find? (sep :: pattern).isPrefixOf =
      rest.tails.find? (sep :: pattern).isPrefixOf := by
  induction a with
  | nil => rfl
  | cons c a ih =>
    rw [mem_cons, not_or] at ha
    rw [cons_append, tails_cons, find?_cons_of_neg, ih ha.2]
    simp [isPrefixOf, ha.1]

/-- No text without the separator has the pattern. -/
theorem find_tails_eq_none (ha : sep ∉ a) :
    a.tails.find? (sep :: pattern).isPrefixOf = none := by
  have hskip : (a ++ []).tails.find? (sep :: pattern).isPrefixOf = none := find_tails_append ha []
  rwa [append_nil] at hskip

/-- The pattern is found at the first separator or after it. -/
theorem find_tails_sep (ha : sep ∉ a) (rest : List Char) :
    (a ++ sep :: rest).tails.find? (sep :: pattern).isPrefixOf =
      if pattern <+: rest then some (sep :: rest)
      else rest.tails.find? (sep :: pattern).isPrefixOf := by
  rw [find_tails_append ha, tails_cons]
  split
  · rename_i h
    exact find?_cons_of_pos (by simpa [isPrefixOf] using h)
  · rename_i h
    exact find?_cons_of_neg (by simpa [isPrefixOf] using h)

/-- A pattern between two separators is a whole segment. -/
theorem append_sep_isPrefix (hm : sep ∉ m) (hb : sep ∉ b) (rest : List Char) :
    m ++ [sep] <+: b ++ sep :: rest ↔ m = b := by
  induction m generalizing b with
  | nil =>
    rcases b with _ | ⟨c, b⟩
    · simp
    · rw [mem_cons, not_or] at hb
      simp [hb.1]
  | cons x m ih =>
    rw [mem_cons, not_or] at hm
    rcases b with _ | ⟨c, b⟩
    · simp [Ne.symm hm.1]
    · rw [mem_cons, not_or] at hb
      simp [cons_prefix_cons, ih hm.2 hb.2]

/-- A pattern after a separator is the start of a segment. -/
theorem isPrefix_append_sep (hm : sep ∉ m) (rest : List Char) :
    m <+: b ++ sep :: rest ↔ m <+: b := by
  induction m generalizing b with
  | nil => simp
  | cons x m ih =>
    rw [mem_cons, not_or] at hm
    rcases b with _ | ⟨c, b⟩
    · simp [Ne.symm hm.1]
    · simp [cons_prefix_cons, ih hm.2]

end Search

section Segments

variable {m a b : String}

/-- Nothing is left of a pattern search in one segment. -/
theorem afterFirst_of_not_mem (ha : '/' ∉ a.toList) (p : String) :
    afterFirst ("/" ++ p) a = none := by
  have hnone : a.toList.tails.find? ('/' :: p.toList).isPrefixOf = none := find_tails_eq_none ha
  simp [afterFirst, hnone]

/-- The pattern is found after the first segment or behind it. -/
theorem afterFirst_append (ha : '/' ∉ a.toList) (p rest : String) :
    afterFirst ("/" ++ p) (a ++ "/" ++ rest) =
      if p.toList <+: rest.toList then some (String.ofList (rest.toList.drop p.toList.length))
      else afterFirst ("/" ++ p) rest := by
  have htext : (a ++ "/" ++ rest).toList = a.toList ++ '/' :: rest.toList := by simp
  have hpattern : ("/" ++ p).toList = '/' :: p.toList := by simp
  simp only [afterFirst, htext, hpattern, find_tails_sep ha]
  split <;> simp

/-- The text before the pattern, likewise. -/
theorem beforeFirst_append (ha : '/' ∉ a.toList) (p rest : String) :
    beforeFirst ("/" ++ p) (a ++ "/" ++ rest) =
      if p.toList <+: rest.toList then a else a ++ "/" ++ beforeFirst ("/" ++ p) rest := by
  have htext : (a ++ "/" ++ rest).toList = a.toList ++ '/' :: rest.toList := by simp
  have hpattern : ("/" ++ p).toList = '/' :: p.toList := by simp
  simp only [beforeFirst, htext, hpattern, find_tails_sep ha]
  split
  · rename_i tail hfind
    split at hfind
    · cases hfind
    · rename_i hno
      rw [if_neg hno, hfind]
  · rename_i tail hfind
    split at hfind
    · rename_i hyes
      cases hfind
      rw [if_pos hyes]
      simp
    · rename_i hno
      have hle : tail.length ≤ rest.toList.length :=
        ((mem_tails _ _).mp (mem_of_find?_eq_some hfind)).length_le
      have hlen : (a.toList ++ '/' :: rest.toList).length - tail.length =
          (a.toList ++ ['/']).length + (rest.toList.length - tail.length) := by
        simp only [length_append, length_cons, length_nil]
        omega
      have hsplit : a.toList ++ '/' :: rest.toList = (a.toList ++ ['/']) ++ rest.toList := by simp
      rw [if_neg hno, hfind, ← String.toList_inj, hlen, hsplit, take_length_add_append]
      simp

/-- Cutting a text at the pattern leaves it whole only where the pattern is not found. -/
theorem beforeFirst_eq_self_iff (hp : p ≠ "") :
    beforeFirst p s = s ↔ afterFirst p s = none := by
  rw [beforeFirst, afterFirst]
  rcases hfind : s.toList.tails.find? p.toList.isPrefixOf with _ | tail
  · simp
  · simp only [Option.map_some, reduceCtorEq, iff_false]
    intro heq
    have hlen := congrArg (fun t => t.toList.length) heq
    have hsuffix : tail <:+ s.toList := (mem_tails _ _).mp (mem_of_find?_eq_some hfind)
    have hprefix : p.toList <+: tail := isPrefixOf_iff_prefix.mp (find?_some hfind)
    have hpos : 0 < p.toList.length := by
      rw [length_pos_iff]
      exact fun h => hp (String.toList_eq_nil_iff.mp h)
    have := hsuffix.length_le
    have := hprefix.length_le
    simp only [String.toList_ofList, length_take] at hlen
    omega

/-- The last segment is not followed by the separator. -/
theorem afterFirst_last (ha : '/' ∉ a.toList) (hb : '/' ∉ b.toList) (m : String) :
    afterFirst ("/" ++ (m ++ "/")) (a ++ "/" ++ b) = none := by
  rw [afterFirst_append ha, if_neg, afterFirst_of_not_mem hb]
  intro hp
  exact hb (hp.subset (by simp))

variable (hm : '/' ∉ m.toList)
include hm

/-- A whole segment is searched for segment by segment. -/
theorem afterFirst_segment (ha : '/' ∉ a.toList) (hb : '/' ∉ b.toList) (rest : String) :
    afterFirst ("/" ++ (m ++ "/")) (a ++ "/" ++ (b ++ "/" ++ rest)) =
      if m = b then some rest else afterFirst ("/" ++ (m ++ "/")) (b ++ "/" ++ rest) := by
  have hiff : (m ++ "/").toList <+: (b ++ "/" ++ rest).toList ↔ m = b := by
    have := append_sep_isPrefix hm hb rest.toList
    simpa [String.toList_inj] using this
  rw [afterFirst_append ha]
  by_cases h : m = b
  · rw [if_pos (hiff.mpr h), if_pos h]
    subst h
    simp
  · rw [if_neg (fun hp => h (hiff.mp hp)), if_neg h]

/-- The text before a whole segment. -/
theorem beforeFirst_segment (ha : '/' ∉ a.toList) (hb : '/' ∉ b.toList) (rest : String) :
    beforeFirst ("/" ++ (m ++ "/")) (a ++ "/" ++ (b ++ "/" ++ rest)) =
      if m = b then a else a ++ "/" ++ beforeFirst ("/" ++ (m ++ "/")) (b ++ "/" ++ rest) := by
  have hiff : (m ++ "/").toList <+: (b ++ "/" ++ rest).toList ↔ m = b := by
    have := append_sep_isPrefix hm hb rest.toList
    simpa [String.toList_inj] using this
  rw [beforeFirst_append ha]
  simp only [hiff]

/-- A path has the segment between two others unless it is its first or its last. -/
theorem afterFirst_join_eq_none_iff {segments : List String}
    (hsegments : ∀ c ∈ segments, '/' ∉ c.toList) (hlast : '/' ∉ last.toList) :
    afterFirst ("/" ++ (m ++ "/")) (join '/' (segments ++ [last])) = none ↔
      m ∉ segments.tail := by
  induction segments with
  | nil => simpa [join] using afterFirst_of_not_mem hlast (m ++ "/")
  | cons c cs ih =>
    have hc := hsegments c mem_cons_self
    rcases cs with _ | ⟨d, ds⟩
    · rw [singleton_append, join_cons_cons, join_singleton, afterFirst_last hc hlast]
      simp
    · have hd := hsegments d (by simp)
      obtain ⟨e, es, hes⟩ := exists_cons_of_ne_nil (append_ne_nil_of_right_ne_nil ds
        (cons_ne_nil last []))
      have hrest : join '/' (d :: ds ++ [last]) = d ++ "/" ++ join '/' (e :: es) := by
        rw [cons_append, hes, join_cons_cons]
      have hjoin : join '/' (c :: d :: ds ++ [last]) =
          c ++ "/" ++ (d ++ "/" ++ join '/' (e :: es)) := by
        rw [← hrest]
        exact join_cons_cons ..
      have htail := ih (forall_mem_cons.mp hsegments).2
      rw [hrest] at htail
      rw [hjoin, afterFirst_segment hm hc hd]
      by_cases h : m = d
      · simp [h]
      · rw [if_neg h, htail]
        simp [h]

end Segments

end Text
