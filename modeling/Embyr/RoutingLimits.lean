import Embyr.RoutingExactness

/-!
# Where routing stops being exact

`RoutingExactness` shows that a path the router reads as it is (`ReadsPlain`) is routed
exactly. Here every other path is caught by a single imported pattern, a `Probe`:

* text no literal is read from is captured by a wildcard that stays unbound, or is not
  matched at all (`misroutable_of_capture`);
* text that looks like a capture is matched by any literal (`misroutable_of_decoy`);
* a path of `2^15` segments or more may lose a pattern to the comparison of counts
  (`misroutable_of_count`).

Together they make `ReadsPlain` the exact condition (`routesExactly_iff_readsPlain`).
-/

namespace Embyr

open PathSegment List

/-! ## Patterns that catch a path read otherwise -/

/-- The row of a recursive pattern without conditions. -/
def prefixRow (segs : List PathSegment) : PatternRow where
  collectionPathPattern := renderAncestorPattern segs
  ancestorSegmentCount := Int16.ofNat segs.length
  literalSkeleton := literalSkeleton segs
  leafVariable := none
  readCondition := none
  writeCondition := none
  isRecursive := true

variable {segs : List PathSegment}

theorem prefixRow_wellFormed (hshape : PatternShape segs) (heven : segs.length % 2 = 0) :
    (prefixRow segs).WellFormed ∧ (prefixRow segs).segments = segs :=
  PatternRow.wellFormed_of_render hshape rfl rfl rfl (by simp [prefixRow, heven])

theorem validateSegmentShape_concat {pathPattern : String} {i : ℕ}
    (hrec : ∀ s ∈ segs, s ≠ .recursiveWildcard) (hcol : CollectionsLiteral (i % 2 == 0) segs)
    (heven : (i + segs.length) % 2 = 0) :
    validateSegmentShape pathPattern i (segs ++ [.recursiveWildcard]) = .ok () := by
  induction segs generalizing i with
  | nil => exact if_pos (by simpa using heven)
  | cons s rest ih =>
    have hparity : ((i + 1) % 2 == 0) = !(i % 2 == 0) := by
      rcases Nat.mod_two_eq_zero_or_one i with hi | hi <;> simp [Nat.add_mod, hi]
    have ih' := @ih (i + 1) (forall_mem_cons.mp hrec).2
      (hparity ▸ hcol.2) (by rw [length_cons] at heven; omega)
    cases s with
    | literal t => exact ih'
    | wildcard name =>
      have hodd : ¬i % 2 = 0 := by
        intro hi
        obtain ⟨t, ht⟩ := hcol.1 (by simpa using hi)
        cases ht
      rw [cons_append, validateSegmentShape, if_neg hodd]
      exact ih'
    | recursiveWildcard => exact absurd rfl (hrec _ mem_cons_self)

theorem written_recursiveWildcard : recursiveWildcard.Written :=
  ⟨"**", "**", by decide, by rfl⟩

/-- Every pattern shape of even length can be imported as a recursive pattern, alone. -/
theorem imported_prefixRow (hshape : PatternShape segs)
    (heven : segs.length % 2 = 0) : Imported { RuleSet.empty with patterns := [prefixRow segs] } := by
  let block : MatchBlock :=
    { pathPattern := renderAncestorPattern segs
      segments := segs ++ [.recursiveWildcard]
      allowClauses := []
      nonempty := by simp
      written := by
        intro s hs
        rcases mem_append.mp hs with hs | hs
        · exact (hshape.written s hs).1
        · obtain rfl := mem_singleton.mp hs
          exact written_recursiveWildcard }
  have hdecompose : decomposeBlock block = .ok (.recursiveWildcardPattern
      ⟨renderAncestorPattern segs, UInt16.ofNat segs.length, literalSkeleton segs, none, none⟩) := by
    have hvalid : validateSegmentShape block.pathPattern 0 block.segments = .ok () :=
      validateSegmentShape_concat (fun s hs => (hshape.written s hs).2) hshape.collections
        (by simpa using heven)
    unfold decomposeBlock
    rw [hvalid]
    simp only [bind, Except.bind, block, getLast?_concat, if_true, dropLast_concat]
    rfl
  have hparse : parseRecursivePrefix (renderAncestorPattern segs) = some segs := by
    obtain ⟨hwf, hsegs⟩ := prefixRow_wellFormed hshape heven
    have hparses := hwf.parses
    rw [hsegs] at hparses
    exact hparses
  refine Imported.step Imported.empty (show importRulesFile RuleSet.empty [block] = _ from ?_)
  unfold importRulesFile decompose decomposeAll decomposeAll
  rw [hdecompose]
  have hcheck : checkPatternOverlap RuleSet.empty.patterns [.recursiveWildcardPattern
      ⟨renderAncestorPattern segs, UInt16.ofNat segs.length, literalSkeleton segs, none, none⟩] =
      some none := by
    simp [checkPatternOverlap, multiSegmentPatterns, recursivePatterns, hparse, fixedOverlap,
      recursiveOverlap, mixedOverlap, storedRecursiveOverlap, pairsOf, RuleSet.empty,
      findSomeM?]
  simp only [nil_append, isEmpty_nil, if_true, hcheck]
  rfl

variable {collections : List String} {documentId : String}

/-- The router over one recursive pattern. -/
theorem resolve_prefixRow (hpath : ConcretePath collections) (hcapture : "\x7b\x7d" ∉ collections)
    (hshape : PatternShape segs) (heven : segs.length % 2 = 0) {answer : Option Route}
    (h : resolveAccessRulePattern [prefixRow segs] (Text.join '/' collections) (some documentId) =
      .ok answer) :
    (¬CountAllows collections segs.length ∧ answer = none) ∨
      (CountAllows collections segs.length ∧
        answer = (prefixRow segs).bindRecursive (readPath collections documentId)) := by
  obtain ⟨hwf, hsegs⟩ := prefixRow_wellFormed hshape heven
  have hread := parsePathSegments_concrete hpath.1 hpath.2 hcapture
  have hparse := hwf.parsePrefix_eq rfl
  unfold resolveAccessRulePattern at h
  have hfixed : listAccessRulePatternsBySkeleton [prefixRow segs]
      (Int16.ofNat (collections.map readSegment).length)
      (literalSkeleton (collections.map readSegment)) = [] := by
    simp [listAccessRulePatternsBySkeleton, prefixRow]
  simp only [hread, hfixed, matchAncestors, bind, Except.bind] at h
  have hlen : (collections.map readSegment ++ [literal documentId]).length =
      collections.length + 1 := by simp
  rw [hlen] at h
  by_cases hcount : CountAllows collections segs.length
  · refine .inr ⟨hcount, ?_⟩
    have hcand : listRecursiveAccessRulePatternsUpTo [prefixRow segs]
        (Int16.ofNat (collections.length + 1)) = [prefixRow segs] := by
      refine filter_eq_self.mpr fun r hr => ?_
      obtain rfl := mem_singleton.mp hr
      rw [Bool.and_eq_true, decide_eq_true_eq]
      exact ⟨rfl, hcount⟩
    rw [hcand, matchPrefixes, hparse, hsegs] at h
    unfold PatternRow.bindRecursive readPath
    rw [hsegs]
    rcases hbind : bindRecursivePrefix segs
        (collections.map readSegment ++ [.literal documentId]) with _ | ⟨bindings, remainder⟩
    · simp only [hbind, matchPrefixes] at h
      rw [hbind]
      exact (Except.ok.inj h).symm
    · simp only [hbind, matchPrefixes] at h
      rw [hbind]
      exact (Except.ok.inj h).symm
  · refine .inl ⟨hcount, ?_⟩
    have hcand : listRecursiveAccessRulePatternsUpTo [prefixRow segs]
        (Int16.ofNat (collections.length + 1)) = [] := by
      refine filter_eq_nil_iff.mpr fun r hr => ?_
      obtain rfl := mem_singleton.mp hr
      rw [Bool.and_eq_true, decide_eq_true_eq, not_and]
      exact fun _ => hcount
    rw [hcand] at h
    exact (Except.ok.inj h).symm

/-- Literal texts, then at most one wildcard for the document id. -/
structure Probe where
  texts : List String
  tail : List PathSegment
  written : ∀ t ∈ texts, (PathSegment.literal t).Written
  tail_eq : tail = [] ∨ (tail = [.wildcard "x"] ∧ texts.length % 2 = 1)

/-- The pattern a probe writes. -/
def Probe.segments (p : Probe) : List PathSegment := p.texts.map .literal ++ p.tail

variable {even : Bool} {texts : List String} {tail : List PathSegment}

theorem collectionsLiteral_append
    (h : CollectionsLiteral (even ^^ decide (texts.length % 2 = 1)) tail) :
    CollectionsLiteral even (texts.map .literal ++ tail) := by
  induction texts generalizing even with
  | nil => simpa using h
  | cons t ts ih =>
    refine ⟨fun _ => ⟨t, rfl⟩, ih ?_⟩
    have hparity : ((!even) ^^ decide (ts.length % 2 = 1)) =
        (even ^^ decide ((t :: ts).length % 2 = 1)) := by
      rw [length_cons]
      rcases Nat.mod_two_eq_zero_or_one ts.length with hts | hts <;>
        cases even <;> simp [Nat.add_mod, hts]
    rw [hparity]
    exact h

theorem Probe.shape (p : Probe) : PatternShape p.segments := by
  have hwild : (wildcard "x").Written :=
    ⟨"\x7bx\x7d", "\x7bx\x7d", by decide, by rfl⟩
  refine ⟨fun s hs => ?_, collectionsLiteral_append ?_⟩
  · rcases mem_append.mp hs with hs | hs
    · obtain ⟨t, ht, rfl⟩ := mem_map.mp hs
      exact ⟨p.written t ht, by simp⟩
    · rcases p.tail_eq with htail | ⟨htail, -⟩
      · rw [htail] at hs
        cases hs
      · rw [htail] at hs
        obtain rfl := mem_singleton.mp hs
        exact ⟨hwild, by simp⟩
  · rcases p.tail_eq with htail | ⟨htail, hodd⟩
    · rw [htail]
      trivial
    · rw [htail]
      simp [CollectionsLiteral, hodd]

variable {p : Probe}

theorem Probe.getElem?_wildcard {i : ℕ} {name : String}
    (h : p.segments[i]? = some (.wildcard name)) : i = p.texts.length := by
  unfold Probe.segments at h
  rcases lt_or_ge i p.texts.length with hlt | hge
  · rw [List.getElem?_append_left (by simpa using hlt), List.getElem?_map] at h
    obtain ⟨t, -, ht⟩ := Option.map_eq_some_iff.mp h
    cases ht
  · rw [List.getElem?_append_right (by simpa using hge), List.length_map] at h
    obtain ⟨hlt, -⟩ := List.getElem?_eq_some_iff.mp h
    have hle : p.tail.length ≤ 1 := by
      rcases p.tail_eq with htail | ⟨htail, -⟩ <;> simp [htail]
    omega

/-- A probe has at most one wildcard, so its names agree. -/
theorem Probe.namesAgree (p : Probe) (texts : List String) : NamesAgree p.segments texts := by
  intro i j name hi hj
  rw [Probe.getElem?_wildcard hi, Probe.getElem?_wildcard hj]

theorem coversPrefix_literal_append (texts rest : List String) (tail : List PathSegment) :
    coversPrefix (texts.map .literal ++ tail) (texts ++ rest) = coversPrefix tail rest := by
  induction texts with
  | nil => rfl
  | cons t ts ih => simpa [coversPrefix, covers] using ih

/-- What binding leaves under a name comes from a literal under a wildcard of that
name. -/
theorem bindSegments_sound {bindings bindings' : StrMap String}
    {pattern concrete : List PathSegment}
    (h : bindSegments bindings pattern concrete = some bindings') {name text : String}
    (hname : bindings'[name]? = some text) :
    bindings[name]? = some text ∨ ∃ i : ℕ, pattern[i]? = some (.wildcard name) ∧
      concrete[i]? = some (.literal text) := by
  induction pattern generalizing bindings concrete with
  | nil =>
    cases concrete <;> (obtain rfl := Option.some.inj h; exact .inl hname)
  | cons p ps ih =>
    cases concrete with
    | nil =>
      cases h
      exact .inl hname
    | cons c cs =>
      rw [bindSegments] at h
      split_ifs at h with hp
      rcases ih h with hb | ⟨i, hi, hc⟩
      · unfold bindPosition at hb
        split at hb
        · rename_i n v
          by_cases hn : n = name
          · subst hn
            rw [Std.ExtTreeMap.getElem?_insert_self] at hb
            cases hb
            exact .inr ⟨0, rfl, rfl⟩
          · rw [Std.ExtTreeMap.getElem?_insert, if_neg (by simpa using hn)] at hb
            exact .inl hb
        · exact .inl hb
      · exact .inr ⟨i + 1, by simpa using hi, by simpa using hc⟩

/-! ## Necessity -/

/-- The rules with one probe in them. -/
def Probe.rules (p : Probe) : RuleSet := { RuleSet.empty with patterns := [prefixRow p.segments] }

theorem Probe.segments_row (heven : p.segments.length % 2 = 0) :
    (prefixRow p.segments).segments = p.segments :=
  (prefixRow_wellFormed p.shape heven).2

theorem Probe.matchesDocument_eq (heven : p.segments.length % 2 = 0) (collections : List String)
    (documentId : String) :
    (prefixRow p.segments).matchesDocument collections documentId =
      coversPrefix p.segments (collections ++ [documentId]) := by
  unfold PatternRow.matchesDocument
  rw [Probe.segments_row heven]
  rfl

theorem Probe.governingNamesAgree (heven : p.segments.length % 2 = 0) (collections : List String)
    (documentId : String) :
    GoverningNamesAgree p.rules.patterns collections documentId := by
  rintro row ⟨hmem, -⟩
  obtain rfl := mem_singleton.mp hmem
  rw [Probe.segments_row heven]
  exact p.namesAgree _

/-- A probe that covers the document is misrouted, if its count is held against it or
its wildcard stands over text that is not read as a literal. -/
theorem Probe.misrouted_of_covers (hpath : ConcretePath collections)
    (hcapture : "\x7b\x7d" ∉ collections) (heven : p.segments.length % 2 = 0)
    (hcovers : coversPrefix p.segments (collections ++ [documentId]) = true)
    (hbad : ¬CountAllows collections p.segments.length ∨ (p.tail = [.wildcard "x"] ∧
      ∃ t, collections[p.texts.length]? = some t ∧ readSegment t ≠ .literal t)) :
    ¬RoutesExactly p.rules.patterns collections documentId := by
  rintro ⟨answer, hresolve, hexact⟩
  have hanswer := resolve_prefixRow hpath hcapture p.shape heven hresolve
  rcases answer with _ | ⟨row, bindings⟩
  · -- nothing is returned, yet the probe matches
    have hmatch := hexact (prefixRow p.segments) (List.mem_singleton_self _)
    rw [Probe.matchesDocument_eq heven, hcovers] at hmatch
    cases hmatch
  · rcases hanswer with ⟨-, hnone⟩ | ⟨hcount, hbind⟩
    · cases hnone
    obtain hcount' | ⟨htail, t, ht, hread⟩ := hbad
    · exact hcount' hcount
    -- the wildcard over `t` ought to be bound to `t`, but only literals are bound
    obtain ⟨⟨b, remainder⟩, hb, hrow⟩ := Option.map_eq_some_iff.mp hbind.symm
    cases hrow
    have hbinds := hexact.2
    rw [Probe.segments_row heven] at hb hbinds
    unfold bindRecursivePrefix at hb
    split_ifs at hb
    obtain ⟨b', hb', heq⟩ := Option.map_eq_some_iff.mp hb
    obtain ⟨rfl, -⟩ := Prod.mk.inj heq
    have hlt : p.texts.length < collections.length := (List.getElem?_eq_some_iff.mp ht).1
    have hwild : p.segments[p.texts.length]? = some (.wildcard "x") := by
      unfold Probe.segments
      rw [List.getElem?_append_right (by simp), htail]
      simp
    have hbound : b'["x"]? = some t := by
      refine (hbinds "x" t).mpr ⟨p.texts.length, hwild, ?_⟩
      rw [List.getElem?_append_left hlt]
      exact ht
    rcases bindSegments_sound hb' hbound with hempty | ⟨i, hi, hc⟩
    · simp at hempty
    · obtain rfl := Probe.getElem?_wildcard hi
      unfold readPath at hc
      rw [List.getElem?_append_left (by simpa using hlt), List.getElem?_map, ht] at hc
      exact hread (Option.some.inj hc)

/-- A probe the router lets through, though it does not cover the document, is
misrouted. -/
theorem Probe.misrouted_of_bind (hpath : ConcretePath collections)
    (hcapture : "\x7b\x7d" ∉ collections) (heven : p.segments.length % 2 = 0)
    (hcount : CountAllows collections p.segments.length)
    (hbind : (prefixRow p.segments).bindRecursive (readPath collections documentId) ≠ none)
    (hcovers : coversPrefix p.segments (collections ++ [documentId]) = false) :
    ¬RoutesExactly p.rules.patterns collections documentId := by
  rintro ⟨answer, hresolve, hexact⟩
  rcases resolve_prefixRow hpath hcapture p.shape heven hresolve with ⟨hno, -⟩ | ⟨-, hanswer⟩
  · exact hno hcount
  · rcases answer with _ | ⟨row, bindings⟩
    · exact hbind hanswer.symm
    · obtain ⟨⟨hmem, hmatch, -⟩, -⟩ := hexact
      obtain rfl := mem_singleton.mp hmem
      rw [Probe.matchesDocument_eq heven, hcovers] at hmatch
      cases hmatch

/-- The first text of a list that is not read as a literal. -/
theorem exists_first_not_literal (h : ¬∀ t ∈ texts, readSegment t = .literal t) :
    ∃ pre t post, texts = pre ++ t :: post ∧ (∀ u ∈ pre, readSegment u = .literal u) ∧
      readSegment t ≠ .literal t := by
  induction texts with
  | nil => exact absurd (by simp) h
  | cons t ts ih =>
    by_cases ht : readSegment t = .literal t
    · obtain ⟨pre, u, post, rfl, hpre, hu⟩ := ih fun hall => h fun x hx => by
        rcases mem_cons.mp hx with rfl | hx
        · exact ht
        · exact hall x hx
      refine ⟨t :: pre, u, post, rfl, fun x hx => ?_, hu⟩
      rcases mem_cons.mp hx with rfl | hx
      · exact ht
      · exact hpre x hx
    · exact ⟨[], t, ts, rfl, by simp, ht⟩

/-- A text in place of one the router does not read as a literal. -/
def decoy (t : String) : String := if readSegment t = .literal t then t else "a"

variable {t : String}

theorem written_decoy (ht : t ≠ "" ∧ '/' ∉ t.toList) (hcapture : t ≠ "\x7b\x7d") :
    (literal (decoy t)).Written := by
  unfold decoy
  split_ifs with hread
  · rw [← hread]
    exact written_readSegment ht.1 ht.2 hcapture
  · exact ⟨"a", "a", by decide, by rfl⟩

/-- The router cannot tell a decoy from the text it stands for. -/
theorem bindSegments_decoy {bindings : StrMap String} {rest : List PathSegment}
    (h : ∀ t ∈ texts, readSegment t ≠ .recursiveWildcard) :
    bindSegments bindings ((texts.map decoy).map .literal ++ tail)
      (texts.map readSegment ++ rest) = bindSegments bindings tail rest := by
  induction texts with
  | nil => rfl
  | cons t ts ih =>
    have hcompat : positionsCompatible (.literal (decoy t)) (readSegment t) = true := by
      have hrec := h t mem_cons_self
      unfold decoy
      split_ifs with hread
      · rw [hread]
        simp [positionsCompatible]
      · rcases hs : readSegment t with u | name | _
        · rw [eq_of_readSegment_literal hs] at hs
          exact absurd hs hread
        · rfl
        · exact absurd hs hrec
    have hkeep : bindPosition bindings (.literal (decoy t)) (readSegment t) = bindings := by
      cases readSegment t <;> rfl
    simp only [map_cons, cons_append, bindSegments, hcompat, if_true, hkeep]
    exact ih (forall_mem_cons.mp h).2

/-- Decoys cover only texts that are read as literals. -/
theorem literal_of_coversPrefix_decoy {rest : List String}
    (h : coversPrefix ((texts.map decoy).map .literal ++ tail) (texts ++ rest) = true) :
    ∀ t ∈ texts, readSegment t = .literal t := by
  induction texts with
  | nil => simp
  | cons t ts ih =>
    simp only [map_cons, cons_append, coversPrefix, Bool.and_eq_true,
      covers, decide_eq_true_eq] at h
    intro x hx
    rcases mem_cons.mp hx with rfl | hx
    · have hx := h.1
      unfold decoy at hx
      split_ifs at hx with hread
      · exact hread
      · rw [← hx]
        rfl
    · exact ih h.2 x hx

theorem collectionsLiteral_map_readSegment (h : ∀ t ∈ texts, readSegment t = .literal t) :
    CollectionsLiteral even (texts.map readSegment) := by
  induction texts generalizing even with
  | nil => trivial
  | cons t ts ih =>
    exact ⟨fun _ => ⟨t, h t mem_cons_self⟩,
      ih (forall_mem_cons.mp h).2⟩

theorem even_length_of_not_literal {pre post : List String}
    (hcol : CollectionsLiteral even ((pre ++ t :: post).map readSegment))
    (hread : readSegment t ≠ .literal t) : (even ^^ decide (pre.length % 2 = 1)) = false := by
  induction pre generalizing even with
  | nil =>
    rw [← Bool.not_eq_true]
    intro heven
    obtain ⟨u, hu⟩ := hcol.1 (by simpa using heven)
    rw [eq_of_readSegment_literal hu] at hu
    exact hread hu
  | cons u pre ih =>
    have hrest := ih hcol.2
    rw [← hrest, length_cons]
    rcases Nat.mod_two_eq_zero_or_one pre.length with hpre | hpre <;>
      cases even <;> simp [Nat.add_mod, hpre]

/-- What a prefix of length `c` has after the collection path: a wildcard for the
document id, if it gets there. -/
def documentTail (collections : List String) (c : ℕ) : List PathSegment :=
  if c ≤ collections.length then [] else [.wildcard "x"]

theorem documentTail_eq {c : ℕ} (hc : c ≤ collections.length + 1) (heven : c % 2 = 0)
    (htexts : texts.length = (collections.take c).length) :
    (documentTail collections c = [] ∨
      (documentTail collections c = [.wildcard "x"] ∧ texts.length % 2 = 1)) ∧
      texts.length + (documentTail collections c).length = c := by
  rw [length_take] at htexts
  unfold documentTail
  split_ifs with hle
  · exact ⟨.inl rfl, by rw [length_nil]; omega⟩
  · exact ⟨.inr ⟨rfl, by omega⟩, by rw [length_singleton]; omega⟩

theorem coversPrefix_documentTail (collections : List String) (documentId : String) (c : ℕ) :
    coversPrefix (documentTail collections c) (collections.drop c ++ [documentId]) = true := by
  unfold documentTail
  split_ifs with hle
  · rfl
  · rw [drop_of_length_le (Nat.le_of_not_le hle)]
    rfl

theorem bindSegments_documentTail (collections : List String) (documentId : String) (c : ℕ) :
    bindSegments ∅ (documentTail collections c)
      ((collections.drop c).map readSegment ++ [.literal documentId]) ≠ none := by
  unfold documentTail
  split_ifs with hle
  · cases (collections.drop c).map readSegment ++ [literal documentId] <;>
      simp [bindSegments]
  · rw [drop_of_length_le (Nat.le_of_not_le hle)]
    simp [bindSegments, positionsCompatible]

section Necessity

variable {collections : List String} (documentId : String) {c : ℕ}
  (hpath : ConcretePath collections) (hcapture : "\x7b\x7d" ∉ collections)
  (hc : c ≤ collections.length + 1) (heven : c % 2 = 0)

/-- Some imported rules are misrouted on the document. -/
def Misroutable (collections : List String) (documentId : String) : Prop :=
  ∃ rules, Imported rules ∧ GoverningNamesAgree rules.patterns collections documentId ∧
    ¬RoutesExactly rules.patterns collections documentId

include hpath hcapture

theorem written_of_readSegment (ht : t ∈ collections)
    (hread : readSegment t = .literal t) : (literal t).Written := by
  rw [← hread]
  exact written_readSegment (hpath.2 t ht).1 (hpath.2 t ht).2 fun heq => hcapture (heq ▸ ht)

include hc heven

/-- A pattern of the path's own texts, which the count comparison drops. -/
theorem misroutable_of_count (hliteral : ReadLiterally collections c)
    (hcount : ¬CountAllows collections c) : Misroutable collections documentId := by
  have htail := documentTail_eq hc heven (Eq.refl (collections.take c).length)
  let p : Probe :=
    { texts := collections.take c
      tail := documentTail collections c
      written := fun t ht =>
        written_of_readSegment hpath hcapture (mem_of_mem_take ht) (hliteral t ht)
      tail_eq := htail.1 }
  have hlen : p.segments.length = c := by
    simpa [Probe.segments, p] using htail.2
  have hcovers : coversPrefix p.segments (collections ++ [documentId]) = true := by
    conv_lhs => rw [← take_append_drop c collections, append_assoc]
    exact (coversPrefix_literal_append _ _ _).trans
      (coversPrefix_documentTail collections documentId c)
  refine ⟨p.rules, imported_prefixRow p.shape (hlen ▸ heven),
    Probe.governingNamesAgree (hlen ▸ heven) _ _,
    Probe.misrouted_of_covers hpath hcapture (hlen ▸ heven) hcovers (.inl ?_)⟩
  rw [hlen]
  exact hcount

/-- A pattern of decoys, which the router cannot tell from the path. -/
theorem misroutable_of_decoy (hreach : Reachable collections c)
    (hnot : ¬Coverable collections c) : Misroutable collections documentId := by
  have hmap : ((collections.take c).map decoy).length = (collections.take c).length :=
    length_map ..
  have htail := documentTail_eq hc heven hmap
  let p : Probe :=
    { texts := (collections.take c).map decoy
      tail := documentTail collections c
      written := fun u hu => by
        obtain ⟨t, ht, rfl⟩ := mem_map.mp hu
        have ht' := mem_of_mem_take ht
        exact written_decoy (hpath.2 t ht') fun heq => hcapture (heq ▸ ht')
      tail_eq := htail.1 }
  have hlen : p.segments.length = c := by
    simpa [Probe.segments, p] using htail.2
  have hcovers : coversPrefix p.segments (collections ++ [documentId]) = false := by
    rw [← Bool.not_eq_true]
    conv => rw [← take_append_drop c collections, append_assoc]
    intro hcovers
    exact hnot (collectionsLiteral_map_readSegment (literal_of_coversPrefix_decoy hcovers))
  have hread : readPath collections documentId = (collections.take c).map readSegment ++
      ((collections.drop c).map readSegment ++ [.literal documentId]) := by
    unfold readPath
    rw [← append_assoc, ← map_append, take_append_drop]
  have hbind : bindSegments ∅ p.segments (readPath collections documentId) ≠ none := by
    rw [hread]
    refine ne_of_eq_of_ne (bindSegments_decoy fun t ht heq => ?_)
      (bindSegments_documentTail collections documentId c)
    exact hreach.1 (heq ▸ mem_map_of_mem ht)
  have hlong : ¬(readPath collections documentId).length < p.segments.length := by
    rw [hlen]
    simpa [readPath] using hc
  refine ⟨p.rules, imported_prefixRow p.shape (hlen ▸ heven),
    Probe.governingNamesAgree (hlen ▸ heven) _ _,
    Probe.misrouted_of_bind hpath hcapture (hlen ▸ heven) (hlen.symm ▸ hreach.2) ?_ hcovers⟩
  rw [PatternRow.bindRecursive, Probe.segments_row (hlen ▸ heven), bindRecursivePrefix,
    if_neg hlong]
  simpa using hbind

omit hc heven

/-- A pattern that captures the first text not read as a literal. -/
theorem misroutable_of_capture (hcoverable : Coverable collections c)
    (hnot : ¬ReadLiterally collections c) : Misroutable collections documentId := by
  obtain ⟨pre, t, post, htake, hpre, hread⟩ := exists_first_not_literal hnot
  have hodd : pre.length % 2 = 1 := by
    unfold Coverable at hcoverable
    rw [htake] at hcoverable
    simpa using even_length_of_not_literal hcoverable hread
  have hcollections : collections = pre ++ t :: (post ++ collections.drop c) := by
    rw [← cons_append, ← append_assoc, ← htake, take_append_drop]
  let p : Probe :=
    { texts := pre
      tail := [.wildcard "x"]
      written := fun u hu => written_of_readSegment hpath hcapture
        (hcollections ▸ mem_append_left _ hu) (hpre u hu)
      tail_eq := .inr ⟨rfl, hodd⟩ }
  have hlen : p.segments.length % 2 = 0 := by
    simp only [Probe.segments, p, length_append, length_map, length_singleton]
    omega
  have hcovers : coversPrefix p.segments (collections ++ [documentId]) = true := by
    rw [hcollections, append_assoc]
    exact coversPrefix_literal_append _ _ _
  have hget : collections[p.texts.length]? = some t := by
    rw [hcollections, getElem?_append_right le_rfl]
    simp
  exact ⟨p.rules, imported_prefixRow p.shape hlen, Probe.governingNamesAgree hlen _ _,
    Probe.misrouted_of_covers hpath hcapture hlen hcovers (.inr ⟨rfl, t, hget, hread⟩)⟩

omit hcapture

/-- On every path not read as it is, some imported rules are misrouted. -/
theorem misroutable_of_not_readsPlain (hnot : ¬ReadsPlain collections) :
    Misroutable collections documentId := by
  by_cases hcapture : "\x7b\x7d" ∈ collections
  · -- the router fails on the path itself, whatever is stored
    refine ⟨RuleSet.empty, Imported.empty, ?_, ?_⟩
    · rintro row ⟨hmem, -⟩
      cases hmem
    · rintro ⟨answer, hresolve, -⟩
      obtain ⟨e, he⟩ := parsePathSegments_capture hpath.2 hcapture
      unfold resolveAccessRulePattern at hresolve
      rw [he] at hresolve
      cases hresolve
  · by_contra hroutable
    refine hnot ⟨hcapture, fun c hc heven hcase => ?_⟩
    by_cases hcoverable : Coverable collections c
    · have hliteral : ReadLiterally collections c := by
        by_contra hliteral
        exact hroutable (misroutable_of_capture documentId hpath hcapture hcoverable hliteral)
      refine ⟨hliteral, ?_⟩
      by_contra hcount
      exact hroutable (misroutable_of_count documentId hpath hcapture hc heven hliteral hcount)
    · exact absurd (misroutable_of_decoy documentId hpath hcapture hc heven
        (hcase.resolve_left hcoverable) hcoverable) hroutable

end Necessity

/-- Routing is exact, up to names the governing pattern repeats, over every imported
set of patterns iff the path is read as it is. -/
theorem routesExactly_iff_readsPlain (collections : List String) (documentId : String)
    (hpath : ConcretePath collections) :
    (∀ rules, Imported rules → (RoutesExactly rules.patterns collections documentId ↔
      GoverningNamesAgree rules.patterns collections documentId)) ↔ ReadsPlain collections := by
  constructor
  · intro hexact
    by_contra hnot
    obtain ⟨rules, himported, hagree, hmisrouted⟩ :=
      misroutable_of_not_readsPlain documentId hpath hnot
    exact hmisrouted ((hexact rules himported).mpr hagree)
  · intro hplain rules himported
    exact routesExactly_iff_namesAgree himported.unambiguous hpath hplain

theorem routesExactly_iff_readsPlain_users :
    ConcretePath ["users"] ∧ ∀ rules, Imported rules →
      (RoutesExactly rules.patterns ["users"] "ann" ↔
        GoverningNamesAgree rules.patterns ["users"] "ann") := by
  have hpath : ConcretePath ["users"] := ⟨by simp, by simp⟩
  refine ⟨hpath, (routesExactly_iff_readsPlain ["users"] "ann" hpath).mpr ?_⟩
  refine readsPlain_of_literal (fun t ht => ?_) (by decide)
  obtain rfl := mem_singleton.mp ht
  rfl

/-- The block `match /rooms/vip/msgs/{m}`, without clauses. -/
def vipBlock : MatchBlock where
  pathPattern := "/rooms/vip/msgs/\x7bm\x7d"
  segments := [.literal "rooms", .literal "vip", .literal "msgs", .wildcard "m"]
  allowClauses := []
  nonempty := by simp
  written := by
    intro s hs
    simp only [List.mem_cons, List.not_mem_nil, or_false] at hs
    rcases hs with rfl | rfl | rfl | rfl
    · exact ⟨"", "rooms", by decide, rfl⟩
    · exact ⟨"", "vip", by decide, rfl⟩
    · exact ⟨"", "msgs", by decide, rfl⟩
    · exact ⟨"", "\x7bm\x7d", by decide, rfl⟩

/-- A client that names its room `{me}` is routed to the pattern for the room `vip`. -/
theorem resolve_vip_of_capture_text : ∃ rules row,
    importRulesFile RuleSet.empty [vipBlock] = .imported rules ∧
      resolveAccessRulePattern rules.patterns "rooms/\x7bme\x7d/msgs" (some "hello") =
        .ok (some (row, ∅)) ∧
      ∀ r ∈ rules.patterns,
        r.matchesDocument ["rooms", "\x7bme\x7d", "msgs"] "hello" = false :=
  ⟨_, _, rfl, rfl, by decide⟩

end Embyr
