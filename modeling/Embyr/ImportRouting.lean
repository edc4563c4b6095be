import Embyr.PatternReach
import Embyr.RoutingLimits

/-!
# Imported patterns route unambiguously

What the overlap check of the import is for, said of paths.

* `PatternRow.WellFormed.routable_reach` — the reach of a stored row is a prefix of paths.
* `imports_route_unambiguously` — after any sequence of imports no literal path has two matches of
  one length, reaches that meet are nested, and the router finds no violation.
-/

namespace Embyr

/-! ## Reaches of stored rows -/

theorem collectionsLiteral_concat {even : Bool} {segs : List PathSegment}
    (h : CollectionsLiteral even segs) (hparity : (segs.length % 2 == 0) ≠ even) (s : PathSegment) :
    CollectionsLiteral even (segs ++ [s]) := by
  induction segs generalizing even with
  | nil =>
    refine ⟨fun heven => absurd heven.symm hparity, trivial⟩
  | cons x segs ih =>
    refine ⟨h.1, ih h.2 ?_⟩
    rw [List.length_cons] at hparity
    rcases Nat.mod_two_eq_zero_or_one segs.length with hmod | hmod <;>
      cases even <;> simp_all [Nat.add_mod]

theorem PatternRow.WellFormed.routable {row : PatternRow} (h : row.WellFormed) :
    Routable row.segments :=
  ⟨h.shape.collections, fun s hs => (h.shape.written s hs).2⟩

theorem PatternRow.WellFormed.routable_reach {row : PatternRow} (h : row.WellFormed) :
    Routable row.reach := by
  rw [PatternRow.reach]
  split_ifs with hrec
  · exact h.routable
  · refine ⟨collectionsLiteral_concat h.shape.collections ?_ _, ?_⟩
    · rw [← h.parity]
      exact hrec
    · intro s hs
      rcases List.mem_append.mp hs with hs | hs
      · exact h.routable.fixed s hs
      · obtain rfl := List.mem_singleton.mp hs
        simp

/-- The shorter of two prefixes generalizes the longer, position by position. -/
def Nested (a b : List PathSegment) : Prop :=
  a.length < b.length ∧ ((a.zip b).all fun (g, s) => generalizes g s) = true ∨
    b.length < a.length ∧ ((b.zip a).all fun (g, s) => generalizes g s) = true

/-- Two reaches that are not ambiguous are disjoint or nested. -/
theorem nested_of_not_ambiguous {a b : List PathSegment} (ha : Routable a) (hb : Routable b)
    (h : ambiguous a b = false) (hmeet : ¬Disjoint (reachOf a) (reachOf b)) : Nested a b := by
  have hnot : classifyPrefixRelation a b ≠ .ambiguousOverlap := of_decide_eq_false h
  rcases lt_trichotomy a.length b.length with hlt | heq | hgt
  · rcases classify_of_length_lt ha hb hlt with ⟨-, hsubset, -⟩ | ⟨-, -, hdisjoint⟩ | ⟨hambiguous, -⟩
    · exact .inl ⟨hlt, (reachOf_subset_iff hb hlt.le).mp hsubset⟩
    · exact absurd hdisjoint hmeet
    · exact absurd hambiguous hnot
  · rcases classify_of_length_eq ha hb heq with ⟨-, hdisjoint⟩ | ⟨hambiguous, -⟩
    · exact absurd hdisjoint hmeet
    · exact absurd hambiguous hnot
  · have hswap : classifyPrefixRelation b a ≠ .ambiguousOverlap := by
      rw [Ne, classifyPrefixRelation_ambiguous_comm]
      exact hnot
    rcases classify_of_length_lt hb ha hgt with ⟨-, hsubset, -⟩ | ⟨-, -, hdisjoint⟩ | ⟨hambiguous, -⟩
    · exact .inr ⟨hgt, (reachOf_subset_iff ha hgt.le).mp hsubset⟩
    · exact absurd hdisjoint.symm hmeet
    · exact absurd hambiguous hswap

/-! ## Stored rows, pair by pair -/

section Pairs

variable {r r' : PatternRow}

/-- Two rows of fixed depth that do not clash match no path both. -/
theorem not_both_bind (hr : r.WellFormed) (hr' : r'.WellFormed) (h : r.clashes r' = false)
    (hfixed : r.isRecursive = false) (hfixed' : r'.isRecursive = false) (texts : List String) :
    ¬(Binds r.segments texts ∧ Binds r'.segments texts) := by
  intro hboth
  rw [PatternRow.clashes_fixed hfixed hfixed'] at h
  rw [(structurallyOverlap_iff hr.routable hr'.routable).mpr ⟨texts, hboth⟩] at h
  cases h

/-- Two rows that do not clash, one of them recursive: where they meet, they are nested. -/
theorem nested_of_not_clashes (hr : r.WellFormed) (hr' : r'.WellFormed)
    (h : r.clashes r' = false) (hrec : r.isRecursive = true ∨ r'.isRecursive = true)
    (hmeet : ¬Disjoint (reachOf r.reach) (reachOf r'.reach)) : Nested r.reach r'.reach := by
  have hambiguous : ambiguous r.reach r'.reach = false := by
    rwa [PatternRow.clashes, if_pos (by simpa using hrec)] at h
  exact nested_of_not_ambiguous hr.routable_reach hr'.routable_reach hambiguous hmeet

/-- Two recursive rows of one length that do not clash match no path both. -/
theorem disjoint_of_not_clashes (hr : r.WellFormed) (hr' : r'.WellFormed)
    (h : r.clashes r' = false) (hrec : r.isRecursive = true) (hrec' : r'.isRecursive = true)
    (hlen : r.segments.length = r'.segments.length) :
    Disjoint (reachOf r.segments) (reachOf r'.segments) := by
  by_contra hmeet
  have hreach : r.reach = r.segments := if_pos hrec
  have hreach' : r'.reach = r'.segments := if_pos hrec'
  have hnested := nested_of_not_clashes hr hr' h (.inl hrec) (by rwa [hreach, hreach'])
  rw [hreach, hreach'] at hnested
  rcases hnested with ⟨hlt, -⟩ | ⟨hlt, -⟩ <;> omega

end Pairs

/-- The router answers on every literal path. -/
theorem resolve_literal {patterns : List PatternRow} (hun : Unambiguous patterns)
    {collectionPath : String} {texts : List String}
    (hpath : parsePathSegments collectionPath = .ok (texts.map .literal))
    (documentId : Option String) :
    ∃ answer, resolveAccessRulePattern patterns collectionPath documentId = .ok answer := by
  have hwf := hun.wellFormed
  have hancestors : ∀ count skeleton, ∃ matched, matchAncestors (texts.map .literal) none
      (listAccessRulePatternsBySkeleton patterns count skeleton) = .ok matched := by
    intro count skeleton
    refine ⟨_, matchAncestors_of_apart hun fun r hr r' hr' h hbind => ?_⟩
    obtain ⟨hmem, -, hfixed⟩ := mem_bySkeleton.mp hr
    obtain ⟨hmem', -, hfixed'⟩ := mem_bySkeleton.mp hr'
    have hbinds : ∀ x : PatternRow, x.bindFixed (texts.map .literal) ≠ none →
        Binds x.segments texts := by
      intro x hx
      rwa [PatternRow.bindFixed, Ne, Option.map_eq_none_iff, ← Ne,
        ← Option.isSome_iff_ne_none] at hx
    by_contra hbind'
    exact not_both_bind (hwf r hmem) (hwf r' hmem') h hfixed hfixed' texts
      ⟨hbinds r hbind, hbinds r' hbind'⟩
  have hprefixes : ∀ (full : List String) count, ∃ matched, matchPrefixes (full.map .literal) none
      (listRecursiveAccessRulePatternsUpTo patterns count) = .ok matched := by
    intro full count
    obtain ⟨result, hresult, -⟩ := @matchPrefixes_of_apart (full.map .literal) patterns count hun
      fun r hr r' hr' h hbind hbind' hlen => by
        obtain ⟨hmem, hrec, -⟩ := mem_upTo.mp hr
        obtain ⟨hmem', hrec', -⟩ := mem_upTo.mp hr'
        have hdisjoint := disjoint_of_not_clashes (hwf r hmem) (hwf r' hmem') h hrec hrec' hlen
        have hreach : ∀ x : PatternRow, x.bindRecursive (full.map .literal) ≠ none →
            full ∈ reachOf x.segments := by
          intro x hx
          rwa [PatternRow.bindRecursive, Ne, Option.map_eq_none_iff, ← Ne,
            ← Option.isSome_iff_ne_none] at hx
        exact Set.disjoint_left.mp hdisjoint (hreach r hbind) (hreach r' hbind')
    exact ⟨_, hresult⟩
  rw [resolveAccessRulePattern, hpath]
  obtain ⟨matched, hmatched⟩ := hancestors (Int16.ofNat (texts.map PathSegment.literal).length)
    (literalSkeleton (texts.map .literal))
  simp only [hmatched, bind, Except.bind]
  rcases matched with _ | route
  · rcases documentId with _ | documentId
    · exact ⟨none, rfl⟩
    · have hfull : texts.map PathSegment.literal ++ [.literal documentId] =
          (texts ++ [documentId]).map .literal := by simp
      simp only [hfull]
      exact hprefixes _ _
  · exact ⟨some route, rfl⟩

/-- **After any sequence of imports the stored patterns are unambiguous**: no literal path is matched
by two of fixed depth, or by two recursive ones of one length; where a recursive one meets another,
the shorter generalizes the longer; and the router answers on every literal path. -/
theorem imports_route_unambiguously {rules : RuleSet} (h : Imported rules) :
    (rules.patterns.Pairwise fun r r' => r.isRecursive = false → r'.isRecursive = false →
      ∀ texts, ¬(Binds r.segments texts ∧ Binds r'.segments texts)) ∧
    (rules.patterns.Pairwise fun r r' => r.isRecursive = true → r'.isRecursive = true →
      r.segments.length = r'.segments.length →
        Disjoint (reachOf r.segments) (reachOf r'.segments)) ∧
    (rules.patterns.Pairwise fun r r' => r.isRecursive = true ∨ r'.isRecursive = true →
      ¬Disjoint (reachOf r.reach) (reachOf r'.reach) → Nested r.reach r'.reach) ∧
    ∀ (collectionPath : String) (texts : List String) (documentId : Option String),
      parsePathSegments collectionPath = .ok (texts.map .literal) →
        ∃ answer, resolveAccessRulePattern rules.patterns collectionPath documentId = .ok answer := by
  have hun := h.unambiguous
  have hwf := hun.wellFormed
  refine ⟨?_, ?_, ?_, fun collectionPath texts documentId hpath => resolve_literal hun hpath _⟩
  · exact hun.apart.imp_of_mem fun hr hr' hapart => not_both_bind (hwf _ hr) (hwf _ hr') hapart
  · exact hun.apart.imp_of_mem fun hr hr' hapart =>
      disjoint_of_not_clashes (hwf _ hr) (hwf _ hr') hapart
  · exact hun.apart.imp_of_mem fun hr hr' hapart =>
      nested_of_not_clashes (hwf _ hr) (hwf _ hr') hapart

/-- `users/{user}`, everything below. -/
theorem imports_route_unambiguously_users :
    ∃ answer, resolveAccessRulePattern [prefixRow [.literal "users", .wildcard "user"]]
      "users/ann/notes" (some "n1") = .ok answer := by
  have hshape : PatternShape [.literal "users", .wildcard "user"] := by
    refine ⟨?_, fun _ => ⟨_, rfl⟩, nofun, trivial⟩
    intro s hs
    fin_cases hs
    · exact ⟨⟨"users", "users", by decide, by decide⟩, nofun⟩
    · exact ⟨⟨"\x7buser\x7d", "\x7buser\x7d", by decide, by decide⟩, nofun⟩
  exact (imports_route_unambiguously (imported_prefixRow hshape rfl)).2.2.2 _
    ["users", "ann", "notes"] _ (by decide)

end Embyr
