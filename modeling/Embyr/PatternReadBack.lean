import Embyr.PatternRouting
import Embyr.TemplateShape

/-!
# Stored patterns read back

A block is stored as text, its ancestor or its fixed prefix, which the overlap check, the router
and the simulator parse again. The check aborts on a text that does not parse.

* `nestedSegments` — the segments of a block, read from its header and those around it.
* `checkPatternOverlap_isSome`, `resolveAccessRulePattern_reads` — nothing stored by an import stops
  the check or the router.
* `stored_patterns_read_back` — every stored text gives the segments it was rendered from.
-/

namespace Embyr

open PatternRow

/-! ## The segments of a block -/

/-- What `parse_nested_match_blocks` has read when it reaches a block: the segments of each header,
the outermost first. -/
def nestedSegments (headers : List String) : Except RulesFileError (List PathSegment) :=
  (headers.mapM parsePathSegments).map List.flatten

variable {segs : List PathSegment}

theorem written_of_parsePathSegments {pattern : String} (h : parsePathSegments pattern = .ok segs) :
    segs ≠ [] ∧ ∀ s ∈ segs, s.Written := by
  rw [parsePathSegments] at h
  split_ifs at h with hempty
  · cases h
  · have hread := mapM_eq_ok_iff.mp h
    refine ⟨?_, fun s hs => ?_⟩
    · rintro rfl
      exact Text.split_ne_nil _ _ (List.forall₂_nil_right_iff.mp hread)
    · obtain ⟨text, htext, hparse⟩ := exists_of_mem_forall₂ hread hs
      exact ⟨pattern, text, Text.not_mem_of_mem_split htext, hparse⟩

/-- A block's segments are not empty, and each was read from text. -/
theorem nestedSegments_written {headers : List String} (hne : headers ≠ [])
    (h : nestedSegments headers = .ok segs) : segs ≠ [] ∧ ∀ s ∈ segs, s.Written := by
  obtain ⟨parts, hparts, rfl⟩ := map_eq_ok h
  have hread := mapM_eq_ok_iff.mp hparts
  have hwritten : ∀ part ∈ parts, part ≠ [] ∧ ∀ s ∈ part, s.Written := by
    intro part hpart
    obtain ⟨header, -, hheader⟩ := exists_of_mem_forall₂ hread hpart
    exact written_of_parsePathSegments hheader
  refine ⟨fun hflat => ?_, fun s hs => ?_⟩
  · cases hread with
    | nil => exact hne rfl
    | cons _ _ =>
      exact (hwritten _ List.mem_cons_self).1 (List.flatten_eq_nil_iff.mp hflat _ List.mem_cons_self)
  · obtain ⟨part, hpart, hmem⟩ := List.mem_flatten.mp hs
    exact (hwritten part hpart).2 s hmem

/-! ## Reading again -/

variable {patterns : List PatternRow} {targets : List DecomposedTarget}

theorem findSomeM?_isSome {α β : Type} {f : α → Option (Option β)} {l : List α}
    (h : ∀ a ∈ l, (f a).isSome) : (l.findSomeM? f).isSome := by
  induction l with
  | nil => rfl
  | cons a l ih =>
    obtain ⟨hfirst, hrest⟩ := List.forall_mem_cons.mp h
    obtain ⟨found, hfound⟩ := Option.isSome_iff_exists.mp hfirst
    rw [List.findSomeM?, hfound]
    cases found with
    | none => exact ih hrest
    | some b => rfl

variable (hstored : ∀ row ∈ patterns, row.WellFormed)

include hstored

theorem storedFixedOverlap_isSome (rule : DecomposedPatternRule) (ancestor : List PathSegment) :
    (storedFixedOverlap patterns rule ancestor).isSome := by
  refine findSomeM?_isSome fun row hrow => ?_
  obtain ⟨hmem, -, hfixed⟩ := mem_bySkeleton.mp hrow
  split_ifs
  · rfl
  · rw [expectSegments, (hstored row hmem).parsePathSegments_eq hfixed]
    rfl

theorem storedRecursiveOverlap_isSome (r : Parsed) :
    (storedRecursiveOverlap patterns r).isSome := by
  refine findSomeM?_isSome fun row hrow => ?_
  have hparses := (hstored row hrow).parses
  rw [PatternRow.parse] at hparses
  by_cases hsame : row.isRecursive = true ∧ row.collectionPathPattern = r.text
  · rw [if_pos hsame]
    rfl
  · rw [if_neg hsame]
    split_ifs at hparses ⊢
    · simp only [hparses, Option.map_some, Option.isSome_some]
    · simp only [hparses, Option.map_some, Option.isSome_some]

theorem storedMixedOverlap_isSome (f : Parsed) : (storedMixedOverlap patterns f).isSome := by
  refine findSomeM?_isSome fun row hrow => ?_
  have hparses := (hstored row hrow).parses
  rw [PatternRow.parse] at hparses
  split_ifs at hparses ⊢ with hrec
  · rw [hparses]
    rfl
  · rfl

/-- The overlap check never aborts on well-formed rows. -/
theorem checkPatternOverlap_isSome (hnew : ∀ row ∈ importedRows targets, row.WellFormed) :
    (checkPatternOverlap patterns targets).isSome := by
  unfold checkPatternOverlap
  simp only [mapM_expectSegments hnew, mapM_parseRecursivePrefix hnew, bind, Option.bind, pure]
  split_ifs
  · rfl
  split
  · rfl
  split
  · rfl
  split
  · rfl
  obtain ⟨found, hfound⟩ := Option.isSome_iff_exists.mp
    (findSomeM?_isSome (l := (multiSegmentPatterns targets).zip
      ((multiSegmentPatterns targets).map fun p => p.toRow.parsed))
        fun x _ => storedFixedOverlap_isSome hstored x.1 x.2.segments)
  rw [hfound]
  rcases found with _ | rejection
  swap
  · rfl
  obtain ⟨found, hfound⟩ := Option.isSome_iff_exists.mp
    (findSomeM?_isSome (l := (recursivePatterns targets).map fun p => p.toRow.parsed)
      fun r _ => storedRecursiveOverlap_isSome hstored r)
  simp only [hfound]
  rcases found with _ | rejection
  · exact findSomeM?_isSome fun f _ => storedMixedOverlap_isSome hstored f
  · rfl

omit hstored in
/-- The fixed-depth loop of the router stops only where two patterns match. -/
theorem matchAncestors_error {concrete : List PathSegment} {candidates : List PatternRow}
    {matched : Option Route} {status : Status}
    (hwf : ∀ r ∈ candidates, r.WellFormed ∧ r.isRecursive = false)
    (h : matchAncestors concrete matched candidates = .error status) :
    status = Status.routingInvariant := by
  induction candidates generalizing matched with
  | nil => cases h
  | cons r rest ih =>
    obtain ⟨⟨hr, hfixed⟩, hrest⟩ := List.forall_mem_cons.mp hwf
    rw [matchAncestors, hr.parsePathSegments_eq hfixed] at h
    simp only at h
    split at h
    · exact ih hrest h
    · split_ifs at h
      · exact (Except.error.inj h).symm
      · exact ih hrest h

omit hstored in
/-- … and so does the loop over the recursive ones. -/
theorem matchPrefixes_error {concrete : List PathSegment} {candidates : List PatternRow}
    {best : Option (Route × ℕ)} {status : Status}
    (hwf : ∀ r ∈ candidates, r.WellFormed ∧ r.isRecursive = true)
    (h : matchPrefixes concrete best candidates = .error status) :
    status = Status.routingInvariant := by
  induction candidates generalizing best with
  | nil => cases h
  | cons r rest ih =>
    obtain ⟨⟨hr, hrec⟩, hrest⟩ := List.forall_mem_cons.mp hwf
    simp only [matchPrefixes, hr.parsePrefix_eq hrec] at h
    split at h
    · exact ih hrest h
    split at h
    · exact ih hrest h
    split_ifs at h
    · exact ih hrest h
    · exact (Except.error.inj h).symm
    · exact ih hrest h

/-- The router never stops at a well-formed row. -/
theorem resolveAccessRulePattern_reads {collectionPath : String} {documentId : Option String}
    {status : Status}
    (h : resolveAccessRulePattern patterns collectionPath documentId = .error status) :
    (∃ e, parsePathSegments collectionPath = .error e) ∨ status = Status.routingInvariant := by
  rw [resolveAccessRulePattern] at h
  rcases hparse : parsePathSegments collectionPath with e | concrete
  · exact .inl ⟨e, rfl⟩
  rw [hparse] at h
  right
  have hfixed : ∀ count skeleton, ∀ r ∈ listAccessRulePatternsBySkeleton patterns count skeleton,
      r.WellFormed ∧ r.isRecursive = false := fun _ _ r hr =>
    ⟨hstored r (mem_bySkeleton.mp hr).1, (mem_bySkeleton.mp hr).2.2⟩
  have hrecursive : ∀ count, ∀ r ∈ listRecursiveAccessRulePatternsUpTo patterns count,
      r.WellFormed ∧ r.isRecursive = true := fun _ r hr =>
    ⟨hstored r (mem_upTo.mp hr).1, (mem_upTo.mp hr).2.1⟩
  rcases hmatched : matchAncestors concrete none (listAccessRulePatternsBySkeleton patterns
    (Int16.ofNat concrete.length) (literalSkeleton concrete)) with e | matched
  · simp only [hmatched, bind, Except.bind] at h
    cases h
    exact matchAncestors_error (hfixed _ _) hmatched
  · simp only [hmatched, bind, Except.bind] at h
    rcases matched with _ | route
    · rcases documentId with _ | documentId
      · cases h
      · exact matchPrefixes_error (hrecursive _) h
    · cases h

omit hstored in
/-- **Stored patterns read back as written.** Whatever headers a block is read from, it is one of
the blocks that are decomposed, and what it is stored as parses into the segments it was rendered
from. So after any sequence of imports every stored text parses, the overlap check does not abort,
and the router fails only on the path of the request or where two patterns match it. -/
theorem stored_patterns_read_back :
    (∀ (headers : List String) (segments : List PathSegment), headers ≠ [] →
      nestedSegments headers = .ok segments → ∀ pathPattern allowClauses, ∃ block : MatchBlock,
        block.pathPattern = pathPattern ∧ block.segments = segments ∧
          block.allowClauses = allowClauses) ∧
    (∀ (block : MatchBlock) (target : DecomposedTarget) (row : PatternRow),
      decomposeBlock block = .ok target → target.row? = some row →
        let rendered := if block.segments.getLast? = some .recursiveWildcard then
          block.segments.dropLast else block.ancestor
        row.collectionPathPattern = renderAncestorPattern rendered ∧ row.parse = some rendered) ∧
    ∀ rules : RuleSet, Imported rules →
      (∀ row ∈ rules.patterns, row.collectionPathPattern = renderAncestorPattern row.segments ∧
        row.parse = some row.segments) ∧
      (∀ blocks, importRulesFile rules blocks ≠ .panicked) ∧
      ∀ collectionPath documentId status,
        resolveAccessRulePattern rules.patterns collectionPath documentId = .error status →
          (∃ e, parsePathSegments collectionPath = .error e) ∨ status = Status.routingInvariant := by
  refine ⟨fun headers segments hne hread pathPattern allowClauses => ?_,
    fun block target row h hrow => ?_, fun rules himported => ?_⟩
  · obtain ⟨hsegments, hwritten⟩ := nestedSegments_written hne hread
    exact ⟨⟨pathPattern, segments, allowClauses, hsegments, hwritten⟩, rfl, rfl, rfl⟩
  · obtain ⟨hwf, hsegments⟩ := decomposeBlock_row h hrow
    dsimp only
    rw [← hsegments]
    exact ⟨hwf.text, hwf.parses⟩
  · have hstored := himported.unambiguous.wellFormed
    refine ⟨fun row hrow => ⟨(hstored row hrow).text, (hstored row hrow).parses⟩,
      fun blocks hpanic => ?_, fun _ _ _ => resolveAccessRulePattern_reads hstored⟩
    rw [importRulesFile] at hpanic
    split at hpanic
    · cases hpanic
    · rename_i targets hdecompose
      have hcheck := checkPatternOverlap_isSome hstored (decompose_wellFormed hdecompose)
      split at hpanic
      · rename_i hnone
        rw [hnone] at hcheck
        cases hcheck
      · cases hpanic
      · cases hpanic

end Embyr
