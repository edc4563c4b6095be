import Embyr.BlockTargets

/-!
# Imported patterns are unambiguous

The overlap check of `import_rules_file` exists so that a request path meets at
most one pattern of each depth. `PatternRow.WellFormed` says what a stored row stands
for, `PatternRow.clashes` is the relation the check rejects between two rows, and
`Unambiguous` that no two stored rows are so related.

* `checkPatternOverlap_eq_none` — a passed check has searched all six loops in vain.
* `importedRows_apart`, `importedRows_apart_stored` — hence the rows of an accepted
  file clash neither with each other nor with a stored row they do not replace; the
  lookup by skeleton misses no clash (`mem_bySkeleton_of_overlap`).
* `Imported.unambiguous` — hence any sequence of imports leaves unambiguous patterns.
-/

namespace Embyr

open PatternRow List

/-! ## What a row stands for -/

/-- The segments a row's text re-parses to, in the way its kind is parsed. -/
def PatternRow.parse (row : PatternRow) : Option (List PathSegment) :=
  if row.isRecursive then parseRecursivePrefix row.collectionPathPattern
  else expectSegments row.collectionPathPattern

/-- The segments a row stands for. -/
def PatternRow.segments (row : PatternRow) : List PathSegment := row.parse.getD []

/-- The reach of a row: the prefix of every document it governs. -/
def PatternRow.reach (row : PatternRow) : List PathSegment :=
  if row.isRecursive then row.segments else fixedDepthFullReach row.segments

/-- The relation the overlap check rejects. -/
def PatternRow.clashes (r r' : PatternRow) : Bool :=
  if r.isRecursive || r'.isRecursive then ambiguous r.reach r'.reach
  else structurallyOverlap r.segments r'.segments

/-- A row as `decompose` writes it. -/
structure PatternRow.WellFormed (row : PatternRow) : Prop where
  parses : row.parse = some row.segments
  shape : PatternShape row.segments
  text : row.collectionPathPattern = renderAncestorPattern row.segments
  count : row.ancestorSegmentCount = Int16.ofNat row.segments.length
  skeleton : row.literalSkeleton = Embyr.literalSkeleton row.segments
  parity : row.isRecursive = (row.segments.length % 2 == 0)

/-- What the overlap check is for. -/
structure Unambiguous (patterns : List PatternRow) : Prop where
  wellFormed : ∀ row ∈ patterns, row.WellFormed
  apart : patterns.Pairwise fun r r' => r.clashes r' = false

theorem render_ne_empty {segs : List PathSegment} (hshape : PatternShape segs) (hne : segs ≠ []) :
    renderAncestorPattern segs ≠ "" := by
  obtain ⟨s, rest, rfl⟩ := exists_cons_of_ne_nil hne
  obtain ⟨⟨pattern, text, -, hparse⟩, hrec⟩ := hshape.written s mem_cons_self
  refine Text.join_ne_empty ?_
  rw [render_of_parseOneSegment hparse hrec]
  exact parseOneSegment_ne_empty hparse

variable {row : PatternRow}

/-- A row written from segments of its kind's parity stands for them. -/
theorem PatternRow.wellFormed_of_render {segs : List PathSegment} (hshape : PatternShape segs)
    (htext : row.collectionPathPattern = renderAncestorPattern segs)
    (hcount : row.ancestorSegmentCount = Int16.ofNat segs.length)
    (hskeleton : row.literalSkeleton = Embyr.literalSkeleton segs)
    (hparity : row.isRecursive = (segs.length % 2 == 0)) :
    row.WellFormed ∧ row.segments = segs := by
  have hparse : row.parse = some segs := by
    unfold parse parseRecursivePrefix expectSegments
    rw [htext]
    rcases eq_or_ne segs [] with rfl | hne
    · rw [hparity]
      rfl
    · rw [parsePathSegments_render hne hshape.written]
      simp only [String.isEmpty_iff, render_ne_empty hshape hne, if_false]
      exact ite_self _
  have hsegs : row.segments = segs := by
    unfold segments
    rw [hparse]
    rfl
  subst hsegs
  exact ⟨⟨hparse, hshape, htext, hcount, hskeleton, hparity⟩, rfl⟩

/-- The row a target is stored as, if it is a pattern. -/
def DecomposedTarget.row? : DecomposedTarget → Option PatternRow
  | .singleCollection _ => none
  | .multiSegmentPattern p => some p.toRow
  | .recursiveWildcardPattern p => some p.toRow

/-- A target that is a pattern is written from the block's prefix or its ancestor. -/
theorem decomposeBlock_row {block : MatchBlock} {target : DecomposedTarget}
    (h : decomposeBlock block = .ok target) (hrow : target.row? = some row) :
    row.WellFormed ∧ row.segments =
      if block.segments.getLast? = some .recursiveWildcard then block.segments.dropLast
      else block.ancestor := by
  rw [decomposeBlock_eq] at h
  obtain ⟨⟨⟩, hvalid, hthen⟩ := bind_eq_ok h
  obtain ⟨buckets, -, htarget⟩ := bind_eq_ok hthen
  cases htarget
  rw [MatchBlock.target] at hrow
  split_ifs at hrow ⊢ with hlast
  · -- a recursive wildcard at the end: the fixed prefix has even length
    obtain ⟨hrec, hcol, hlen⟩ := validateSegmentShape_recursive hvalid hlast
    have hshape : PatternShape block.segments.dropLast :=
      ⟨fun s hs => ⟨block.written s (mem_of_mem_dropLast hs), hrec s hs⟩, hcol⟩
    cases hrow
    refine wellFormed_of_render hshape rfl rfl rfl ?_
    rw [length_dropLast]
    have : (block.segments.length - 1) % 2 = 0 := by omega
    simp [this, DecomposedRecursivePattern.toRow]
  · obtain ⟨hrec, hcol⟩ := validateSegmentShape_fixed hvalid hlast
    have hshape : PatternShape block.segments := ⟨fun s hs => ⟨block.written s hs, hrec s hs⟩, hcol⟩
    have hpos : 0 < block.segments.length := length_pos_of_ne_nil block.nonempty
    have hancestor : PatternShape block.ancestor ∧ block.ancestor.length % 2 = 1 := by
      rw [MatchBlock.ancestor]
      split_ifs with hparity
      · -- a leaf is there: the ancestor is one segment shorter
        rw [length_dropLast]
        exact ⟨hshape.dropLast, by omega⟩
      · exact ⟨hshape, by omega⟩
    split at hrow
    · cases hrow
    · cases hrow
      refine wellFormed_of_render hancestor.1 rfl rfl rfl ?_
      simp [hancestor.2, DecomposedPatternRule.toRow]

variable {targets : List DecomposedTarget}

theorem decompose_wellFormed {blocks : List MatchBlock}
    (h : decompose blocks = .ok targets) : ∀ row ∈ targets.filterMap (·.row?), row.WellFormed := by
  intro row hrow
  obtain ⟨target, htarget, hrow⟩ := mem_filterMap.mp hrow
  obtain ⟨block, -, hblock⟩ := exists_of_mem_forall₂ (decompose_eq_ok_iff.mp h) htarget
  exact (decomposeBlock_row hblock hrow).1

/-! ## What the check establishes -/

theorem PatternRow.clashes_comm (r r' : PatternRow) : r.clashes r' = r'.clashes r := by
  unfold clashes ambiguous
  rw [Bool.or_comm, structurallyOverlap_comm]
  simp only [classifyPrefixRelation_ambiguous_comm r.reach]

variable {α : Type} {l : List α}

theorem findSomeM?_eq_some_none_iff {β : Type} {f : α → Option (Option β)} :
    l.findSomeM? f = some none ↔ ∀ a ∈ l, f a = some none := by
  induction l with
  | nil => simp [findSomeM?]
  | cons a l ih =>
    rw [findSomeM?]
    rcases h : f a with _ | _ | b <;> simp [h, ih]

theorem pairwise_iff_pairsOf {S : α → α → Prop} :
    l.Pairwise S ↔ ∀ ab ∈ pairsOf l, S ab.1 ab.2 := by
  induction l with
  | nil => simp [pairsOf]
  | cons a l ih => simp [pairsOf, ih, or_imp, forall_and]

theorem rejectIf_eq_none_iff {clash : Bool} {a b : String} :
    rejectIf clash a b = none ↔ clash = false := by
  cases clash <;> simp [rejectIf]

theorem fixedOverlap_eq_none_iff {fixed : List Parsed} :
    fixedOverlap fixed = none ↔
      fixed.Pairwise fun a b => structurallyOverlap a.segments b.segments = false := by
  simp [fixedOverlap, pairwise_iff_pairsOf, rejectIf_eq_none_iff]

theorem recursiveOverlap_eq_none_iff {recursive : List Parsed} :
    recursiveOverlap recursive = none ↔
      recursive.Pairwise fun a b => ambiguous a.segments b.segments = false := by
  simp [recursiveOverlap, pairwise_iff_pairsOf, rejectIf_eq_none_iff]

theorem mapM_eq_some_map {β : Type} {f : α → Option β} {g : α → β}
    (h : ∀ a ∈ l, f a = some (g a)) : l.mapM f = some (l.map g) := by
  induction l with
  | nil => rfl
  | cons a l ih =>
    rw [mapM_cons, h a mem_cons_self, ih (forall_mem_cons.mp h).2]
    rfl

/-- What the check compares of a row. -/
def PatternRow.parsed (row : PatternRow) : Parsed := ⟨row.collectionPathPattern, row.segments⟩

variable {patterns : List PatternRow}

/-- The rows an import stores. -/
def importedRows (targets : List DecomposedTarget) : List PatternRow :=
  targets.filterMap (·.row?)

theorem importedRows_fixed (targets : List DecomposedTarget) :
    (importedRows targets).filter (fun r => !r.isRecursive) =
      (multiSegmentPatterns targets).map DecomposedPatternRule.toRow := by
  unfold importedRows multiSegmentPatterns
  induction targets with
  | nil => rfl
  | cons t targets ih => cases t <;> simpa [DecomposedTarget.row?] using ih

theorem importedRows_recursive (targets : List DecomposedTarget) :
    (importedRows targets).filter (fun r => r.isRecursive) =
      (recursivePatterns targets).map DecomposedRecursivePattern.toRow := by
  unfold importedRows recursivePatterns
  induction targets with
  | nil => rfl
  | cons t targets ih =>
    cases t with
    | singleCollection rule => exact ih
    | multiSegmentPattern p => simpa [DecomposedTarget.row?] using ih
    | recursiveWildcardPattern p => exact congrArg (p.toRow :: ·) ih

/-- The check re-parses the fixed-depth targets into the segments of their rows. -/
theorem mapM_expectSegments (hwf : ∀ row ∈ importedRows targets, row.WellFormed) :
    (multiSegmentPatterns targets).mapM (fun p =>
      (expectSegments p.collectionPathPattern).map (Parsed.mk p.collectionPathPattern)) =
        some ((multiSegmentPatterns targets).map fun p => p.toRow.parsed) := by
  refine mapM_eq_some_map fun p hp => ?_
  have hrow : p.toRow ∈ importedRows targets :=
    mem_of_mem_filter (importedRows_fixed targets ▸ mem_map_of_mem hp)
  have hparse : expectSegments p.collectionPathPattern = some p.toRow.segments :=
    (hwf _ hrow).parses
  rw [hparse]
  rfl

/-- … and the recursive ones. -/
theorem mapM_parseRecursivePrefix (hwf : ∀ row ∈ importedRows targets, row.WellFormed) :
    (recursivePatterns targets).mapM (fun p =>
      (parseRecursivePrefix p.fixedPrefixPattern).map (Parsed.mk p.fixedPrefixPattern)) =
        some ((recursivePatterns targets).map fun p => p.toRow.parsed) := by
  refine mapM_eq_some_map fun p hp => ?_
  have hrow : p.toRow ∈ importedRows targets :=
    mem_of_mem_filter (importedRows_recursive targets ▸ mem_map_of_mem hp)
  have hparse : parseRecursivePrefix p.fixedPrefixPattern = some p.toRow.segments :=
    (hwf _ hrow).parses
  rw [hparse]
  rfl

/-- The check passes iff each of its six loops finds nothing. -/
theorem checkPatternOverlap_eq_none (h : checkPatternOverlap patterns targets = some none)
    (hwf : ∀ row ∈ importedRows targets, row.WellFormed) :
    let fixed := (multiSegmentPatterns targets).map fun p => p.toRow.parsed
    let recursive := (recursivePatterns targets).map fun p => p.toRow.parsed
    fixedOverlap fixed = none ∧ recursiveOverlap recursive = none ∧
      mixedOverlap recursive fixed = none ∧
      (∀ p ∈ multiSegmentPatterns targets,
        storedFixedOverlap patterns p p.toRow.segments = some none) ∧
      (∀ r ∈ recursive, storedRecursiveOverlap patterns r = some none) ∧
      ∀ f ∈ fixed, storedMixedOverlap patterns f = some none := by
  intro fixed recursive
  unfold checkPatternOverlap at h
  simp only [mapM_expectSegments hwf, mapM_parseRecursivePrefix hwf, bind, Option.bind, pure] at h
  split_ifs at h with hempty
  · rw [Bool.and_eq_true, List.isEmpty_iff, List.isEmpty_iff] at hempty
    simp [fixed, recursive, hempty.1, hempty.2, fixedOverlap, recursiveOverlap, mixedOverlap,
      pairsOf]
  -- each loop in turn must have come up empty
  rcases h1 : fixedOverlap fixed with _ | rejection
  swap
  · simp only [fixed] at h1
    simp [h1] at h
  rcases h2 : recursiveOverlap recursive with _ | rejection
  swap
  · simp only [fixed, recursive] at h1 h2
    simp [h1, h2] at h
  rcases h3 : mixedOverlap recursive fixed with _ | rejection
  swap
  · simp only [fixed, recursive] at h1 h2 h3
    simp [h1, h2, h3] at h
  simp only [fixed, recursive] at h1 h2 h3
  simp only [h1, h2, h3] at h
  split at h
  · cases h
  rename_i found hfound
  rcases found with _ | rejection
  swap
  · cases h
  simp only at h
  split at h
  · cases h
  rename_i found' hfound'
  rcases found' with _ | rejection
  swap
  · cases h
  refine ⟨rfl, rfl, rfl, ?_, findSomeM?_eq_some_none_iff.mp hfound',
    findSomeM?_eq_some_none_iff.mp h⟩
  intro p hp
  refine findSomeM?_eq_some_none_iff.mp hfound (p, p.toRow.parsed) ?_
  obtain ⟨i, hi, rfl⟩ := List.mem_iff_getElem.mp hp
  exact List.mem_iff_getElem.mpr ⟨i, by simpa using hi, by simp⟩

variable {r r' : PatternRow}

theorem PatternRow.clashes_fixed (h : r.isRecursive = false)
    (h' : r'.isRecursive = false) : r.clashes r' = structurallyOverlap r.segments r'.segments := by
  simp [clashes, h, h']

theorem PatternRow.clashes_recursive (h : r.isRecursive = true) :
    r.clashes r' = ambiguous r.segments r'.reach := by
  simp [clashes, reach, h]

/-- The rows of an accepted file are apart from each other. -/
theorem importedRows_apart (h : checkPatternOverlap patterns targets = some none)
    (hwf : ∀ row ∈ importedRows targets, row.WellFormed) :
    (importedRows targets).Pairwise fun r r' => r.clashes r' = false := by
  have hfixed := importedRows_fixed targets
  have hrecursive := importedRows_recursive targets
  obtain ⟨h1, h2, h3, -⟩ := checkPatternOverlap_eq_none h hwf
  refine Table.pairwise_of_partition (·.isRecursive) ?_ ?_ ?_
  · rw [hrecursive, pairwise_map]
    refine (pairwise_map.mp (recursiveOverlap_eq_none_iff.mp h2)).imp fun {p q} hpq => ?_
    rw [clashes_recursive rfl]
    exact hpq
  · rw [hfixed, pairwise_map]
    refine (pairwise_map.mp (fixedOverlap_eq_none_iff.mp h1)).imp fun {p q} hpq => ?_
    rw [clashes_fixed rfl rfl]
    exact hpq
  · intro a ha b hb hra hfb
    obtain ⟨p, hp, rfl⟩ := mem_map.mp (hrecursive ▸ mem_filter.mpr ⟨ha, hra⟩)
    obtain ⟨q, hq, rfl⟩ := mem_map.mp (hfixed ▸ mem_filter.mpr ⟨hb, by simpa using hfb⟩)
    have hpq := findSome?_eq_none_iff.mp
      (findSome?_eq_none_iff.mp h3 _ (mem_map_of_mem hp)) _ (mem_map_of_mem hq)
    have hclash : p.toRow.clashes q.toRow = false := by
      rw [clashes_recursive rfl]
      exact rejectIf_eq_none_iff.mp hpq
    exact ⟨hclash, clashes_comm _ _ ▸ hclash⟩

/-- Fixed-depth patterns that overlap are in one bucket, so the narrowed lookup
misses none. -/
theorem mem_bySkeleton_of_overlap {row' : PatternRow} (hmem : row ∈ patterns) (hwf : row.WellFormed)
    (hwf' : row'.WellFormed) (hfixed : row.isRecursive = false)
    (hoverlap : structurallyOverlap row.segments row'.segments = true) :
    row ∈ listAccessRulePatternsBySkeleton patterns row'.ancestorSegmentCount
      row'.literalSkeleton := by
  unfold structurallyOverlap at hoverlap
  rw [Bool.and_eq_true, decide_eq_true_iff] at hoverlap
  obtain ⟨hlen, hall⟩ := hoverlap
  have hskeleton : row.literalSkeleton = row'.literalSkeleton := by
    rw [hwf.skeleton, hwf'.skeleton, literalSkeleton, literalSkeleton,
      skeletonParts_eq_of_compatible hwf.shape.collections hwf'.shape.collections hlen hall]
  have hcount : row.ancestorSegmentCount = row'.ancestorSegmentCount := by
    rw [hwf.count, hwf'.count, hlen]
  exact mem_filter.mpr ⟨hmem, by simp [hskeleton, hcount, hfixed]⟩

/-- The rows of an accepted file are apart from every stored row they do not
replace. -/
theorem importedRows_apart_stored (h : checkPatternOverlap patterns targets = some none)
    (hwf : ∀ row ∈ importedRows targets, row.WellFormed)
    (hstored : ∀ row ∈ patterns, row.WellFormed) :
    ∀ o ∈ patterns, ∀ n ∈ importedRows targets, o.key ≠ n.key → o.clashes n = false := by
  have hfixed := importedRows_fixed targets
  have hrecursive := importedRows_recursive targets
  obtain ⟨-, -, -, h4, h5, h6⟩ := checkPatternOverlap_eq_none h hwf
  intro o ho n hn hkey
  have hoparses := (hstored o ho).parses
  unfold parse at hoparses
  rcases hnrec : n.isRecursive with _ | _
  · obtain ⟨p, hp, rfl⟩ := mem_map.mp (hfixed ▸ mem_filter.mpr ⟨hn, by simp [hnrec]⟩)
    rcases horec : o.isRecursive with _ | _
    · -- both of fixed depth: an overlap would have been met in the bucket
      rw [clashes_fixed horec rfl, ← Bool.not_eq_true]
      intro hoverlap
      have hbucket := mem_bySkeleton_of_overlap ho (hstored o ho) (hwf _ hn) horec hoverlap
      have hrow := findSomeM?_eq_some_none_iff.mp (h4 p hp) o hbucket
      have htext : o.collectionPathPattern ≠ p.collectionPathPattern := by
        intro heq
        exact hkey (Prod.ext heq (horec.trans hnrec.symm))
      rw [horec] at hoparses
      simp only [Bool.false_eq_true, if_false] at hoparses
      rw [if_neg htext, hoparses, Option.map_some, Option.some_inj, rejectIf_eq_none_iff,
        structurallyOverlap_comm] at hrow
      rw [hrow] at hoverlap
      cases hoverlap
    · have hrow := findSomeM?_eq_some_none_iff.mp (h6 _ (mem_map_of_mem hp)) o ho
      rw [horec] at hoparses
      simp only [if_true] at hoparses
      simp only [horec, not_true_eq_false, if_false] at hrow
      rw [hoparses, Option.map_some, Option.some_inj, rejectIf_eq_none_iff] at hrow
      rw [clashes_recursive horec]
      unfold ambiguous at hrow ⊢
      rw [decide_eq_false_iff_not, classifyPrefixRelation_ambiguous_comm] at hrow
      exact decide_eq_false hrow
  · obtain ⟨p, hp, rfl⟩ := mem_map.mp (hrecursive ▸ mem_filter.mpr ⟨hn, hnrec⟩)
    have hrow := findSomeM?_eq_some_none_iff.mp (h5 _ (mem_map_of_mem hp)) o ho
    have hsame : ¬(o.isRecursive = true ∧ o.collectionPathPattern = p.toRow.parsed.text) := by
      rintro ⟨horec, heq⟩
      exact hkey (Prod.ext heq (horec.trans hnrec.symm))
    rw [if_neg hsame] at hrow
    rw [clashes_comm, clashes_recursive rfl]
    rcases horec : o.isRecursive with _ | _
    · simp only [horec, Bool.false_eq_true, if_false] at hoparses hrow
      rw [hoparses, Option.map_some, Option.map_some, Option.some_inj, rejectIf_eq_none_iff] at hrow
      simpa [reach, parsed, horec] using hrow
    · simp only [horec, if_true] at hoparses hrow
      rw [hoparses, Option.map_some, Option.some_inj, rejectIf_eq_none_iff] at hrow
      simpa [reach, parsed, horec] using hrow

/-! ## Imports keep the patterns unambiguous -/

theorem segments_eq_of_key_eq (h : r.key = r'.key) :
    r.segments = r'.segments ∧ r.isRecursive = r'.isRecursive := by
  obtain ⟨htext, hrec⟩ := Prod.mk.inj h
  refine ⟨?_, hrec⟩
  unfold segments parse
  rw [htext, hrec]

theorem clashes_congr (h : r.key = r'.key) (x : PatternRow) :
    r.clashes x = r'.clashes x := by
  obtain ⟨hsegs, hrec⟩ := segments_eq_of_key_eq h
  unfold clashes reach
  rw [hsegs, hrec]

/-- One turn of the loop: a row apart from the others joins them or changes
nothing. -/
theorem importPattern_unambiguous (h : Unambiguous patterns) (hrow : row.WellFormed)
    (hapart : ∀ o ∈ patterns, o.key ≠ row.key → o.clashes row = false) :
    Unambiguous (importPattern patterns row) := by
  unfold importPattern
  split_ifs
  · exact h
  · refine ⟨fun r hr => ?_, Table.pairwise_upsertBy h.apart hapart ?_⟩
    · rcases Table.mem_upsertBy hr with rfl | hr
      · exact hrow
      · exact h.wellFormed r hr
    · intro r hr hkey x hx hclash
      rw [← clashes_congr hkey]
      exact hclash

theorem mem_importPattern
    (h : r ∈ importPattern patterns row) : r = row ∨ r ∈ patterns := by
  unfold importPattern at h
  split_ifs at h
  · exact .inr h
  · exact Table.mem_upsertBy h

/-- The whole loop, over rows apart from each other and from those they meet. -/
theorem foldl_importPattern_unambiguous {rows : List PatternRow} (h : Unambiguous patterns)
    (hrows : ∀ row ∈ rows, row.WellFormed) (hapart : rows.Pairwise fun r r' => r.clashes r' = false)
    (hstored : ∀ o ∈ patterns, ∀ n ∈ rows, o.key ≠ n.key → o.clashes n = false) :
    Unambiguous (rows.foldl importPattern patterns) := by
  induction rows generalizing patterns with
  | nil => exact h
  | cons row rows ih =>
    obtain ⟨hrow, hrest⟩ := pairwise_cons.mp hapart
    refine ih ?_ (forall_mem_cons.mp hrows).2 hrest ?_
    · exact importPattern_unambiguous h (hrows row mem_cons_self)
        fun o ho => hstored o ho row mem_cons_self
    · intro o ho n hn hkey
      rcases mem_importPattern ho with rfl | ho
      · exact hrow n hn
      · exact hstored o ho n (mem_cons_of_mem _ hn) hkey

theorem patterns_foldl_importTarget (targets : List DecomposedTarget) (rules : RuleSet) :
    (targets.foldl importTarget rules).patterns =
      (importedRows targets).foldl importPattern rules.patterns := by
  induction targets generalizing rules with
  | nil => rfl
  | cons t targets ih => cases t <;> exact ih _

/-- An accepted import keeps the patterns unambiguous. -/
theorem importRulesFile_unambiguous {rules rules' : RuleSet} {blocks : List MatchBlock}
    (h : Unambiguous rules.patterns) (himport : importRulesFile rules blocks = .imported rules') :
    Unambiguous rules'.patterns := by
  unfold importRulesFile at himport
  split at himport
  · cases himport
  · rename_i targets hdecompose
    split at himport
    · cases himport
    · cases himport
    · rename_i hcheck
      cases himport
      have hwf := decompose_wellFormed hdecompose
      rw [patterns_foldl_importTarget]
      exact foldl_importPattern_unambiguous h hwf (importedRows_apart hcheck hwf)
        (importedRows_apart_stored hcheck hwf h.wellFormed)

theorem Unambiguous.perm {patterns' : List PatternRow} (h : Unambiguous patterns)
    (hperm : patterns.Perm patterns') : Unambiguous patterns' := by
  refine ⟨fun row hrow => h.wellFormed row (hperm.mem_iff.mpr hrow), ?_⟩
  refine (hperm.pairwise_iff fun {r r'} hclash => ?_).mp h.apart
  rw [clashes_comm]
  exact hclash

/-- The patterns of a project are unambiguous after any sequence of imports. -/
theorem Imported.unambiguous {rules : RuleSet} (h : Imported rules) : Unambiguous rules.patterns := by
  induction h with
  | empty => exact ⟨by simp [RuleSet.empty], Pairwise.nil⟩
  | step _ himport ih => exact importRulesFile_unambiguous ih himport
  | reorder _ hperm ih => exact ih.perm hperm

end Embyr
