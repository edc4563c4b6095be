import Embyr.PatternRouting

/-!
# How far routing is exact

The plain reading of stored patterns says which of them match a document
(`PatternRow.matchesDocument`) and which governs it (`Governs`): one of fixed depth
if there is one, else the recursive one with the longest prefix. `RoutesExactly` says
that the router returns just that, with every path variable bound to the text at its
position.

The router parses the request's own path as a pattern, so this depends on the path.
`ReadsPlain` is the condition: on such paths unambiguous patterns are routed exactly,
but for names the governing pattern repeats (`routesExactly_iff_namesAgree`).
-/

namespace Embyr

open PatternRow PathSegment List

/-! ## The plain reading -/

/-- A row matches a document: a recursive one by its prefix, one of fixed depth by the
collection path. -/
def PatternRow.matchesDocument (collections : List String) (documentId : String)
    (row : PatternRow) : Bool :=
  if row.isRecursive then coversPrefix row.segments (collections ++ [documentId])
  else coversPath row.segments collections

/-- A row governs a document: it matches, and gives way neither to a match of fixed
depth nor to a longer prefix. -/
def Governs (patterns : List PatternRow) (collections : List String) (documentId : String)
    (row : PatternRow) : Prop :=
  row ∈ patterns ∧ row.matchesDocument collections documentId = true ∧
    (row.isRecursive = true → ∀ r ∈ patterns, r.matchesDocument collections documentId = true →
      r.isRecursive = true ∧ r.segments.length ≤ row.segments.length)

/-- The router answers with the row that governs the document and the exact bindings,
or with nothing if no row matches. -/
def RoutesExactly (patterns : List PatternRow) (collections : List String)
    (documentId : String) : Prop :=
  ∃ answer, resolveAccessRulePattern patterns (Text.join '/' collections) (some documentId) =
      .ok answer ∧
    match answer with
    | none => ∀ r ∈ patterns, r.matchesDocument collections documentId = false
    | some (row, bindings) => Governs patterns collections documentId row ∧
      BindsExactly row.segments (collections ++ [documentId]) bindings

/-- In the row that governs the document, wildcards of one name stand over one text. -/
def GoverningNamesAgree (patterns : List PatternRow) (collections : List String)
    (documentId : String) : Prop :=
  ∀ row, Governs patterns collections documentId row →
    NamesAgree row.segments (collections ++ [documentId])

/-! ## Paths the router reads as they are -/

/-- Some pattern covers the first `c` segments: the collection names among them are
read as literals. -/
def Coverable (collections : List String) (c : ℕ) : Prop :=
  CollectionsLiteral true ((collections.take c).map readSegment)

/-- The router's comparison of a prefix length with the path's, in 16 bits. -/
def CountAllows (collections : List String) (c : ℕ) : Prop :=
  Int16.ofNat c ≤ Int16.ofNat (collections.length + 1)

/-- Some prefix of length `c` gets past the router: nothing among the first `c`
segments is read as a recursive wildcard, and the count comparison passes. -/
def Reachable (collections : List String) (c : ℕ) : Prop :=
  PathSegment.recursiveWildcard ∉ (collections.take c).map readSegment ∧
    CountAllows collections c

/-- The first `c` segments are all read as literals. -/
def ReadLiterally (collections : List String) (c : ℕ) : Prop :=
  ∀ t ∈ collections.take c, readSegment t = .literal t

/-- The router reads a collection path as it is: no segment is an empty capture, and
every prefix length a pattern can cover, or the router can match, has literal segments
only and a count that compares as it should. -/
structure ReadsPlain (collections : List String) : Prop where
  noCapture : "\x7b\x7d" ∉ collections
  prefixes : ∀ c ≤ collections.length + 1, c % 2 = 0 →
    Coverable collections c ∨ Reachable collections c →
    ReadLiterally collections c ∧ CountAllows collections c

/-- A concrete path: at least one segment, none empty or with a `/`. -/
def ConcretePath (collections : List String) : Prop :=
  collections ≠ [] ∧ ∀ t ∈ collections, t ≠ "" ∧ '/' ∉ t.toList

variable {collections : List String}

/-- Plain text on a path of less than `2^15` segments is read as it is. -/
theorem readsPlain_of_literal (hliteral : ∀ t ∈ collections, readSegment t = .literal t)
    (hlen : collections.length + 1 < 2 ^ 15) : ReadsPlain collections := by
  refine ⟨fun hmem => ?_, fun c hc _ _ => ⟨fun t ht => hliteral t (mem_of_mem_take ht), ?_⟩⟩
  · have : readSegment "\x7b\x7d" = .recursiveWildcard := by rfl
    rw [hliteral _ hmem] at this
    cases this
  · unfold CountAllows
    rw [Int16.le_iff_toInt_le, Int16.toInt_ofNat_of_lt (by omega), Int16.toInt_ofNat_of_lt hlen]
    omega

/-! ## What the router reads -/

/-- The document's path as the router reads it: the document id is taken as it is. -/
def readPath (collections : List String) (documentId : String) : List PathSegment :=
  collections.map readSegment ++ [.literal documentId]

variable {documentId : String}

theorem take_readPath {c : ℕ} (h : ReadLiterally collections c) :
    (readPath collections documentId).take c =
      ((collections ++ [documentId]).map .literal).take c := by
  unfold readPath
  rw [map_append, map_singleton, take_append, take_append, length_map,
    length_map, ← map_take, ← map_take]
  congr 1
  exact map_congr_left h

variable {pattern : List PathSegment}

/-- Over literally read segments, binding is binding over the texts. -/
theorem bindSegments_readPath (h : ReadLiterally collections pattern.length) :
    bindSegments ∅ pattern (readPath collections documentId) =
      bindSegments ∅ pattern ((collections ++ [documentId]).map .literal) := by
  rw [← bindSegments_take, take_readPath h, bindSegments_take]

/-- Nothing that binds stands over a recursive wildcard. -/
theorem not_mem_take_of_bindSegments {bindings : StrMap String} {concrete : List PathSegment}
    (h : (bindSegments bindings pattern concrete).isSome = true) :
    recursiveWildcard ∉ concrete.take pattern.length := by
  induction pattern generalizing bindings concrete with
  | nil => simp
  | cons p ps ih =>
    cases concrete with
    | nil => simp
    | cons c cs =>
      rw [bindSegments] at h
      split_ifs at h with hp
      · rw [length_cons, take_succ_cons, mem_cons, not_or]
        refine ⟨?_, ih h⟩
        rintro rfl
        cases p <;> cases hp
      · cases h

/-- A path covers itself. -/
theorem coversPrefix_map_literal (texts : List String) :
    coversPrefix (texts.map .literal) texts = true := by
  induction texts with
  | nil => rfl
  | cons t ts ih => simp [coversPrefix, covers, ih]

/-- A pattern covers only literally read collection names. -/
theorem collectionsLiteral_of_coversPrefix {even : Bool} {texts : List String}
    (hcol : CollectionsLiteral even pattern) (hwritten : ∀ s ∈ pattern, s.Written)
    (hcovers : coversPrefix pattern texts = true) :
    CollectionsLiteral even ((texts.take pattern.length).map readSegment) := by
  induction pattern generalizing even texts with
  | nil => trivial
  | cons p ps ih =>
    cases texts with
    | nil => trivial
    | cons t ts =>
      rw [coversPrefix, Bool.and_eq_true] at hcovers
      refine ⟨fun heven => ?_, ih hcol.2 (forall_mem_cons.mp hwritten).2
        hcovers.2⟩
      obtain ⟨u, rfl⟩ := hcol.1 heven
      obtain rfl : u = t := by simpa [covers] using hcovers.1
      exact ⟨u, (hwritten _ mem_cons_self).readSegment_eq⟩

theorem length_skeletonParts_le (even : Bool) (segs : List PathSegment) :
    (skeletonParts even segs).length ≤ (segs.length + even.toNat) / 2 := by
  induction segs generalizing even with
  | nil => simp [skeletonParts]
  | cons s rest ih =>
    have hfalse := ih false
    have htrue := ih true
    cases even <;> cases s <;>
      simp only [skeletonParts, Bool.not_true, Bool.not_false, length_cons, Bool.toNat_true,
        Bool.toNat_false] at * <;> omega

/-- A skeleton with a literal for every collection position shows that all of them are
literals. -/
theorem collectionsLiteral_iff_length (even : Bool) (segs : List PathSegment) :
    CollectionsLiteral even segs ↔
      (skeletonParts even segs).length = (segs.length + even.toNat) / 2 := by
  induction segs generalizing even with
  | nil => cases even <;> simp [CollectionsLiteral, skeletonParts]
  | cons s rest ih =>
    have hle := length_skeletonParts_le false rest
    rw [CollectionsLiteral, ih]
    cases even with
    | false =>
      have hskip : skeletonParts false (s :: rest) = skeletonParts true rest := by cases s <;> rfl
      simp [hskip]
    | true =>
      cases s with
      | literal t =>
        simp only [skeletonParts, length_cons, Bool.not_true, Bool.toNat_true,
          Bool.toNat_false, Nat.add_zero, literal.injEq, exists_eq', implies_true,
          true_and]
        omega
      | wildcard name =>
        simp only [skeletonParts, length_cons, Bool.not_true, Bool.toNat_true,
          Bool.toNat_false, reduceCtorEq, exists_false, imp_false, not_true_eq_false,
          false_and, false_iff] at hle ⊢
        omega
      | recursiveWildcard =>
        simp only [skeletonParts, length_cons, Bool.not_true, Bool.toNat_true,
          Bool.toNat_false, reduceCtorEq, exists_false, imp_false, not_true_eq_false,
          false_and, false_iff] at hle ⊢
        omega

theorem mem_skeletonParts {even : Bool} {segs : List PathSegment} {t : String}
    (h : t ∈ skeletonParts even segs) : literal t ∈ segs := by
  induction segs generalizing even with
  | nil => cases h
  | cons s rest ih =>
    unfold skeletonParts at h
    split at h
    · rcases mem_cons.mp h with rfl | h
      · exact mem_cons_self ..
      · exact mem_cons_of_mem _ (ih h)
    · exact mem_cons_of_mem _ (ih h)

theorem PathSegment.Written.text_ne {t : String} (h : (literal t).Written) :
    t ≠ "" ∧ '/' ∉ t.toList := by
  obtain ⟨pattern, text, hslash, hparse⟩ := h
  have hrender : t = text := render_of_parseOneSegment hparse (by simp)
  exact ⟨hrender ▸ parseOneSegment_ne_empty hparse, hrender ▸ hslash⟩

/-- Equal skeletons of written segments have equal parts. -/
theorem skeletonParts_eq_of_literalSkeleton_eq {a b : List PathSegment}
    (ha : ∀ s ∈ a, s.Written) (hb : ∀ s ∈ b, s.Written) (hne : skeletonParts true a ≠ [])
    (h : literalSkeleton a = literalSkeleton b) : skeletonParts true a = skeletonParts true b := by
  unfold literalSkeleton at h
  have hpa : ∀ t ∈ skeletonParts true a, t ≠ "" ∧ '/' ∉ t.toList :=
    fun t ht => (ha _ (mem_skeletonParts ht)).text_ne
  have hpb : ∀ t ∈ skeletonParts true b, t ≠ "" ∧ '/' ∉ t.toList :=
    fun t ht => (hb _ (mem_skeletonParts ht)).text_ne
  have hneb : skeletonParts true b ≠ [] := by
    intro hnil
    obtain ⟨t, ts, hcons⟩ := exists_cons_of_ne_nil hne
    rw [hnil, hcons] at h
    exact Text.join_ne_empty (hpa t (hcons ▸ mem_cons_self ..)).1 h
  rw [← Text.split_join hne fun t ht => (hpa t ht).2, h,
    Text.split_join hneb fun t ht => (hpb t ht).2]

/-! ## Exactness, row by row -/

variable {row : PatternRow}

theorem PatternRow.WellFormed.even_of_recursive (h : row.WellFormed)
    (hrec : row.isRecursive = true) : row.segments.length % 2 = 0 := by
  have hparity := h.parity
  rw [hrec] at hparity
  simpa using hparity.symm

theorem PatternRow.WellFormed.odd_of_fixed (h : row.WellFormed)
    (hfixed : row.isRecursive = false) : row.segments.length % 2 = 1 := by
  have hparity := h.parity
  rw [hfixed] at hparity
  have : row.segments.length % 2 ≠ 0 := by simpa using hparity.symm
  omega

theorem matchesDocument_recursive (hrec : row.isRecursive = true) :
    row.matchesDocument collections documentId =
      coversPrefix row.segments (collections ++ [documentId]) := if_pos hrec

theorem matchesDocument_fixed (hfixed : row.isRecursive = false) :
    row.matchesDocument collections documentId = true ↔
      row.segments.length = collections.length ∧ coversPrefix row.segments collections = true := by
  simp [matchesDocument, coversPath, hfixed]

/-- The names a recursive row covers are read as they are. -/
theorem ReadsPlain.of_covers (hplain : ReadsPlain collections) (hwf : row.WellFormed)
    (hrec : row.isRecursive = true)
    (hcovers : coversPrefix row.segments (collections ++ [documentId]) = true) :
    row.segments.length ≤ collections.length + 1 ∧
      ReadLiterally collections row.segments.length ∧
      CountAllows collections row.segments.length := by
  have hlen := length_le_of_coversPrefix hcovers
  rw [length_append, length_singleton] at hlen
  have hcol := collectionsLiteral_of_coversPrefix hwf.shape.collections
    (fun s hs => (hwf.shape.written s hs).1) hcovers
  rw [take_append, map_append] at hcol
  exact ⟨hlen, hplain.prefixes _ hlen (hwf.even_of_recursive hrec) (.inl hcol.of_append)⟩

/-- On a path read as it is, a recursive row gets through iff it matches. -/
theorem recursive_routed_iff (hplain : ReadsPlain collections) (hwf : row.WellFormed)
    (hrec : row.isRecursive = true) :
    (CountAllows collections row.segments.length ∧
        (row.bindRecursive (readPath collections documentId)).isSome = true) ↔
      row.matchesDocument collections documentId = true := by
  have hlenPath : (readPath collections documentId).length = collections.length + 1 := by
    simp [readPath]
  unfold bindRecursive bindRecursivePrefix
  rw [matchesDocument_recursive hrec, hlenPath, Option.isSome_map]
  constructor
  · rintro ⟨hcount, hbind⟩
    split_ifs at hbind with hlong
    · cases hbind
    rw [Option.isSome_map] at hbind
    have hreach : Reachable collections row.segments.length := by
      refine ⟨fun hmem => not_mem_take_of_bindSegments hbind ?_, hcount⟩
      unfold readPath
      rw [take_append, ← map_take]
      exact mem_append_left _ hmem
    obtain ⟨hliteral, -⟩ :=
      hplain.prefixes _ (Nat.le_of_not_lt hlong) (hwf.even_of_recursive hrec) (.inr hreach)
    rw [bindSegments_readPath hliteral] at hbind
    exact (bindSegments_literal_isSome_iff (by simpa using Nat.le_of_not_lt hlong)).mp hbind
  · intro hcovers
    obtain ⟨hlen, hliteral, hcount⟩ := hplain.of_covers hwf hrec hcovers
    refine ⟨hcount, ?_⟩
    rw [if_neg (Nat.not_lt.mpr hlen), Option.isSome_map, bindSegments_readPath hliteral]
    exact (bindSegments_literal_isSome_iff (by simpa using hlen)).mpr hcovers

theorem readLiterally_of_coverable (hplain : ReadsPlain collections)
    (hodd : collections.length % 2 = 1)
    (hcol : CollectionsLiteral true (collections.map readSegment)) :
    collections.map readSegment = collections.map .literal := by
  have htake : collections.take (collections.length + 1) = collections :=
    take_of_length_le (Nat.le_succ _)
  have hcoverable : Coverable collections (collections.length + 1) := by
    unfold Coverable
    rw [htake]
    exact hcol
  obtain ⟨hliteral, -⟩ := hplain.prefixes _ le_rfl (by omega) (.inl hcoverable)
  unfold ReadLiterally at hliteral
  rw [htake] at hliteral
  exact map_congr_left hliteral

/-- The names a row of fixed depth covers are read as they are. -/
theorem ReadsPlain.of_matches (hplain : ReadsPlain collections) (hwf : row.WellFormed)
    (hfixed : row.isRecursive = false) (hlen : row.segments.length = collections.length)
    (hcovers : coversPrefix row.segments collections = true) :
    CollectionsLiteral true (collections.map readSegment) ∧
      collections.map readSegment = collections.map .literal := by
  have hcol := collectionsLiteral_of_coversPrefix hwf.shape.collections
    (fun s hs => (hwf.shape.written s hs).1) hcovers
  rw [hlen, take_length] at hcol
  exact ⟨hcol, readLiterally_of_coverable hplain (hlen ▸ hwf.odd_of_fixed hfixed) hcol⟩

/-- On a path read as it is, a row of fixed depth gets through iff it matches. -/
theorem fixed_routed_iff (hpath : ConcretePath collections) (hplain : ReadsPlain collections)
    (hwf : row.WellFormed) (hfixed : row.isRecursive = false) :
    (row.ancestorSegmentCount = Int16.ofNat collections.length ∧
        row.literalSkeleton = literalSkeleton (collections.map readSegment) ∧
        (row.bindFixed (collections.map readSegment)).isSome = true) ↔
      row.matchesDocument collections documentId = true := by
  have hodd := hwf.odd_of_fixed hfixed
  unfold bindFixed bindAncestor
  rw [matchesDocument_fixed hfixed, Option.isSome_map, length_map]
  constructor
  · rintro ⟨-, hskeleton, hbind⟩
    split_ifs at hbind with hlen
    · cases hbind
    rw [not_not] at hlen
    -- the skeleton has a part for every collection position, so all of them are literals
    have hwritten : ∀ s ∈ collections.map readSegment, s.Written := by
      intro s hs
      obtain ⟨t, ht, rfl⟩ := mem_map.mp hs
      exact written_readSegment (hpath.2 t ht).1 (hpath.2 t ht).2
        fun heq => hplain.noCapture (heq ▸ ht)
    have hcount := (collectionsLiteral_iff_length true row.segments).mp hwf.shape.collections
    have hne : skeletonParts true row.segments ≠ [] := by
      intro hnil
      rw [hnil] at hcount
      simp only [length_nil, Bool.toNat_true] at hcount
      omega
    have hparts := skeletonParts_eq_of_literalSkeleton_eq
      (fun s hs => (hwf.shape.written s hs).1) hwritten hne (hwf.skeleton.symm.trans hskeleton)
    have hcol : CollectionsLiteral true (collections.map readSegment) := by
      rw [collectionsLiteral_iff_length, ← hparts, hcount, length_map, hlen]
    rw [readLiterally_of_coverable hplain (hlen ▸ hodd) hcol] at hbind
    exact ⟨hlen, (bindSegments_literal_isSome_iff hlen.le).mp hbind⟩
  · rintro ⟨hlen, hcovers⟩
    obtain ⟨hcol, hread⟩ := hplain.of_matches hwf hfixed hlen hcovers
    have hbind : (bindSegments ∅ row.segments (collections.map .literal)).isSome = true :=
      (bindSegments_literal_isSome_iff hlen.le).mpr hcovers
    refine ⟨by rw [hwf.count, hlen], ?_, ?_⟩
    · rw [hwf.skeleton, literalSkeleton, literalSkeleton, skeletonParts_eq_of_compatible
        hwf.shape.collections hcol (by simpa using hlen)]
      rw [hread]
      exact compatible_of_coversPrefix hcovers (coversPrefix_map_literal collections)
    · rw [if_neg (not_not.mpr hlen), hread]
      exact hbind

/-! ## Exactness of the router -/

theorem overlap_of_matches {r r' : PatternRow} (h : r.matchesDocument collections documentId = true)
    (h' : r'.matchesDocument collections documentId = true) (hkind : r.isRecursive = r'.isRecursive)
    (hlen : r.isRecursive = true → r.segments.length = r'.segments.length) :
    r.clashes r' = true := by
  rcases hrec : r.isRecursive with _ | _
  · rw [matchesDocument_fixed hrec] at h
    rw [matchesDocument_fixed (hkind ▸ hrec)] at h'
    rw [clashes_fixed hrec (hkind ▸ hrec), structurallyOverlap, Bool.and_eq_true,
      decide_eq_true_eq]
    exact ⟨h.1.trans h'.1.symm, compatible_of_coversPrefix h.2 h'.2⟩
  · have hrec' : r'.isRecursive = true := hkind ▸ hrec
    rw [matchesDocument_recursive hrec] at h
    rw [matchesDocument_recursive hrec'] at h'
    rw [clashes_recursive hrec, reach, hrec', if_pos rfl, ambiguous,
      decide_eq_true_eq, classifyPrefixRelation, if_pos (hlen hrec), structurallyOverlap,
      compatible_of_coversPrefix h h', Bool.and_true, if_pos (by simpa using hlen hrec)]

variable {patterns : List PatternRow}

/-- At most one row governs a document. -/
theorem Governs.unique (hun : Unambiguous patterns) {r r' : PatternRow}
    (h : Governs patterns collections documentId r)
    (h' : Governs patterns collections documentId r') : r = r' := by
  obtain ⟨hmem, hmatch, hbest⟩ := h
  obtain ⟨hmem', hmatch', hbest'⟩ := h'
  by_contra hne
  have : Std.Symm fun r r' : PatternRow => r.clashes r' = false :=
    ⟨fun a b hab => clashes_comm a b ▸ hab⟩
  have hapart := hun.apart.forall hmem hmem' hne
  have hkind : r.isRecursive = r'.isRecursive := by
    rcases hr : r.isRecursive with _ | _
    · rcases hr' : r'.isRecursive with _ | _
      · rfl
      · exact absurd (hbest' hr' r hmem hmatch).1 (by simp [hr])
    · exact ((hbest hr r' hmem' hmatch').1).symm
  have hlen : r.isRecursive = true → r.segments.length = r'.segments.length := fun hr =>
    le_antisymm (hbest' (hkind ▸ hr) r hmem hmatch).2 (hbest hr r' hmem' hmatch').2
  rw [overlap_of_matches hmatch hmatch' hkind hlen] at hapart
  cases hapart

/-- An answer with the row that governs the document, bound over the texts of its
path, or with nothing if no row matches. -/
def GovernedAnswer (patterns : List PatternRow) (collections : List String)
    (documentId : String) : Option Route → Prop
  | none => ∀ r ∈ patterns, r.matchesDocument collections documentId = false
  | some (row, bindings) => Governs patterns collections documentId row ∧
    bindSegments ∅ row.segments ((collections ++ [documentId]).map .literal) = some bindings

/-- The first loop finds the match of fixed depth, if there is one. -/
theorem matchAncestors_governs (documentId : String) (hun : Unambiguous patterns)
    (hpath : ConcretePath collections) (hplain : ReadsPlain collections) :
    ∃ matched, matchAncestors (collections.map readSegment) none
        (listAccessRulePatternsBySkeleton patterns (Int16.ofNat collections.length)
          (literalSkeleton (collections.map readSegment))) = .ok matched ∧
      (matched = none → ∀ r ∈ patterns, r.isRecursive = false →
        r.matchesDocument collections documentId = false) ∧
      (matched ≠ none → GovernedAnswer patterns collections documentId matched) := by
  set candidates := listAccessRulePatternsBySkeleton patterns (Int16.ofNat collections.length)
    (literalSkeleton (collections.map readSegment)) with hcandidates
  have hmatches : ∀ r ∈ candidates, r.bindFixed (collections.map readSegment) ≠ none →
      r.matchesDocument collections documentId = true := by
    intro r hr hbind
    obtain ⟨hmem, ⟨hcount, hskeleton⟩, hfixed⟩ := mem_bySkeleton.mp hr
    exact (fixed_routed_iff hpath hplain (hun.wellFormed r hmem) hfixed).mp
      ⟨hcount, hskeleton, Option.isSome_iff_ne_none.mpr hbind⟩
  refine ⟨_, matchAncestors_of_apart hun fun r hr r' hr' hapart hbind => ?_, ?_, ?_⟩
  · -- two candidates that bind would both match, and clash
    have hfixed := (mem_bySkeleton.mp hr).2.2
    by_contra hbind'
    rw [overlap_of_matches (hmatches r hr hbind) (hmatches r' hr' hbind')
      (hfixed.trans (mem_bySkeleton.mp hr').2.2.symm) (by simp [hfixed])] at hapart
    cases hapart
  · intro hnone r hr hfixed
    rw [← Bool.not_eq_true]
    intro hmatch
    obtain ⟨hcount, hskeleton, hbind⟩ :=
      (fixed_routed_iff hpath hplain (hun.wellFormed r hr) hfixed).mpr hmatch
    exact Option.isSome_iff_ne_none.mp hbind (findSome?_eq_none_iff.mp hnone r
      (mem_bySkeleton.mpr ⟨hr, ⟨hcount, hskeleton⟩, hfixed⟩))
  · intro hsome
    obtain ⟨⟨row, bindings⟩, hroute⟩ := Option.ne_none_iff_exists'.mp hsome
    rw [hroute]
    obtain ⟨r, hr, hbind⟩ := exists_of_findSome?_eq_some hroute
    obtain ⟨b, hb, hrow⟩ := Option.map_eq_some_iff.mp hbind
    obtain ⟨rfl, rfl⟩ := Prod.mk.inj hrow
    obtain ⟨hmem, -, hfixed⟩ := mem_bySkeleton.mp hr
    have hmatch := hmatches r hr (by simp [hbind])
    refine ⟨⟨hmem, hmatch, by simp [hfixed]⟩, ?_⟩
    obtain ⟨hlen, hcovers⟩ := (matchesDocument_fixed hfixed).mp hmatch
    obtain ⟨-, hread⟩ := hplain.of_matches (hun.wellFormed r hmem) hfixed hlen hcovers
    unfold bindAncestor at hb
    rw [hread, if_neg (by simpa using hlen)] at hb
    rw [map_append, ← bindSegments_take, hlen, take_left' (length_map ..)]
    exact hb

/-- The second loop finds the longest recursive match, if there is one. -/
theorem matchPrefixes_governs (hun : Unambiguous patterns) (hplain : ReadsPlain collections)
    (hfixed : ∀ r ∈ patterns, r.isRecursive = false →
      r.matchesDocument collections documentId = false) :
    ∃ answer, matchPrefixes (readPath collections documentId) none
        (listRecursiveAccessRulePatternsUpTo patterns (Int16.ofNat (collections.length + 1))) =
        .ok answer ∧
      GovernedAnswer patterns collections documentId answer := by
  set candidates := listRecursiveAccessRulePatternsUpTo patterns
    (Int16.ofNat (collections.length + 1)) with hcandidates
  have hmatches : ∀ r ∈ candidates, r.bindRecursive (readPath collections documentId) ≠ none →
      r.matchesDocument collections documentId = true := by
    intro r hr hbind
    obtain ⟨hmem, hrec, hcount⟩ := mem_upTo.mp hr
    have hwf := hun.wellFormed r hmem
    rw [hwf.count] at hcount
    exact (recursive_routed_iff hplain hwf hrec).mp
      ⟨hcount, Option.isSome_iff_ne_none.mpr hbind⟩
  have hrouted : ∀ r ∈ patterns, r.matchesDocument collections documentId = true →
      r.isRecursive = true ∧ r ∈ candidates ∧
        r.bindRecursive (readPath collections documentId) ≠ none := by
    intro r hr hmatch
    have hrec : r.isRecursive = true := by
      rcases hrec : r.isRecursive with _ | _
      · rw [hfixed r hr hrec] at hmatch
        cases hmatch
      · rfl
    have hwf := hun.wellFormed r hr
    obtain ⟨hcount, hbind⟩ := (recursive_routed_iff hplain hwf hrec).mpr hmatch
    exact ⟨hrec, mem_upTo.mpr ⟨hr, hrec, hwf.count ▸ hcount⟩, Option.isSome_iff_ne_none.mp hbind⟩
  obtain ⟨result, hres, hbest⟩ := @matchPrefixes_of_apart (readPath collections documentId) patterns
    (Int16.ofNat (collections.length + 1)) hun fun r hr r' hr' hapart hbind hbind' hlen => by
      rw [overlap_of_matches (hmatches r hr hbind) (hmatches r' hr' hbind')
        ((mem_upTo.mp hr).2.1.trans (mem_upTo.mp hr').2.1.symm) fun _ => hlen] at hapart
      cases hapart
  refine ⟨_, hres, ?_⟩
  rcases result with _ | ⟨⟨row, bindings⟩, len⟩
  · intro r hr
    rw [← Bool.not_eq_true]
    intro hmatch
    obtain ⟨-, hr', hbind⟩ := hrouted r hr hmatch
    obtain ⟨y, hy, -⟩ := hbest.longest r hr' hbind
    cases hy
  · obtain hnone | ⟨r, hr, hbind, hlen⟩ := hbest.origin _ rfl
    · cases hnone
    obtain ⟨⟨b, remainder⟩, hb, hrow⟩ := Option.map_eq_some_iff.mp hbind
    obtain ⟨rfl, rfl⟩ := Prod.mk.inj hrow
    have hmatch := hmatches r hr (by simp [hbind])
    obtain ⟨hmem, hrec, -⟩ := mem_upTo.mp hr
    refine ⟨⟨hmem, hmatch, fun _ r' hr' hmatch' => ?_⟩, ?_⟩
    · obtain ⟨hrec', hr'', hbind'⟩ := hrouted r' hr' hmatch'
      obtain ⟨y, hy, hle⟩ := hbest.longest r' hr'' hbind'
      cases hy
      exact ⟨hrec', hlen ▸ hle⟩
    · rw [matchesDocument_recursive hrec] at hmatch
      obtain ⟨-, hliteral, -⟩ := hplain.of_covers (hun.wellFormed r hmem) hrec hmatch
      unfold bindRecursivePrefix at hb
      split_ifs at hb
      obtain ⟨b', hb', heq⟩ := Option.map_eq_some_iff.mp hb
      cases heq
      rw [← bindSegments_readPath hliteral]
      exact hb'

/-- What the router answers on a path read as it is: the row that governs the document,
bound over the texts of its path. -/
theorem resolve_governs (documentId : String) (hun : Unambiguous patterns)
    (hpath : ConcretePath collections) (hplain : ReadsPlain collections) :
    ∃ answer, resolveAccessRulePattern patterns (Text.join '/' collections) (some documentId) =
        .ok answer ∧
      GovernedAnswer patterns collections documentId answer := by
  have hread := parsePathSegments_concrete hpath.1 hpath.2 hplain.noCapture
  obtain ⟨matched, hmatched, hnone, hsome⟩ :=
    matchAncestors_governs documentId hun hpath hplain
  unfold resolveAccessRulePattern
  simp only [hread, length_map, hmatched, bind, Except.bind]
  rcases matched with _ | ⟨row, bindings⟩
  · obtain ⟨answer, hanswer, hspec⟩ := matchPrefixes_governs hun hplain (hnone rfl)
    refine ⟨answer, ?_, hspec⟩
    rw [← hanswer]
    simp [readPath]
  · exact ⟨_, rfl, hsome (by simp)⟩

/-- On a path read as it is, routing is exact iff names repeated in the governing
pattern stand over one text. -/
theorem routesExactly_iff_namesAgree (hun : Unambiguous patterns) (hpath : ConcretePath collections)
    (hplain : ReadsPlain collections) :
    RoutesExactly patterns collections documentId ↔
      GoverningNamesAgree patterns collections documentId := by
  obtain ⟨answer, hresolve, hspec⟩ := resolve_governs documentId hun hpath hplain
  have hlen : ∀ {row}, Governs patterns collections documentId row →
      row.segments.length ≤ (collections ++ [documentId]).length := by
    intro row hgov
    have hmatch := hgov.2.1
    rcases hrec : row.isRecursive with _ | _
    · simp [((matchesDocument_fixed hrec).mp hmatch).1]
    · exact length_le_of_coversPrefix (matchesDocument_recursive hrec ▸ hmatch)
  constructor
  · rintro ⟨answer', hresolve', hexact⟩ row hgov
    obtain rfl := Except.ok.inj (hresolve.symm.trans hresolve')
    rcases answer with _ | ⟨row', bindings⟩
    · have hmatch := hgov.2.1
      rw [hspec row hgov.1] at hmatch
      cases hmatch
    · obtain rfl := Governs.unique hun hgov hspec.1
      exact (bindsExactly_iff_namesAgree (hlen hgov) hspec.2).mp hexact.2
  · intro hagree
    refine ⟨answer, hresolve, ?_⟩
    rcases answer with _ | ⟨row, bindings⟩
    · exact hspec
    · exact ⟨hspec.1, (bindsExactly_iff_namesAgree (hlen hspec.1) hspec.2).mpr
        (hagree row hspec.1)⟩

end Embyr
