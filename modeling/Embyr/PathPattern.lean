import Embyr.Document
import Embyr.Lib.Text

/-!
# Path patterns

Segments of a rules-file path and the matching primitives built on them
(`access_control/rules_file.rs`, `access_control/path_routing.rs`).

* `parsePathSegments` — one scanner for pattern text *and* for the concrete
  collection path of a request. Text that looks like pattern syntax is read as
  such in both.
* `positionsCompatible`, `bindSegments` — the positionwise tests routing and
  overlap detection share.
* `PathSegment.covers` — the plain reading of a pattern, stated against the text of
  a concrete segment: a literal covers itself, a wildcard anything. It is what the
  primitives are for: on literal segments `bindSegments` succeeds exactly on the
  paths a pattern covers (`bindSegments_literal_isSome_iff`), and binds the names to
  the texts at their positions (`bindsExactly_iff_namesAgree`).
-/

namespace Embyr

open Text List

/-- A segment of a path pattern (`PathSegment`). -/
inductive PathSegment where
  | literal (s : String)
  | wildcard (name : String)
  | recursiveWildcard
  deriving DecidableEq

/-- A rejected `match` block (`OffendingBlock`). -/
structure OffendingBlock where
  pathPattern : String
  construct : String
  detail : String
  deriving DecidableEq

/-- `RulesFileError`, the offending blocks. -/
abbrev RulesFileError : Type := List OffendingBlock

/-- `RulesFileError::single`. -/
def RulesFileError.single {α : Type} (pattern construct detail : String) :
    Except RulesFileError α :=
  .error [⟨pattern, construct, detail⟩]

/-! ## Reading segments -/

/-- The text between the braces of a segment that has the form of a capture. -/
def captureName (seg : String) : Option String :=
  (Text.stripPrefix "\x7b" seg).bind (Text.stripSuffix "\x7d")

/-- `parse_one_segment`. -/
def parseOneSegment (pattern seg : String) : Except RulesFileError PathSegment :=
  match captureName seg with
  | some inner =>
    if Text.endsWith "=**" inner then .ok .recursiveWildcard
    else if inner.isEmpty then
      RulesFileError.single pattern "SYNTAX_ERROR" "empty path-variable name"
    else .ok (.wildcard inner)
  | none =>
    if Text.containsStr "**" seg then .ok .recursiveWildcard
    else if seg.isEmpty then RulesFileError.single pattern "SYNTAX_ERROR" "empty path segment"
    else .ok (.literal seg)

/-- `parse_path_segments`. -/
def parsePathSegments (pattern : String) : Except RulesFileError (List PathSegment) :=
  let stripped := (Text.stripPrefix "/" pattern).getD pattern
  if stripped.isEmpty then RulesFileError.single pattern "SYNTAX_ERROR" "empty match path"
  else (Text.split '/' stripped).mapM (parseOneSegment pattern)

/-- A segment as `render_ancestor_pattern` writes it. Recursive wildcards never get
there: they are split off first. -/
def PathSegment.render : PathSegment → String
  | .literal s => s
  | .wildcard name => "\x7b" ++ name ++ "\x7d"
  | .recursiveWildcard => ""

/-- `render_ancestor_pattern`. -/
def renderAncestorPattern (ancestor : List PathSegment) : String :=
  Text.join '/' (ancestor.map PathSegment.render)

/-- `validate_segment_shape`, the segments from index `i` on: literals at the
collection positions, a recursive wildcard only at the end and only at a
collection position. -/
def validateSegmentShape (pathPattern : String) (i : ℕ) :
    List PathSegment → Except RulesFileError Unit
  | [] => .ok ()
  | .recursiveWildcard :: _ :: _ =>
    RulesFileError.single pathPattern "RECURSIVE_WILDCARD_NOT_TERMINAL"
      "a recursive wildcard segment must be the pattern's own final segment"
  | [.recursiveWildcard] =>
    if i % 2 = 0 then .ok ()
    else
      RulesFileError.single pathPattern "RECURSIVE_WILDCARD_ODD_PREFIX"
        "a recursive wildcard segment must occupy an even-indexed (collection-name) position — an odd-prefix recursive wildcard is out of this feature's own locked v1 scope"
  | .wildcard _ :: rest =>
    if i % 2 = 0 then
      RulesFileError.single pathPattern "NESTED_PATH"
        "a collection-name position must be a literal segment, never a wildcard"
    else validateSegmentShape pathPattern (i + 1) rest
  | .literal _ :: rest => validateSegmentShape pathPattern (i + 1) rest

/-! ## Matching primitives -/

/-- The literals at the collection (even) positions; `even` is the parity of the
first one. -/
def skeletonParts (even : Bool) : List PathSegment → List String
  | [] => []
  | seg :: rest =>
    match even, seg with
    | true, .literal s => s :: skeletonParts false rest
    | _, _ => skeletonParts (!even) rest

/-- `literal_skeleton`. -/
def literalSkeleton (ancestor : List PathSegment) : String :=
  Text.join '/' (skeletonParts true ancestor)

/-- `positions_compatible`. -/
def positionsCompatible : PathSegment → PathSegment → Bool
  | .recursiveWildcard, _ | _, .recursiveWildcard => false
  | .literal x, .literal y => x = y
  | .wildcard _, _ | _, .wildcard _ => true

/-- `structurally_overlap`. -/
def structurallyOverlap (a b : List PathSegment) : Bool :=
  a.length = b.length && (a.zip b).all fun (x, y) => positionsCompatible x y

/-- The binding one position contributes. -/
def bindPosition (bindings : StrMap String) : PathSegment → PathSegment → StrMap String
  | .wildcard name, .literal value => bindings.insert name value
  | _, _ => bindings

/-- The loop of `bind_ancestor` and `bind_recursive_prefix`, over the zipped
positions. -/
def bindSegments (bindings : StrMap String) :
    List PathSegment → List PathSegment → Option (StrMap String)
  | p :: ps, c :: cs =>
    if positionsCompatible p c then bindSegments (bindPosition bindings p c) ps cs else none
  | _, _ => some bindings

/-- `bind_ancestor`. -/
def bindAncestor (pattern concrete : List PathSegment) : Option (StrMap String) :=
  if pattern.length ≠ concrete.length then none else bindSegments ∅ pattern concrete

/-- `bind_recursive_prefix`: the bindings and how many segments remain. -/
def bindRecursivePrefix (pre concrete : List PathSegment) : Option (StrMap String × ℕ) :=
  if concrete.length < pre.length then none
  else (bindSegments ∅ pre concrete).map fun bindings => (bindings, concrete.length - pre.length)

/-- `generalizes`. -/
def generalizes : PathSegment → PathSegment → Bool
  | .literal x, .literal y => x = y
  | .wildcard _, _ => true
  | _, _ => false

/-- `fixed_depth_full_reach`. -/
def fixedDepthFullReach (ancestor : List PathSegment) : List PathSegment :=
  ancestor ++ [.wildcard ""]

/-- `PrefixRelation`. -/
inductive PrefixRelation where
  | disjoint
  | contains (deeperIsB : Bool)
  | ambiguousOverlap
  deriving DecidableEq

/-- `classify_prefix_relation`. -/
def classifyPrefixRelation (a b : List PathSegment) : PrefixRelation :=
  if a.length = b.length then
    if structurallyOverlap a b then .ambiguousOverlap else .disjoint
  else
    let (shorter, longer, deeperIsB) :=
      if a.length < b.length then (a, b, true) else (b, a, false)
    if (shorter.zip longer).all fun (g, s) => generalizes g s then .contains deeperIsB
    else if (shorter.zip longer).all fun (x, y) => positionsCompatible x y then .ambiguousOverlap
    else .disjoint

/-! ## Reading back what was written -/

variable {seg : String}

theorem captureName_eq_some_iff {inner : String} :
    captureName seg = some inner ↔ seg = "\x7b" ++ inner ++ "\x7d" := by
  unfold captureName
  constructor
  · intro h
    obtain ⟨rest, hpre, hsuf⟩ := Option.bind_eq_some_iff.mp h
    rw [stripPrefix_eq_some_iff] at hpre
    rw [stripSuffix_eq_some_iff] at hsuf
    rw [hpre, hsuf, String.append_assoc]
  · rintro rfl
    rw [Option.bind_eq_some_iff]
    refine ⟨inner ++ "\x7d", ?_, stripSuffix_eq_some_iff.mpr rfl⟩
    rw [stripPrefix_eq_some_iff, String.append_assoc]

variable {s : PathSegment}

/-- What `parse_one_segment` reads does not depend on the pattern it reports in
errors. -/
theorem parseOneSegment_congr {pattern pattern' : String}
    (h : parseOneSegment pattern seg = .ok s) : parseOneSegment pattern' seg = .ok s := by
  unfold parseOneSegment at h ⊢
  split at h
  · split_ifs at h ⊢ with hrec hempty
    · exact h
    · cases h
    · exact h
  · split_ifs at h ⊢ with hrec hempty
    · exact h
    · cases h
    · exact h

/-- Rendering gives back the text a literal or a capture was read from. -/
theorem render_of_parseOneSegment {pattern : String} (h : parseOneSegment pattern seg = .ok s)
    (hs : s ≠ .recursiveWildcard) :
    s.render = seg := by
  unfold parseOneSegment at h
  split at h
  · rename_i inner hinner
    split_ifs at h with hrec hempty
    · exact absurd (Except.ok.inj h).symm hs
    · cases h
    · cases h
      exact (captureName_eq_some_iff.mp hinner).symm
  · split_ifs at h with hrec hempty
    · exact absurd (Except.ok.inj h).symm hs
    · cases h
    · cases h
      rfl

theorem parseOneSegment_ne_empty {pattern : String}
    (h : parseOneSegment pattern seg = .ok s) : seg ≠ "" := by
  rintro rfl
  have : parseOneSegment pattern "" =
      RulesFileError.single pattern "SYNTAX_ERROR" "empty path segment" := by rfl
  rw [this] at h
  cases h

/-- A segment some text of a path is read as. -/
def PathSegment.Written (s : PathSegment) : Prop :=
  ∃ pattern text : String, '/' ∉ text.toList ∧ parseOneSegment pattern text = .ok s

variable {texts : List String}

/-- Reading a path of non-empty segments reads each of them. -/
theorem parsePathSegments_join (hne : texts ≠ []) (htexts : ∀ t ∈ texts, t ≠ "" ∧ '/' ∉ t.toList) :
    parsePathSegments (join '/' texts) =
      texts.mapM (parseOneSegment (join '/' texts)) := by
  obtain ⟨t, ts, rfl⟩ := exists_cons_of_ne_nil hne
  obtain ⟨hempty, hslash⟩ := htexts t mem_cons_self
  have hstrip : stripPrefix "/" (join '/' (t :: ts)) = none := by
    exact stripPrefix_join_eq_none hempty hslash
  have hjoin : join '/' (t :: ts) ≠ "" := join_ne_empty hempty
  unfold parsePathSegments
  rw [hstrip, Option.getD_none]
  simp only [String.isEmpty_iff, hjoin, if_false]
  rw [split_join hne fun p hp => (htexts p hp).2]

variable {segs : List PathSegment}

/-- A rendered ancestor or prefix reads back as the segments it was rendered from. -/
theorem parsePathSegments_render (hne : segs ≠ [])
    (hsegs : ∀ s ∈ segs, s.Written ∧ s ≠ .recursiveWildcard) :
    parsePathSegments (renderAncestorPattern segs) = .ok segs := by
  have hread : ∀ s ∈ segs, s.render ≠ "" ∧ '/' ∉ s.render.toList ∧
      ∀ pattern, parseOneSegment pattern s.render = .ok s := by
    intro s hs
    obtain ⟨⟨pattern, text, hslash, hparse⟩, hrec⟩ := hsegs s hs
    rw [render_of_parseOneSegment hparse hrec]
    exact ⟨parseOneSegment_ne_empty hparse, hslash, fun _ => parseOneSegment_congr hparse⟩
  unfold renderAncestorPattern
  rw [parsePathSegments_join (by simpa using hne) (by
    intro t ht
    obtain ⟨s, hs, rfl⟩ := mem_map.mp ht
    exact ⟨(hread s hs).1, (hread s hs).2.1⟩)]
  generalize join '/' (segs.map PathSegment.render) = pattern
  clear hne
  induction segs with
  | nil => rfl
  | cons s segs ih =>
    have hs := (hread s mem_cons_self).2.2 pattern
    have ih' := ih (forall_mem_cons.mp hsegs).2
      (forall_mem_cons.mp hread).2
    rw [map_cons, mapM_cons, hs, ih']
    rfl

/-! ## Reading a concrete path -/

/-- What a segment's text is read as. Two texts are not read at all, and stand for
nothing here: the empty one and the empty capture. -/
def readSegment (text : String) : PathSegment :=
  match parseOneSegment text text with
  | .ok s => s
  | .error _ => .recursiveWildcard

variable {text : String}

theorem parseOneSegment_of_ne {pattern : String} (hempty : text ≠ "")
    (hcapture : text ≠ "\x7b\x7d") : parseOneSegment pattern text = .ok (readSegment text) := by
  have hread : ∃ s, parseOneSegment text text = .ok s := by
    unfold parseOneSegment
    rcases hname : captureName text with _ | inner
    · simp only
      split_ifs with hrec hnil
      · exact ⟨_, rfl⟩
      · exact absurd (String.isEmpty_iff.mp hnil) hempty
      · exact ⟨_, rfl⟩
    · simp only
      split_ifs with hrec hnil
      · exact ⟨_, rfl⟩
      · obtain rfl := String.isEmpty_iff.mp hnil
        exact absurd (captureName_eq_some_iff.mp hname) hcapture
      · exact ⟨_, rfl⟩
  obtain ⟨s, hs⟩ := hread
  have : readSegment text = s := by unfold readSegment; rw [hs]
  rw [this]
  exact parseOneSegment_congr hs

/-- A concrete path is read segment by segment. -/
theorem parsePathSegments_concrete (hne : texts ≠ [])
    (htexts : ∀ t ∈ texts, t ≠ "" ∧ '/' ∉ t.toList) (hcapture : "\x7b\x7d" ∉ texts) :
    parsePathSegments (join '/' texts) = .ok (texts.map readSegment) := by
  rw [parsePathSegments_join hne htexts]
  generalize join '/' texts = pattern
  clear hne
  induction texts with
  | nil => rfl
  | cons t texts ih =>
    have ht : t ≠ "\x7b\x7d" := fun h => hcapture (h ▸ mem_cons_self ..)
    have hread : parseOneSegment pattern t = .ok (readSegment t) :=
      parseOneSegment_of_ne (htexts t mem_cons_self).1 ht
    have ih' := ih (forall_mem_cons.mp htexts).2
      (fun h => hcapture (mem_cons_of_mem _ h))
    rw [mapM_cons, hread, ih']
    rfl

/-- A path with an empty capture in it is not read. -/
theorem parsePathSegments_capture (htexts : ∀ t ∈ texts, t ≠ "" ∧ '/' ∉ t.toList)
    (hcapture : "\x7b\x7d" ∈ texts) :
    ∃ e, parsePathSegments (join '/' texts) = .error e := by
  rw [parsePathSegments_join (ne_nil_of_mem hcapture) htexts]
  generalize join '/' texts = pattern
  induction texts with
  | nil => cases hcapture
  | cons t texts ih =>
    rw [mapM_cons]
    rcases hread : parseOneSegment pattern t with e | s
    · exact ⟨e, rfl⟩
    · have hmem : "\x7b\x7d" ∈ texts := by
        rcases mem_cons.mp hcapture with rfl | h
        · have : parseOneSegment pattern "\x7b\x7d" =
              RulesFileError.single pattern "SYNTAX_ERROR" "empty path-variable name" := rfl
          rw [this] at hread
          cases hread
        · exact h
      obtain ⟨e, he⟩ := ih (forall_mem_cons.mp htexts).2 hmem
      exact ⟨e, by rw [he]; rfl⟩

/-- Text that is read as a literal is read as itself. -/
theorem eq_of_readSegment_literal {t : String} (h : readSegment text = .literal t) :
    t = text := by
  unfold readSegment at h
  split at h
  · rename_i s hs
    subst h
    exact render_of_parseOneSegment hs (by simp)
  · cases h

theorem written_readSegment (hempty : text ≠ "") (hslash : '/' ∉ text.toList)
    (hcapture : text ≠ "\x7b\x7d") : (readSegment text).Written :=
  ⟨text, text, hslash, parseOneSegment_of_ne hempty hcapture⟩

/-- A written literal reads back as a literal. -/
theorem PathSegment.Written.readSegment_eq {t : String} (h : (PathSegment.literal t).Written) :
    readSegment t = .literal t := by
  obtain ⟨pattern, text, -, hparse⟩ := h
  have hrender := render_of_parseOneSegment hparse (by simp)
  unfold readSegment
  rw [show text = t from hrender.symm] at hparse
  rw [parseOneSegment_congr hparse]

/-! ## Shapes -/

/-- Literals at the collection positions; `even` is the parity of the first one. -/
def CollectionsLiteral (even : Bool) : List PathSegment → Prop
  | [] => True
  | s :: rest => (even = true → ∃ t, s = .literal t) ∧ CollectionsLiteral (!even) rest

variable {a b : List PathSegment}

theorem CollectionsLiteral.of_append {even : Bool}
    (h : CollectionsLiteral even (a ++ b)) : CollectionsLiteral even a := by
  induction a generalizing even with
  | nil => trivial
  | cons s a ih => exact ⟨h.1, ih h.2⟩

/-- The segments of a stored pattern: written, not recursive, and literal at the
collection positions. -/
structure PatternShape (segs : List PathSegment) : Prop where
  written : ∀ s ∈ segs, s.Written ∧ s ≠ .recursiveWildcard
  collections : CollectionsLiteral true segs

theorem PatternShape.dropLast (h : PatternShape segs) :
    PatternShape segs.dropLast := by
  refine ⟨fun s hs => h.written s (mem_of_mem_dropLast hs), ?_⟩
  rcases eq_nil_or_concat' segs with rfl | ⟨init, last, rfl⟩
  · trivial
  · rw [dropLast_concat]
    exact h.collections.of_append

variable {pathPattern : String} {i : ℕ}

/-- What the shape check says of the first segment and the rest. -/
theorem validateSegmentShape_cons {rest : List PathSegment}
    (h : validateSegmentShape pathPattern i (s :: rest) = .ok ()) :
    (s = .recursiveWildcard ∧ rest = [] ∧ i % 2 = 0) ∨
      (s ≠ .recursiveWildcard ∧ (i % 2 = 0 → ∃ t, s = .literal t) ∧
        validateSegmentShape pathPattern (i + 1) rest = .ok ()) := by
  cases s with
  | literal t => exact .inr ⟨by simp, fun _ => ⟨t, rfl⟩, h⟩
  | wildcard name =>
    rw [validateSegmentShape] at h
    split_ifs at h with hi
    · cases h
    · exact .inr ⟨by simp, fun heven => absurd heven hi, h⟩
  | recursiveWildcard =>
    rcases rest with _ | ⟨s', rest⟩
    · rw [validateSegmentShape] at h
      split_ifs at h with hi
      · exact .inl ⟨rfl, rfl, hi⟩
      · cases h
    · cases h

private theorem parity_succ (i : ℕ) : ((i + 1) % 2 == 0) = !(i % 2 == 0) := by
  rcases Nat.mod_two_eq_zero_or_one i with hi | hi <;> simp [Nat.add_mod, hi]

/-- The shape check leaves a recursive wildcard only at the end, at a collection
position, after a pattern shape. -/
theorem validateSegmentShape_recursive (h : validateSegmentShape pathPattern i segs = .ok ())
    (hlast : segs.getLast? = some .recursiveWildcard) :
    (∀ s ∈ segs.dropLast, s ≠ .recursiveWildcard) ∧
      CollectionsLiteral (i % 2 == 0) segs.dropLast ∧ (i + segs.length) % 2 = 1 := by
  induction segs generalizing i with
  | nil => cases hlast
  | cons s rest ih =>
    rcases validateSegmentShape_cons h with ⟨rfl, rfl, hi⟩ | ⟨hs, hlit, hrest⟩
    · refine ⟨by simp, trivial, ?_⟩
      simp only [length_singleton]
      omega
    · have hne : rest ≠ [] := by
        rintro rfl
        exact hs (by simpa using hlast)
      have hlast' : rest.getLast? = some .recursiveWildcard := by
        rwa [getLast?_cons_of_ne_nil hne] at hlast
      obtain ⟨hrec, hcol, hlen⟩ := ih hrest hlast'
      rw [dropLast_cons_of_ne_nil hne]
      refine ⟨?_, ⟨fun heven => hlit (by simpa using heven), parity_succ i ▸ hcol⟩, ?_⟩
      · intro x hx
        rcases mem_cons.mp hx with rfl | hx
        · exact hs
        · exact hrec x hx
      · simp only [length_cons]
        omega

/-- Without a recursive wildcard at the end, the shape check leaves a pattern shape. -/
theorem validateSegmentShape_fixed (h : validateSegmentShape pathPattern i segs = .ok ())
    (hlast : segs.getLast? ≠ some .recursiveWildcard) :
    (∀ s ∈ segs, s ≠ .recursiveWildcard) ∧ CollectionsLiteral (i % 2 == 0) segs := by
  induction segs generalizing i with
  | nil => exact ⟨by simp, trivial⟩
  | cons s rest ih =>
    rcases validateSegmentShape_cons h with ⟨rfl, rfl, hi⟩ | ⟨hs, hlit, hrest⟩
    · exact absurd rfl hlast
    · have hlast' : rest.getLast? ≠ some .recursiveWildcard := by
        rcases rest with _ | ⟨s', rest⟩
        · simp
        · rwa [getLast?_cons_cons] at hlast
      obtain ⟨hrec, hcol⟩ := ih hrest hlast'
      refine ⟨?_, fun heven => hlit (by simpa using heven), parity_succ i ▸ hcol⟩
      intro x hx
      rcases mem_cons.mp hx with rfl | hx
      · exact hs
      · exact hrec x hx

/-! ## Overlap -/

theorem positionsCompatible_comm (x y : PathSegment) :
    positionsCompatible x y = positionsCompatible y x := by
  cases x <;> cases y <;> simp [positionsCompatible, eq_comm]

theorem zip_all_compatible_comm (a b : List PathSegment) :
    ((a.zip b).all fun (x, y) => positionsCompatible x y) =
      (b.zip a).all fun (x, y) => positionsCompatible x y := by
  induction a generalizing b with
  | nil => simp
  | cons x a ih =>
    cases b with
    | nil => rfl
    | cons y b =>
      rw [zip_cons_cons, zip_cons_cons, all_cons, all_cons, ih b]
      exact congrArg (· && _) (positionsCompatible_comm x y)

theorem structurallyOverlap_comm (a b : List PathSegment) :
    structurallyOverlap a b = structurallyOverlap b a := by
  unfold structurallyOverlap
  rw [zip_all_compatible_comm]
  simp [eq_comm]

/-- Ambiguity does not depend on the order of the two prefixes. -/
theorem classifyPrefixRelation_ambiguous_comm (a b : List PathSegment) :
    classifyPrefixRelation a b = .ambiguousOverlap ↔
      classifyPrefixRelation b a = .ambiguousOverlap := by
  unfold classifyPrefixRelation
  rcases lt_trichotomy a.length b.length with hlt | heq | hgt
  · simp only [hlt.ne, hlt.ne', hlt, hlt.not_gt, if_true, if_false]
    split_ifs <;> simp
  · simp only [heq, if_true, structurallyOverlap_comm a b]
  · simp only [hgt.ne, hgt.ne', hgt, hgt.not_gt, if_true, if_false]
    split_ifs <;> simp

/-- Overlapping segments with literals at the collection positions have the same
literals there. -/
theorem skeletonParts_eq_of_compatible {even : Bool} (ha : CollectionsLiteral even a)
    (hb : CollectionsLiteral even b) (hlen : a.length = b.length)
    (hall : ((a.zip b).all fun (x, y) => positionsCompatible x y) = true) :
    skeletonParts even a = skeletonParts even b := by
  induction a generalizing even b with
  | nil =>
    obtain rfl : b = [] := length_eq_zero_iff.mp hlen.symm
    rfl
  | cons x a ih =>
    obtain ⟨y, b, rfl⟩ := exists_cons_of_length_eq_add_one hlen.symm
    rw [zip_cons_cons, all_cons, Bool.and_eq_true] at hall
    have ih' := ih ha.2 hb.2 (by simpa using hlen) hall.2
    cases even with
    | false => simpa [skeletonParts] using ih'
    | true =>
      obtain ⟨t, rfl⟩ := ha.1 rfl
      obtain ⟨u, rfl⟩ := hb.1 rfl
      obtain rfl : t = u := by simpa [positionsCompatible] using hall.1
      simpa [skeletonParts] using ih'

/-! ## The plain reading of a pattern -/

/-- A literal covers its own text, a wildcard any one text. -/
def PathSegment.covers : PathSegment → String → Bool
  | .literal s, t => s = t
  | .wildcard _, _ => true
  | .recursiveWildcard, _ => false

/-- A pattern covers the first segments of a path. -/
def coversPrefix : List PathSegment → List String → Bool
  | [], _ => true
  | p :: ps, t :: ts => p.covers t && coversPrefix ps ts
  | _ :: _, [] => false

/-- A pattern covers a path of its own length. -/
def coversPath (pattern : List PathSegment) (texts : List String) : Bool :=
  pattern.length = texts.length && coversPrefix pattern texts

/-- Every wildcard name is bound to the text at its position, and nothing else is
bound. -/
def BindsExactly (pattern : List PathSegment) (texts : List String)
    (bindings : StrMap String) : Prop :=
  ∀ name text, bindings[name]? = some text ↔
    ∃ i : ℕ, pattern[i]? = some (.wildcard name) ∧ texts[i]? = some text

/-- Wildcards that share a name stand over the same text. -/
def NamesAgree (pattern : List PathSegment) (texts : List String) : Prop :=
  ∀ (i j : ℕ) (name : String), pattern[i]? = some (.wildcard name) →
    pattern[j]? = some (.wildcard name) → texts[i]? = texts[j]?

variable {pattern : List PathSegment}

theorem length_le_of_coversPrefix
    (h : coversPrefix pattern texts = true) : pattern.length ≤ texts.length := by
  induction pattern generalizing texts with
  | nil => exact Nat.zero_le _
  | cons p ps ih =>
    cases texts with
    | nil => cases h
    | cons t ts =>
      rw [coversPrefix, Bool.and_eq_true] at h
      exact Nat.succ_le_succ (ih h.2)

/-- Two patterns that cover one path overlap as far as both go. -/
theorem compatible_of_coversPrefix (ha : coversPrefix a texts = true)
    (hb : coversPrefix b texts = true) :
    ((a.zip b).all fun (x, y) => positionsCompatible x y) = true := by
  induction a generalizing b texts with
  | nil => rfl
  | cons x a ih =>
    cases b with
    | nil => rfl
    | cons y b =>
      cases texts with
      | nil => cases ha
      | cons t ts =>
        rw [coversPrefix, Bool.and_eq_true] at ha hb
        rw [zip_cons_cons, all_cons, Bool.and_eq_true]
        refine ⟨?_, ih ha.2 hb.2⟩
        have hx := ha.1
        have hy := hb.1
        cases x <;> cases y <;> simp_all [positionsCompatible, PathSegment.covers]

theorem bindSegments_take (bindings : StrMap String) (pattern concrete : List PathSegment) :
    bindSegments bindings pattern (concrete.take pattern.length) =
      bindSegments bindings pattern concrete := by
  induction pattern generalizing bindings concrete with
  | nil => cases concrete <;> rfl
  | cons p ps ih =>
    cases concrete with
    | nil => rfl
    | cons c cs =>
      rw [length_cons, take_succ_cons, bindSegments, bindSegments]
      split_ifs
      · exact ih _ _
      · rfl

theorem compatible_literal (p : PathSegment) (t : String) :
    positionsCompatible p (.literal t) = p.covers t := by
  cases p <;> rfl

variable {bindings : StrMap String}

/-- On a path of literals, binding succeeds exactly where the pattern covers. -/
theorem bindSegments_literal_isSome_iff (hlen : pattern.length ≤ texts.length) :
    (bindSegments bindings pattern (texts.map .literal)).isSome ↔
      coversPrefix pattern texts = true := by
  induction pattern generalizing bindings texts with
  | nil => cases texts <;> simp [bindSegments, coversPrefix]
  | cons p ps ih =>
    obtain ⟨t, ts, rfl⟩ := exists_cons_of_length_pos (Nat.lt_of_lt_of_le (by simp) hlen)
    rw [map_cons, bindSegments, coversPrefix, Bool.and_eq_true, compatible_literal]
    split_ifs with hp
    · rw [ih (by simpa using hlen)]
      simp [hp]
    · simp [hp]

/-- What binding over literals leaves under a name: the text of one of its positions,
or what was there before if it has none. -/
theorem lookup_bindSegments_literal {bindings' : StrMap String}
    (hlen : pattern.length ≤ texts.length)
    (h : bindSegments bindings pattern (texts.map .literal) = some bindings') (name : String) :
    (∃ (j : ℕ) (t : String), pattern[j]? = some (.wildcard name) ∧ texts[j]? = some t ∧
        bindings'[name]? = some t) ∨
      ((∀ j : ℕ, pattern[j]? ≠ some (.wildcard name)) ∧ bindings'[name]? = bindings[name]?) := by
  induction pattern generalizing bindings texts with
  | nil =>
    refine .inr ⟨by simp, ?_⟩
    cases texts <;> (obtain rfl := Option.some.inj h; rfl)
  | cons p ps ih =>
    obtain ⟨t, ts, rfl⟩ := exists_cons_of_length_pos (Nat.lt_of_lt_of_le (by simp) hlen)
    rw [map_cons, bindSegments] at h
    split_ifs at h with hp
    rcases ih (by simpa using hlen) h with ⟨j, u, hj, hu, hb⟩ | ⟨hnone, hb⟩
    · exact .inl ⟨j + 1, u, by simpa using hj, by simpa using hu, hb⟩
    · by_cases hname : p = .wildcard name
      · subst hname
        refine .inl ⟨0, t, rfl, rfl, ?_⟩
        rw [hb]
        simp [bindPosition]
      · refine .inr ⟨?_, ?_⟩
        · intro j
          cases j with
          | zero => simpa using hname
          | succ j => simpa using hnone j
        · rw [hb]
          cases p with
          | wildcard n =>
            have hn : n ≠ name := fun h => hname (h ▸ rfl)
            simp [bindPosition, Std.ExtTreeMap.getElem?_insert, hn]
          | literal s => rfl
          | recursiveWildcard => rfl

/-- Over literals, the bindings are exact iff wildcards that share a name stand over
the same text: the last of them wins. -/
theorem bindsExactly_iff_namesAgree (hlen : pattern.length ≤ texts.length)
    (h : bindSegments ∅ pattern (texts.map .literal) = some bindings) :
    BindsExactly pattern texts bindings ↔ NamesAgree pattern texts := by
  have htext : ∀ {i : ℕ} {name : String}, pattern[i]? = some (.wildcard name) →
      ∃ t, texts[i]? = some t := by
    intro i name hi
    obtain ⟨hlt, -⟩ := List.getElem?_eq_some_iff.mp hi
    exact ⟨_, List.getElem?_eq_getElem (Nat.lt_of_lt_of_le hlt hlen)⟩
  constructor
  · intro hexact i j name hi hj
    obtain ⟨t, ht⟩ := htext hi
    obtain ⟨u, hu⟩ := htext hj
    have hbt := (hexact name t).mpr ⟨i, hi, ht⟩
    have hbu := (hexact name u).mpr ⟨j, hj, hu⟩
    rw [ht, hu, ← hbt, ← hbu]
  · intro hagree name text
    rcases lookup_bindSegments_literal hlen h name with ⟨j, t, hj, ht, hb⟩ | ⟨hnone, hb⟩
    · rw [hb]
      constructor
      · rintro ⟨rfl⟩
        exact ⟨j, hj, ht⟩
      · rintro ⟨i, hi, htext⟩
        rw [← ht, ← htext]
        exact hagree j i name hj hi
    · rw [hb]
      constructor
      · intro hempty
        simp at hempty
      · rintro ⟨i, hi, -⟩
        exact absurd hi (hnone i)

end Embyr
