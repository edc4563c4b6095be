import Embyr.RoutingExactness

/-!
# What patterns reach

The tests on patterns (`structurallyOverlap`, `classifyPrefixRelation`, `literalSkeleton`) compare
segments position by position. Here they are compared with what they stand for: sets of paths.

* `Routable` — the shape of ancestors and prefixes.
* `commonPath` — a path that two compatible patterns share; `stray` — a path of the one that leaves
  the other wherever it can.
* `prefix_relation_exact` — the classification of two recursive prefixes is inclusion, disjointness
  or neither of what they reach.
* `overlap_exact` — overlap is a shared path, and the index narrows to the patterns that can match.
-/

namespace Embyr

open PathSegment

/-- Literals at the collection positions, literals or wildcards at the others. -/
structure Routable (segs : List PathSegment) : Prop where
  collections : CollectionsLiteral true segs
  fixed : ∀ s ∈ segs, s ≠ .recursiveWildcard

/-! ## Paths for two patterns -/

/-- The text of a literal; for a wildcard any would do. -/
def PathSegment.sample : PathSegment → String
  | .literal t => t
  | .wildcard _ | .recursiveWildcard => ""

theorem PathSegment.covers_sample {s : PathSegment} (h : s ≠ .recursiveWildcard) :
    s.covers s.sample = true := by
  cases s with
  | literal t => exact decide_eq_true rfl
  | wildcard name => rfl
  | recursiveWildcard => exact absurd rfl h

/-- A text for two compatible positions. -/
def PathSegment.meet : PathSegment → PathSegment → String
  | .literal t, _ => t
  | _, s => s.sample

theorem PathSegment.covers_meet {x y : PathSegment} (h : positionsCompatible x y = true) :
    x.covers (x.meet y) = true ∧ y.covers (x.meet y) = true := by
  cases x with
  | literal t =>
    refine ⟨decide_eq_true rfl, ?_⟩
    cases y with
    | literal u => exact decide_eq_true (of_decide_eq_true h).symm
    | wildcard name => rfl
    | recursiveWildcard => cases h
  | wildcard name =>
    refine ⟨rfl, covers_sample ?_⟩
    rintro rfl
    cases h
  | recursiveWildcard => cases h

/-- A path that both patterns reach, as long as the longer one. -/
def commonPath : List PathSegment → List PathSegment → List String
  | [], b => b.map PathSegment.sample
  | a, [] => a.map PathSegment.sample
  | x :: a, y :: b => x.meet y :: commonPath a b

theorem length_commonPath (a b : List PathSegment) :
    (commonPath a b).length = max a.length b.length := by
  induction a generalizing b with
  | nil => simp [commonPath]
  | cons x a ih =>
    cases b with
    | nil => simp [commonPath]
    | cons y b => rw [commonPath, List.length_cons, ih, List.length_cons, List.length_cons,
        Nat.add_max_add_right]

theorem coversPrefix_sample {segs : List PathSegment} (h : ∀ s ∈ segs, s ≠ .recursiveWildcard) :
    coversPrefix segs (segs.map sample) = true := by
  induction segs with
  | nil => rfl
  | cons s segs ih =>
    rw [List.map_cons, coversPrefix, covers_sample (h s List.mem_cons_self),
      Bool.true_and]
    exact ih (List.forall_mem_cons.mp h).2

variable {a b : List PathSegment}

theorem coversPrefix_commonPath (ha : ∀ s ∈ a, s ≠ .recursiveWildcard)
    (hb : ∀ s ∈ b, s ≠ .recursiveWildcard)
    (h : ((a.zip b).all fun (x, y) => positionsCompatible x y) = true) :
    coversPrefix a (commonPath a b) = true ∧ coversPrefix b (commonPath a b) = true := by
  induction a generalizing b with
  | nil => exact ⟨rfl, by rw [commonPath]; exact coversPrefix_sample hb⟩
  | cons x a ih =>
    cases b with
    | nil => exact ⟨by rw [commonPath]; exact coversPrefix_sample ha; nofun, rfl⟩
    | cons y b =>
      rw [List.zip_cons_cons, List.all_cons, Bool.and_eq_true] at h
      obtain ⟨hx, hy⟩ := covers_meet h.1
      obtain ⟨hxs, hys⟩ := ih (List.forall_mem_cons.mp ha).2
        (List.forall_mem_cons.mp hb).2 h.2
      rw [commonPath, coversPrefix, coversPrefix, hx, hy, hxs, hys]
      exact ⟨rfl, rfl⟩

/-- A text that `specific` covers, and `general` only if it has to. -/
def PathSegment.stray : PathSegment → PathSegment → String
  | .literal t, .wildcard _ => t.push 'x'
  | _, specific => specific.sample

variable {general specific : PathSegment}

theorem PathSegment.covers_stray
    (h : specific ≠ .recursiveWildcard) : specific.covers (general.stray specific) = true := by
  cases specific with
  | literal t => cases general <;> exact decide_eq_true rfl
  | wildcard name => rfl
  | recursiveWildcard => exact absurd rfl h

theorem generalizes_of_covers_stray (h : general.covers (general.stray specific) = true)
    (hspecific : specific ≠ .recursiveWildcard) : generalizes general specific = true := by
  cases general with
  | wildcard name => rfl
  | recursiveWildcard => cases h
  | literal t =>
    cases specific with
    | literal u => exact h
    | wildcard name =>
      have hlength := congrArg String.length (of_decide_eq_true h)
      rw [stray, String.length_push] at hlength
      omega
    | recursiveWildcard => exact absurd rfl hspecific

theorem covers_of_generalizes {t : String} (h : generalizes general specific = true)
    (ht : specific.covers t = true) :
    general.covers t = true := by
  cases general with
  | wildcard name => rfl
  | recursiveWildcard => cases h
  | literal u =>
    cases specific with
    | literal v => exact decide_eq_true ((of_decide_eq_true h).trans (of_decide_eq_true ht))
    | wildcard | recursiveWildcard => cases h

/-- A path of the longer pattern that leaves the shorter one where it can. -/
def strayPath : List PathSegment → List PathSegment → List String
  | g :: shorter, s :: longer => g.stray s :: strayPath shorter longer
  | _, longer => longer.map PathSegment.sample

variable {longer shorter : List PathSegment}

theorem coversPrefix_strayPath (h : ∀ s ∈ longer, s ≠ .recursiveWildcard) :
    coversPrefix longer (strayPath shorter longer) = true := by
  induction longer generalizing shorter with
  | nil => rfl
  | cons s longer ih =>
    cases shorter with
    | nil => exact coversPrefix_sample h
    | cons g shorter =>
      rw [strayPath, coversPrefix, covers_stray (h s List.mem_cons_self),
        Bool.true_and]
      exact ih (List.forall_mem_cons.mp h).2

theorem generalizes_of_coversPrefix_strayPath (hlonger : ∀ s ∈ longer, s ≠ .recursiveWildcard)
    (h : coversPrefix shorter (strayPath shorter longer) = true) :
    ((shorter.zip longer).all fun (g, s) => generalizes g s) = true := by
  induction shorter generalizing longer with
  | nil => rfl
  | cons g shorter ih =>
    cases longer with
    | nil => rfl
    | cons s longer =>
      rw [strayPath, coversPrefix, Bool.and_eq_true] at h
      rw [List.zip_cons_cons, List.all_cons, Bool.and_eq_true]
      exact ⟨generalizes_of_covers_stray h.1 (hlonger s List.mem_cons_self),
        ih (List.forall_mem_cons.mp hlonger).2 h.2⟩

variable {texts : List String}

theorem coversPrefix_of_generalizes (hlen : shorter.length ≤ longer.length)
    (h : ((shorter.zip longer).all fun (g, s) => generalizes g s) = true)
    (htexts : coversPrefix longer texts = true) : coversPrefix shorter texts = true := by
  induction shorter generalizing longer texts with
  | nil => rfl
  | cons g shorter ih =>
    obtain ⟨s, longer, rfl⟩ := List.exists_cons_of_length_pos (Nat.lt_of_lt_of_le (by simp) hlen)
    cases texts with
    | nil => cases htexts
    | cons t texts =>
      rw [List.zip_cons_cons, List.all_cons, Bool.and_eq_true] at h
      rw [coversPrefix, Bool.and_eq_true] at htexts ⊢
      exact ⟨covers_of_generalizes h.1 htexts.1,
        ih (Nat.le_of_succ_le_succ hlen) h.2 htexts.2⟩

/-! ## Recursive prefixes -/

/-- The literal paths that a recursive prefix binds. -/
def reachOf (pre : List PathSegment) : Set (List String) :=
  { texts | (bindRecursivePrefix pre (texts.map .literal)).isSome }

theorem mem_reachOf {pre : List PathSegment} :
    texts ∈ reachOf pre ↔ coversPrefix pre texts = true := by
  rw [reachOf, Set.mem_ofPred_eq, bindRecursivePrefix, List.length_map]
  split_ifs with hlen
  · refine iff_of_false nofun fun hcovers => ?_
    exact absurd (length_le_of_coversPrefix hcovers) (Nat.not_le_of_lt hlen)
  · rw [Option.isSome_map, bindSegments_literal_isSome_iff (Nat.le_of_not_lt hlen)]

/-- The relation with its arguments swapped. -/
def PrefixRelation.swap : PrefixRelation → PrefixRelation
  | disjoint => disjoint
  | contains deeperIsB => contains !deeperIsB
  | ambiguousOverlap => ambiguousOverlap

section Prefixes

variable {a b : List PathSegment}

theorem disjoint_reachOf_iff (ha : Routable a) (hb : Routable b) :
    Disjoint (reachOf a) (reachOf b) ↔
      ((a.zip b).all fun (x, y) => positionsCompatible x y) = false := by
  rw [← Bool.not_eq_true, Set.disjoint_left]
  constructor
  · intro h hcompatible
    obtain ⟨hcommon, hcommon'⟩ := coversPrefix_commonPath ha.fixed hb.fixed hcompatible
    exact h (mem_reachOf.mpr hcommon) (mem_reachOf.mpr hcommon')
  · intro h texts htexts htexts'
    exact h (compatible_of_coversPrefix (mem_reachOf.mp htexts) (mem_reachOf.mp htexts'))

theorem reachOf_subset_iff (hb : Routable b) (hlen : a.length ≤ b.length) :
    reachOf b ⊆ reachOf a ↔ ((a.zip b).all fun (g, s) => generalizes g s) = true := by
  constructor
  · intro h
    refine generalizes_of_coversPrefix_strayPath hb.fixed (mem_reachOf.mp (h ?_))
    exact mem_reachOf.mpr (coversPrefix_strayPath hb.fixed)
  · intro h texts htexts
    exact mem_reachOf.mpr (coversPrefix_of_generalizes hlen h (mem_reachOf.mp htexts))

/-- A generalisation is compatible, as long as there is something to generalise. -/
theorem compatible_of_generalizes {g s : PathSegment} (h : generalizes g s = true)
    (hs : s ≠ .recursiveWildcard) : positionsCompatible g s = true := by
  cases g with
  | literal t =>
    cases s with
    | literal u => exact h
    | wildcard | recursiveWildcard => cases h
  | wildcard name =>
    cases s with
    | recursiveWildcard => exact absurd rfl hs
    | _ => rfl
  | recursiveWildcard => cases h

theorem zip_compatible_of_generalizes (hb : ∀ s ∈ b, s ≠ .recursiveWildcard)
    (h : ((a.zip b).all fun (g, s) => generalizes g s) = true) :
    ((a.zip b).all fun (x, y) => positionsCompatible x y) = true := by
  rw [List.all_eq_true] at h ⊢
  intro x hx
  exact compatible_of_generalizes (h x hx) (hb x.2 (List.of_mem_zip hx).2)

theorem classifyPrefixRelation_swap (a b : List PathSegment) :
    classifyPrefixRelation b a = (classifyPrefixRelation a b).swap := by
  rcases lt_trichotomy a.length b.length with hlt | heq | hgt
  · simp only [classifyPrefixRelation, hlt.ne, hlt.ne', hlt, hlt.not_gt, if_true, if_false]
    split_ifs <;> rfl
  · simp only [classifyPrefixRelation, heq, if_true, structurallyOverlap_comm a b]
    split_ifs <;> rfl
  · simp only [classifyPrefixRelation, hgt.ne, hgt.ne', hgt, hgt.not_gt, if_true, if_false]
    split_ifs <;> rfl

/-- Two prefixes of one length. -/
theorem classify_of_length_eq (ha : Routable a) (hb : Routable b) (hlen : a.length = b.length) :
    classifyPrefixRelation a b = .disjoint ∧ Disjoint (reachOf a) (reachOf b) ∨
      classifyPrefixRelation a b = .ambiguousOverlap ∧ ¬Disjoint (reachOf a) (reachOf b) := by
  rw [disjoint_reachOf_iff ha hb, classifyPrefixRelation, if_pos hlen, structurallyOverlap,
    decide_eq_true hlen, Bool.true_and]
  rcases (a.zip b).all fun (x, y) => positionsCompatible x y with _ | _
  · exact .inl ⟨rfl, rfl⟩
  · exact .inr ⟨rfl, by simp⟩

/-- A prefix and a longer one. -/
theorem classify_of_length_lt (ha : Routable a) (hb : Routable b) (hlen : a.length < b.length) :
    classifyPrefixRelation a b = .contains true ∧ reachOf b ⊆ reachOf a ∧
        ¬Disjoint (reachOf a) (reachOf b) ∨
      classifyPrefixRelation a b = .disjoint ∧ ¬reachOf b ⊆ reachOf a ∧
        Disjoint (reachOf a) (reachOf b) ∨
      classifyPrefixRelation a b = .ambiguousOverlap ∧ ¬reachOf b ⊆ reachOf a ∧
        ¬Disjoint (reachOf a) (reachOf b) := by
  have hcompatible := zip_compatible_of_generalizes (a := a) hb.fixed
  rw [disjoint_reachOf_iff ha hb, reachOf_subset_iff hb hlen.le, classifyPrefixRelation,
    if_neg hlen.ne]
  simp only [hlen, if_true]
  rcases hg : (a.zip b).all fun (g, s) => generalizes g s with _ | _
  · rcases hc : (a.zip b).all fun (x, y) => positionsCompatible x y with _ | _
    · exact .inr (.inl ⟨rfl, by simp, rfl⟩)
    · exact .inr (.inr ⟨rfl, by simp, by simp⟩)
  · rw [hcompatible hg]
    exact .inl ⟨rfl, rfl, by simp⟩

end Prefixes

/-- The longer of two prefixes of different lengths, named as in the answer, reaches no further
than the shorter. -/
def Deeper (a b : List PathSegment) (deeperIsB : Bool) : Prop :=
  if deeperIsB then a.length < b.length ∧ reachOf b ⊆ reachOf a
  else b.length < a.length ∧ reachOf a ⊆ reachOf b

theorem deeper_swap (d : Bool) : Deeper b a d ↔ Deeper a b !d := by
  cases d <;> rfl

/-- What the answers say about what the two prefixes reach. -/
def RelationExact (a b : List PathSegment) (relation : PrefixRelation) : Prop :=
  (relation = .disjoint ↔ Disjoint (reachOf a) (reachOf b)) ∧
  (∀ d, relation = .contains d ↔ Deeper a b d) ∧
  (relation = .ambiguousOverlap ↔ ¬Disjoint (reachOf a) (reachOf b) ∧ ∀ d, ¬Deeper a b d)

theorem RelationExact.swap {relation : PrefixRelation}
    (h : RelationExact b a relation) : RelationExact a b relation.swap := by
  obtain ⟨hdisjoint, hcontains, hambiguous⟩ := h
  rw [disjoint_comm] at hdisjoint hambiguous
  refine ⟨?_, fun d => ?_, ?_⟩
  · rw [← hdisjoint]
    cases relation <;> simp [PrefixRelation.swap]
  · rw [← Bool.not_not d, ← deeper_swap, ← hcontains]
    cases relation <;> simp [PrefixRelation.swap]
  · have hdeeper : (∀ d, ¬Deeper a b d) ↔ ∀ d, ¬Deeper b a d := by
      simp only [deeper_swap (a := a) (b := b), Bool.forall_bool, Bool.not_true, Bool.not_false,
        and_comm]
    rw [hdeeper, ← hambiguous]
    cases relation <;> simp [PrefixRelation.swap]

theorem relationExact_of_length_eq (ha : Routable a) (hb : Routable b)
    (hlen : a.length = b.length) : RelationExact a b (classifyPrefixRelation a b) := by
  have hnone : ∀ d, ¬Deeper a b d := by
    intro d
    cases d <;> simp [Deeper, hlen]
  rcases classify_of_length_eq ha hb hlen with ⟨hclass, hreach⟩ | ⟨hclass, hreach⟩
  · rw [hclass]
    exact ⟨iff_of_true rfl hreach, fun d => iff_of_false nofun (hnone d),
      iff_of_false nofun fun h => h.1 hreach⟩
  · rw [hclass]
    exact ⟨iff_of_false nofun hreach, fun d => iff_of_false nofun (hnone d),
      iff_of_true rfl ⟨hreach, hnone⟩⟩

theorem relationExact_of_length_lt (ha : Routable a) (hb : Routable b)
    (hlen : a.length < b.length) : RelationExact a b (classifyPrefixRelation a b) := by
  have hfalse : ¬Deeper a b false := fun h => absurd h.1 hlen.not_gt
  rcases classify_of_length_lt ha hb hlen with ⟨hclass, hsubset, hreach⟩ |
    ⟨hclass, hsubset, hreach⟩ | ⟨hclass, hsubset, hreach⟩
  · rw [hclass]
    have htrue : Deeper a b true := ⟨hlen, hsubset⟩
    refine ⟨iff_of_false nofun hreach, fun d => ?_, iff_of_false nofun fun h => h.2 true htrue⟩
    cases d with
    | false => exact iff_of_false nofun hfalse
    | true => exact iff_of_true rfl htrue
  · rw [hclass]
    have htrue : ¬Deeper a b true := fun h => hsubset h.2
    refine ⟨iff_of_true rfl hreach, fun d => ?_, iff_of_false nofun fun h => h.1 hreach⟩
    cases d with
    | false => exact iff_of_false nofun hfalse
    | true => exact iff_of_false nofun htrue
  · rw [hclass]
    have hnone : ∀ d, ¬Deeper a b d := by
      intro d
      cases d with
      | false => exact hfalse
      | true => exact fun h => hsubset h.2
    exact ⟨iff_of_false nofun hreach, fun d => iff_of_false nofun (hnone d),
      iff_of_true rfl ⟨hreach, hnone⟩⟩

/-- The classification of two prefixes is what their reaches are to each other, whichever comes
first. -/
theorem prefix_relation_exact {a b : List PathSegment} (ha : Routable a) (hb : Routable b) :
    RelationExact a b (classifyPrefixRelation a b) ∧
      classifyPrefixRelation b a = (classifyPrefixRelation a b).swap := by
  refine ⟨?_, classifyPrefixRelation_swap a b⟩
  rcases lt_trichotomy a.length b.length with hlt | heq | hgt
  · exact relationExact_of_length_lt ha hb hlt
  · exact relationExact_of_length_eq ha hb heq
  · rw [classifyPrefixRelation_swap b a]
    exact (relationExact_of_length_lt hb ha hgt).swap

/-- `users/{user}` and `users/ann/notes/{note}`. -/
theorem prefix_relation_exact_users :
    Routable [.literal "users", .wildcard "user"] ∧
    Routable [.literal "users", .literal "ann", .literal "notes", .wildcard "note"] ∧
    Deeper [.literal "users", .wildcard "user"]
      [.literal "users", .literal "ann", .literal "notes", .wildcard "note"] true := by
  have husers : Routable [.literal "users", .wildcard "user"] :=
    ⟨⟨fun _ => ⟨_, rfl⟩, nofun, trivial⟩, by decide⟩
  have hnotes : Routable [.literal "users", .literal "ann", .literal "notes", .wildcard "note"] :=
    ⟨⟨fun _ => ⟨_, rfl⟩, nofun, fun _ => ⟨_, rfl⟩, nofun, trivial⟩, by decide⟩
  refine ⟨husers, hnotes, ?_⟩
  exact ((prefix_relation_exact husers hnotes).1.2.1 true).mp (by decide)

/-! ## Fixed-depth ancestors -/

/-- The pattern's ancestor binds the literal path. -/
def Binds (ancestor : List PathSegment) (texts : List String) : Prop :=
  (bindAncestor ancestor (texts.map .literal)).isSome

theorem binds_iff {ancestor : List PathSegment} :
    Binds ancestor texts ↔ coversPath ancestor texts = true := by
  rw [Binds, bindAncestor, List.length_map, coversPath]
  split_ifs with hlen
  · simp [hlen]
  · have heq := not_not.mp hlen
    rw [bindSegments_literal_isSome_iff heq.le, decide_eq_true heq, Bool.true_and]

theorem structurallyOverlap_iff (ha : Routable a) (hb : Routable b) :
    structurallyOverlap a b = true ↔ ∃ texts, Binds a texts ∧ Binds b texts := by
  simp only [binds_iff, coversPath, structurallyOverlap, Bool.and_eq_true, decide_eq_true_eq]
  constructor
  · rintro ⟨hlen, hcompatible⟩
    have hlength := length_commonPath a b
    rw [← hlen, max_self] at hlength
    obtain ⟨hcommon, hcommon'⟩ := coversPrefix_commonPath ha.fixed hb.fixed hcompatible
    exact ⟨commonPath a b, ⟨hlength.symm, hcommon⟩, hlen ▸ hlength.symm, hcommon'⟩
  · rintro ⟨texts, ⟨hlen, hcovers⟩, hlen', hcovers'⟩
    exact ⟨hlen.trans hlen'.symm, compatible_of_coversPrefix hcovers hcovers'⟩

theorem collectionsLiteral_literals (even : Bool) (texts : List String) :
    CollectionsLiteral even (texts.map .literal) := by
  induction texts generalizing even with
  | nil => trivial
  | cons t texts ih => exact ⟨fun _ => ⟨t, rfl⟩, ih _⟩

/-- What a pattern binds has its skeleton and its length. -/
theorem skeleton_of_binds (ha : Routable a) (h : Binds a texts) :
    literalSkeleton a = literalSkeleton (texts.map .literal) ∧ a.length = texts.length := by
  rw [binds_iff, coversPath, Bool.and_eq_true, decide_eq_true_eq] at h
  obtain ⟨hlen, hcovers⟩ := h
  refine ⟨congrArg (Text.join '/') ?_, hlen⟩
  refine skeletonParts_eq_of_compatible ha.collections (collectionsLiteral_literals true texts)
    (by rw [List.length_map, hlen]) ?_
  exact compatible_of_coversPrefix hcovers (coversPrefix_map_literal texts)

/-- Distinct names stand at one position each. -/
theorem namesAgree_of_nodup (texts : List String)
    (h : (a.filterMap wildcardName?).Nodup) : NamesAgree a texts := by
  have hunique : ∀ {i j : ℕ} {name : String}, a[i]? = some (.wildcard name) →
      a[j]? = some (.wildcard name) → i = j := by
    intro i j name hi hj
    induction a generalizing i j with
    | nil => cases hi
    | cons s a ih =>
      have hmem : ∀ {k : ℕ}, a[k]? = some (.wildcard name) →
          name ∈ a.filterMap wildcardName? := fun hk =>
        List.mem_filterMap.mpr ⟨_, List.mem_of_getElem? hk, rfl⟩
      have hrest : (a.filterMap wildcardName?).Nodup := by
        refine h.sublist ?_
        exact (List.sublist_cons_self s a).filterMap _
      cases i with
      | zero =>
        obtain rfl : s = .wildcard name := Option.some.inj hi
        cases j with
        | zero => rfl
        | succ j => exact absurd (hmem hj) (List.nodup_cons.mp h).1
      | succ i =>
        cases j with
        | zero =>
          obtain rfl : s = .wildcard name := Option.some.inj hj
          exact absurd (hmem hi) (List.nodup_cons.mp h).1
        | succ j => rw [ih hrest hi hj]
  intro i j name hi hj
  rw [hunique hi hj]

/-- The bindings are the texts at the wildcards. -/
theorem bindAncestor_eq_texts {bindings : StrMap String}
    (hbind : bindAncestor a (texts.map .literal) = some bindings)
    (hnames : (a.filterMap wildcardName?).Nodup) {i : ℕ} {name : String}
    (hi : a[i]? = some (.wildcard name)) : bindings[name]? = texts[i]? := by
  rw [bindAncestor, List.length_map] at hbind
  split_ifs at hbind with hlen
  have heq := not_not.mp hlen
  have hexact := (bindsExactly_iff_namesAgree heq.le hbind).mpr (namesAgree_of_nodup texts hnames)
  obtain ⟨hlt, -⟩ := List.getElem?_eq_some_iff.mp hi
  have htext := List.getElem?_eq_getElem (heq ▸ hlt)
  rw [htext]
  exact (hexact name _).mpr ⟨i, hi, htext⟩

/-- Overlap is a path in common. What an ancestor binds has its skeleton and its count, so a row
stored under these is among the candidates; and distinct names are bound to the texts at their
positions. -/
theorem overlap_exact {a : List PathSegment} (ha : Routable a) :
    (∀ b, Routable b →
      (structurallyOverlap a b = true ↔ ∃ texts, Binds a texts ∧ Binds b texts)) ∧
    (∀ texts, Binds a texts →
      literalSkeleton a = literalSkeleton (texts.map .literal) ∧ a.length = texts.length ∧
      ∀ (patterns : List PatternRow) (row : PatternRow), row ∈ patterns →
        row.isRecursive = false → row.literalSkeleton = literalSkeleton a →
        row.ancestorSegmentCount = a.length.toInt16 →
        row ∈ listAccessRulePatternsBySkeleton patterns texts.length.toInt16
          (literalSkeleton (texts.map .literal))) ∧
    ∀ (texts : List String) (bindings : StrMap String),
      bindAncestor a (texts.map .literal) = some bindings →
      (a.filterMap PathSegment.wildcardName?).Nodup →
      ∀ (i : ℕ) (name : String), a[i]? = some (.wildcard name) → bindings[name]? = texts[i]? := by
  refine ⟨fun b hb => structurallyOverlap_iff ha hb, fun texts htexts => ?_, ?_⟩
  · obtain ⟨hskeleton, hlen⟩ := skeleton_of_binds ha htexts
    refine ⟨hskeleton, hlen, fun patterns row hrow hfixed hsame hcount => ?_⟩
    rw [listAccessRulePatternsBySkeleton, List.mem_filter, hfixed, hsame, hcount, hskeleton, hlen]
    exact ⟨hrow, by simp⟩
  · exact fun texts bindings hbind hnames i name hi => bindAncestor_eq_texts hbind hnames hi

/-- `users/{user}/notes` and `users/ann/notes`. -/
theorem overlap_exact_notes :
    Routable [.literal "users", .wildcard "user", .literal "notes"] ∧
    Routable [.literal "users", .literal "ann", .literal "notes"] ∧
    ∃ texts, Binds [.literal "users", .wildcard "user", .literal "notes"] texts ∧
      Binds [.literal "users", .literal "ann", .literal "notes"] texts ∧
      literalSkeleton [.literal "users", .wildcard "user", .literal "notes"] =
        literalSkeleton (texts.map .literal) := by
  have hany : Routable [.literal "users", .wildcard "user", .literal "notes"] :=
    ⟨⟨fun _ => ⟨_, rfl⟩, nofun, fun _ => ⟨_, rfl⟩, trivial⟩, by decide⟩
  have hann : Routable [.literal "users", .literal "ann", .literal "notes"] :=
    ⟨⟨fun _ => ⟨_, rfl⟩, nofun, fun _ => ⟨_, rfl⟩, trivial⟩, by decide⟩
  obtain ⟨hoverlap, hindex, -⟩ := overlap_exact hany
  obtain ⟨texts, htexts, htexts'⟩ := (hoverlap _ hann).mp (by decide)
  exact ⟨hany, hann, texts, htexts, htexts', (hindex texts htexts).1⟩

end Embyr
