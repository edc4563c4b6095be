import Embyr.ImportInvariant
import Embyr.ResourceName

/-!
# Routing a request to a pattern

`resolve_access_rule_pattern` (`grpc/handler.rs`), the fallback of every handler whose
collection has no exact rule: the fixed-depth patterns of the request's bucket, then
the recursive ones, the longest prefix first.

The request's own collection path goes through the parser of patterns, so text that
looks like pattern syntax is not read as the text it is.
-/

namespace Embyr

open PatternRow List

/-! ## The router -/

/-- A stored pattern that does not re-parse. -/
def Status.reparse : Status := ⟨.internal, "stored pattern failed to re-parse: "⟩

/-- A stored recursive pattern that does not re-parse. -/
def Status.reparseRecursive : Status :=
  ⟨.internal, "stored recursive pattern failed to re-parse: "⟩

/-- Two stored patterns match one path. -/
def Status.routingInvariant : Status :=
  ⟨.permissionDenied, "access denied: routing invariant violated"⟩

/-- A pattern and the path variables it binds. -/
abbrev Route : Type := PatternRow × StrMap String

/-- The loop over the fixed-depth candidates. -/
def matchAncestors (concrete : List PathSegment) (matched : Option Route) :
    List PatternRow → Except Status (Option Route)
  | [] => .ok matched
  | candidate :: rest =>
    match parsePathSegments candidate.collectionPathPattern with
    | .error _ => .error Status.reparse
    | .ok pattern =>
      match bindAncestor pattern concrete with
      | none => matchAncestors concrete matched rest
      | some bindings =>
        if matched.isSome then .error Status.routingInvariant
        else matchAncestors concrete (some (candidate, bindings)) rest

/-- The loop over the recursive candidates; `best` also holds the length of its
prefix. -/
def matchPrefixes (concrete : List PathSegment) (best : Option (Route × ℕ)) :
    List PatternRow → Except Status (Option Route)
  | [] => .ok (best.map (·.1))
  | candidate :: rest =>
    let parsed :=
      if candidate.collectionPathPattern.isEmpty then .ok []
      else parsePathSegments candidate.collectionPathPattern
    match parsed with
    | .error _ => .error Status.reparseRecursive
    | .ok pre =>
      match bindRecursivePrefix pre concrete with
      | none => matchPrefixes concrete best rest
      | some (bindings, _) =>
        match best with
        | none => matchPrefixes concrete (some ((candidate, bindings), pre.length)) rest
        | some (_, bestLen) =>
          if pre.length < bestLen then matchPrefixes concrete best rest
          else if bestLen = pre.length then .error Status.routingInvariant
          else matchPrefixes concrete (some ((candidate, bindings), pre.length)) rest

/-- `resolve_access_rule_pattern`. -/
def resolveAccessRulePattern (patterns : List PatternRow) (collectionPath : String)
    (documentId : Option String) : Except Status (Option Route) :=
  match parsePathSegments collectionPath with
  | .error _ => .error ⟨.internal, "failed to parse the request's own ancestor path: "⟩
  | .ok concreteAncestor => do
    let matched ← matchAncestors concreteAncestor none
      (listAccessRulePatternsBySkeleton patterns (Int16.ofNat concreteAncestor.length)
        (literalSkeleton concreteAncestor))
    match matched, documentId with
    | some route, _ => return some route
    | none, none => return none
    | none, some documentId =>
      let concreteFullPath := concreteAncestor ++ [.literal documentId]
      matchPrefixes concreteFullPath none
        (listRecursiveAccessRulePatternsUpTo patterns (Int16.ofNat concreteFullPath.length))

/-! ## What the loops compute -/

/-- The route a fixed-depth row gives, if its bindings succeed. -/
def PatternRow.bindFixed (concrete : List PathSegment) (row : PatternRow) : Option Route :=
  (bindAncestor row.segments concrete).map (row, ·)

/-- The route a recursive row gives. -/
def PatternRow.bindRecursive (concrete : List PathSegment) (row : PatternRow) : Option Route :=
  (bindRecursivePrefix row.segments concrete).map fun b => (row, b.1)

theorem PatternRow.WellFormed.parsePathSegments_eq {row : PatternRow} (h : row.WellFormed)
    (hfixed : row.isRecursive = false) :
    parsePathSegments row.collectionPathPattern = .ok row.segments := by
  have hparses := h.parses
  unfold parse expectSegments at hparses
  rw [hfixed] at hparses
  simp only [Bool.false_eq_true, if_false] at hparses
  rcases hp : parsePathSegments row.collectionPathPattern with e | segs
  · rw [hp] at hparses
    cases hparses
  · rw [hp] at hparses
    exact congrArg _ (Option.some.inj hparses)

theorem PatternRow.WellFormed.parsePrefix_eq {row : PatternRow} (h : row.WellFormed)
    (hrec : row.isRecursive = true) :
    (if row.collectionPathPattern.isEmpty then .ok []
      else parsePathSegments row.collectionPathPattern) = .ok row.segments := by
  have hparses := h.parses
  unfold parse parseRecursivePrefix expectSegments at hparses
  rw [hrec] at hparses
  simp only [if_true] at hparses
  split_ifs at hparses ⊢
  · rw [← Option.some.inj hparses]
  · rcases hp : parsePathSegments row.collectionPathPattern with e | segs
    · rw [hp] at hparses
      cases hparses
    · rw [hp] at hparses
      exact congrArg _ (Option.some.inj hparses)

variable {concrete : List PathSegment} {candidates : List PatternRow}

/-- Candidates that do not bind leave the match as it was. -/
theorem matchAncestors_of_none {matched : Option Route}
    (hwf : ∀ r ∈ candidates, r.WellFormed ∧ r.isRecursive = false)
    (hnone : ∀ r ∈ candidates, r.bindFixed concrete = none) :
    matchAncestors concrete matched candidates = .ok matched := by
  induction candidates with
  | nil => rfl
  | cons r rest ih =>
    obtain ⟨hr, hfixed⟩ := hwf r mem_cons_self
    have hbind : bindAncestor r.segments concrete = none :=
      Option.map_eq_none_iff.mp (hnone r mem_cons_self)
    rw [matchAncestors, hr.parsePathSegments_eq hfixed]
    simp only [hbind]
    exact ih (forall_mem_cons.mp hwf).2
      (forall_mem_cons.mp hnone).2

/-- If at most one candidate binds, the loop returns the first that does. -/
theorem matchAncestors_eq (hwf : ∀ r ∈ candidates, r.WellFormed ∧ r.isRecursive = false)
    (hone : candidates.Pairwise fun r r' =>
      r.bindFixed concrete = none ∨ r'.bindFixed concrete = none) :
    matchAncestors concrete none candidates =
      .ok (candidates.findSome? (·.bindFixed concrete)) := by
  induction candidates with
  | nil => rfl
  | cons r rest ih =>
    obtain ⟨hr, hfixed⟩ := hwf r mem_cons_self
    obtain ⟨hfirst, hrest⟩ := pairwise_cons.mp hone
    have hwf' : ∀ x ∈ rest, x.WellFormed ∧ x.isRecursive = false :=
      (forall_mem_cons.mp hwf).2
    rw [matchAncestors, hr.parsePathSegments_eq hfixed, findSome?_cons]
    rcases hbind : bindAncestor r.segments concrete with _ | bindings
    · have hnone : r.bindFixed concrete = none := by rw [bindFixed, hbind]; rfl
      simp only [hbind, hnone]
      exact ih hwf' hrest
    · have hsome : r.bindFixed concrete = some (r, bindings) := by
        rw [bindFixed, hbind]; rfl
      simp only [hbind, hsome, Option.isSome_none, Bool.false_eq_true, if_false]
      refine matchAncestors_of_none hwf' fun x hx => (hfirst x hx).resolve_left ?_
      simp [hsome]

/-- `result` is the best route of those `candidates` give and the one in `best`: it
is one of them, and no other has a longer prefix. -/
structure BestOf (concrete : List PathSegment) (best : Option (Route × ℕ))
    (candidates : List PatternRow) (result : Option (Route × ℕ)) : Prop where
  origin : ∀ x ∈ result, x ∈ best ∨
    ∃ r ∈ candidates, r.bindRecursive concrete = some x.1 ∧ x.2 = r.segments.length
  start : ∀ x ∈ best, ∃ y ∈ result, x.2 ≤ y.2
  longest : ∀ r ∈ candidates, r.bindRecursive concrete ≠ none →
    ∃ y ∈ result, r.segments.length ≤ y.2

variable {best : Option (Route × ℕ)}

/-- A candidate no longer than the best so far changes nothing. -/
theorem BestOf.skip {result : Option (Route × ℕ)} {r : PatternRow} {rest : List PatternRow}
    (h : BestOf concrete best rest result)
    (hshort : r.bindRecursive concrete ≠ none → ∃ x ∈ best, r.segments.length ≤ x.2) :
    BestOf concrete best (r :: rest) result := by
  refine ⟨fun x hx => ?_, h.start, fun r' hr' hbind => ?_⟩
  · rcases h.origin x hx with hx | ⟨r', hr', hbind⟩
    · exact .inl hx
    · exact .inr ⟨r', mem_cons_of_mem _ hr', hbind⟩
  · rcases mem_cons.mp hr' with rfl | hr'
    · obtain ⟨x, hx, hlen⟩ := hshort hbind
      obtain ⟨y, hy, hxy⟩ := h.start x hx
      exact ⟨y, hy, hlen.trans hxy⟩
    · exact h.longest r' hr' hbind

/-- A candidate longer than the best so far replaces it. -/
theorem BestOf.replace {result : Option (Route × ℕ)} {r : PatternRow} {rest : List PatternRow}
    {bindings : StrMap String}
    (h : BestOf concrete (some ((r, bindings), r.segments.length)) rest result)
    (hbind : r.bindRecursive concrete = some (r, bindings))
    (hlong : ∀ x ∈ best, x.2 ≤ r.segments.length) : BestOf concrete best (r :: rest) result := by
  obtain ⟨top, htop, hrlen⟩ := h.start _ rfl
  refine ⟨fun x hx => ?_, fun x hx => ⟨top, htop, (hlong x hx).trans hrlen⟩,
    fun r' hr' hbind' => ?_⟩
  · rcases h.origin x hx with hx | ⟨r', hr', hbind'⟩
    · cases hx
      exact .inr ⟨r, mem_cons_self .., hbind, rfl⟩
    · exact .inr ⟨r', mem_cons_of_mem _ hr', hbind'⟩
  · rcases mem_cons.mp hr' with rfl | hr'
    · exact ⟨top, htop, hrlen⟩
    · exact h.longest r' hr' hbind'

/-- If no two recursive candidates bind with prefixes of one length, the loop returns
the best route. -/
theorem matchPrefixes_eq (hwf : ∀ r ∈ candidates, r.WellFormed ∧ r.isRecursive = true)
    (hone : candidates.Pairwise fun r r' => r.bindRecursive concrete = none ∨
      r'.bindRecursive concrete = none ∨ r.segments.length ≠ r'.segments.length)
    (hbest : ∀ x ∈ best, ∀ r ∈ candidates, r.bindRecursive concrete = none ∨
      x.2 ≠ r.segments.length) :
    ∃ result, matchPrefixes concrete best candidates = .ok (result.map (·.1)) ∧
      BestOf concrete best candidates result := by
  induction candidates generalizing best with
  | nil => exact ⟨best, rfl, fun x hx => .inl hx, fun x hx => ⟨x, hx, le_rfl⟩, by simp⟩
  | cons r rest ih =>
    obtain ⟨hr, hrec⟩ := hwf r mem_cons_self
    obtain ⟨hfirst, hrest⟩ := pairwise_cons.mp hone
    have hwf' : ∀ x ∈ rest, x.WellFormed ∧ x.isRecursive = true :=
      (forall_mem_cons.mp hwf).2
    have hbest' : ∀ x ∈ best, ∀ r ∈ rest, r.bindRecursive concrete = none ∨
        x.2 ≠ r.segments.length := fun x hx y hy => hbest x hx y (mem_cons_of_mem _ hy)
    rw [matchPrefixes, hr.parsePrefix_eq hrec]
    rcases hbind : bindRecursivePrefix r.segments concrete with _ | ⟨bindings, remainder⟩
    · have hnone : r.bindRecursive concrete = none := by rw [bindRecursive, hbind]; rfl
      obtain ⟨result, hres, hbestOf⟩ := ih hwf' hrest hbest'
      simp only [hbind]
      exact ⟨result, hres, hbestOf.skip fun h => absurd hnone h⟩
    · have hsome : r.bindRecursive concrete = some (r, bindings) := by
        rw [bindRecursive, hbind]; rfl
      have hnew : ∀ x ∈ some ((r, bindings), r.segments.length), ∀ r' ∈ rest,
          r'.bindRecursive concrete = none ∨ x.2 ≠ r'.segments.length := by
        intro x hx r' hr'
        cases hx
        exact (hfirst r' hr').resolve_left (by simp [hsome])
      simp only [hbind]
      rcases best with _ | ⟨route, len⟩
      · obtain ⟨result, hres, hbestOf⟩ := ih hwf' hrest hnew
        exact ⟨result, hres, hbestOf.replace hsome (by simp)⟩
      · have hne : len ≠ r.segments.length :=
          (hbest _ rfl r mem_cons_self).resolve_left (by simp [hsome])
        simp only [hne, if_false]
        split_ifs with hlt
        · obtain ⟨result, hres, hbestOf⟩ := ih hwf' hrest hbest'
          exact ⟨result, hres, hbestOf.skip fun _ => ⟨_, rfl, hlt.le⟩⟩
        · obtain ⟨result, hres, hbestOf⟩ := ih hwf' hrest hnew
          refine ⟨result, hres, hbestOf.replace hsome fun x hx => ?_⟩
          cases hx
          exact Nat.le_of_not_lt hlt

/-! ## The loops over unambiguous patterns -/

variable {patterns : List PatternRow} {count : Int16} {skeleton : String} {r : PatternRow}

theorem mem_bySkeleton : r ∈ listAccessRulePatternsBySkeleton patterns count skeleton ↔
    r ∈ patterns ∧ (r.ancestorSegmentCount = count ∧ r.literalSkeleton = skeleton) ∧
      r.isRecursive = false := by
  simp [listAccessRulePatternsBySkeleton]

theorem mem_upTo : r ∈ listRecursiveAccessRulePatternsUpTo patterns count ↔
    r ∈ patterns ∧ r.isRecursive = true ∧ r.ancestorSegmentCount ≤ count := by
  simp [listRecursiveAccessRulePatternsUpTo]

/-- The first loop, where candidates that do not clash do not both bind. -/
theorem matchAncestors_of_apart (hun : Unambiguous patterns)
    (hone : ∀ r ∈ listAccessRulePatternsBySkeleton patterns count skeleton,
      ∀ r' ∈ listAccessRulePatternsBySkeleton patterns count skeleton, r.clashes r' = false →
        r.bindFixed concrete ≠ none → r'.bindFixed concrete = none) :
    matchAncestors concrete none (listAccessRulePatternsBySkeleton patterns count skeleton) =
      .ok ((listAccessRulePatternsBySkeleton patterns count skeleton).findSome?
        (·.bindFixed concrete)) := by
  refine matchAncestors_eq (fun r hr => ?_) ?_
  · obtain ⟨hmem, -, hfixed⟩ := mem_bySkeleton.mp hr
    exact ⟨hun.wellFormed r hmem, hfixed⟩
  · exact (hun.apart.filter _).imp_of_mem fun hr hr' h =>
      or_iff_not_imp_left.mpr (hone _ hr _ hr' h)

/-- The second loop, where candidates of one length that do not clash do not both bind. -/
theorem matchPrefixes_of_apart (hun : Unambiguous patterns)
    (hone : ∀ r ∈ listRecursiveAccessRulePatternsUpTo patterns count,
      ∀ r' ∈ listRecursiveAccessRulePatternsUpTo patterns count, r.clashes r' = false →
        r.bindRecursive concrete ≠ none → r'.bindRecursive concrete ≠ none →
          r.segments.length ≠ r'.segments.length) :
    ∃ result, matchPrefixes concrete none (listRecursiveAccessRulePatternsUpTo patterns count) =
        .ok (result.map (·.1)) ∧
      BestOf concrete none (listRecursiveAccessRulePatternsUpTo patterns count) result := by
  refine matchPrefixes_eq (fun r hr => ?_) ?_ nofun
  · obtain ⟨hmem, hrec, -⟩ := mem_upTo.mp hr
    exact ⟨hun.wellFormed r hmem, hrec⟩
  · refine (hun.apart.filter _).imp_of_mem fun hr hr' h => ?_
    rw [or_iff_not_imp_left, or_iff_not_imp_left]
    exact hone _ hr _ hr' h

end Embyr
