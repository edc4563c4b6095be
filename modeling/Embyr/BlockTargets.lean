import Embyr.RulesImport

/-!
# Blocks and their targets

`decompose_block` (`access_control/rules_file.rs`) in two parts: the checks, and what a block is
stored as when it passes them.

* `MatchBlock.target`, `decomposeBlock_eq` — what a block is stored as.
* `NamesBlocks` — a rejection names a block.
* `decompose_eq_ok_iff` — a file is decomposed block by block, or rejected.
-/

namespace Embyr

open MatchBlock List

/-! ## Blocks and targets -/

/-- The collection part of a block without a recursive wildcard. -/
def MatchBlock.ancestor (block : MatchBlock) : List PathSegment :=
  if block.segments.length % 2 = 0 then block.segments.dropLast else block.segments

/-- The names a block captures. -/
def MatchBlock.capturedNames (block : MatchBlock) : List String :=
  block.segments.filterMap PathSegment.wildcardName?

/-- A clause's condition, with the captured names rewritten. -/
def MatchBlock.rewritten (block : MatchBlock) (condition : String) : String :=
  block.capturedNames.foldl rewritePathVariable condition

/-- The name of the last segment, where it captures a document id. -/
def MatchBlock.leafVariable (block : MatchBlock) : Option String :=
  (if block.segments.length % 2 = 0 then block.segments.getLast? else none).bind
    PathSegment.wildcardName?

/-- What a block is stored as, given its two conditions. -/
def MatchBlock.target (block : MatchBlock) (buckets : Buckets) : DecomposedTarget :=
  if block.segments.getLast? = some .recursiveWildcard then
    .recursiveWildcardPattern
      { fixedPrefixPattern := renderAncestorPattern block.segments.dropLast
        fixedPrefixSegmentCount := UInt16.ofNat block.segments.dropLast.length
        literalSkeletonPrefix := literalSkeleton block.segments.dropLast
        readCondition := buckets.readCondition
        writeCondition := buckets.writeCondition }
  else
    match block.ancestor with
    | [.literal collection] =>
      .singleCollection ⟨collection, buckets.readCondition, buckets.writeCondition⟩
    | _ =>
      .multiSegmentPattern
        { collectionPathPattern := renderAncestorPattern block.ancestor
          ancestorSegmentCount := UInt16.ofNat block.ancestor.length
          literalSkeleton := literalSkeleton block.ancestor
          leafVariable := block.leafVariable
          readCondition := buckets.readCondition
          writeCondition := buckets.writeCondition }

theorem capturedNames_recursive {block : MatchBlock}
    (h : block.segments.getLast? = some .recursiveWildcard) :
    block.segments.dropLast.filterMap PathSegment.wildcardName? = block.capturedNames := by
  obtain ⟨init, hinit⟩ := getLast?_eq_some_iff.mp h
  rw [capturedNames, hinit, dropLast_concat, filterMap_append]
  simp [PathSegment.wildcardName?]

theorem capturedNames_fixed (block : MatchBlock) :
    block.ancestor.filterMap PathSegment.wildcardName? ++ block.leafVariable.toList =
      block.capturedNames := by
  rw [ancestor, leafVariable, capturedNames]
  split_ifs
  · obtain ⟨init, last, hinit⟩ := (eq_nil_or_concat' block.segments).resolve_left block.nonempty
    rw [hinit, dropLast_concat, getLast?_concat, filterMap_append, Option.bind_some]
    cases last <;> rfl
  · exact append_nil _

/-- A block is stored as its target, when its shape is valid and its clauses agree. -/
theorem decomposeBlock_eq (block : MatchBlock) :
    decomposeBlock block = do
      validateSegmentShape block.pathPattern 0 block.segments
      let buckets ← bucketConditions block.pathPattern block.capturedNames block.allowClauses
      return block.target buckets := by
  rw [decomposeBlock]
  congr 1
  funext _
  by_cases hlast : block.segments.getLast? = some .recursiveWildcard
  · simp only [hlast, if_true, capturedNames_recursive hlast, target]
  · simp only [hlast, if_false, target]
    rw [← capturedNames_fixed block]
    congr 1
    funext buckets
    change (match block.ancestor with
      | [.literal collection] => _
      | _ => _) = _
    split <;> rfl

/-! ## Files -/

/-- A rejection names at least one block. -/
def NamesBlocks {α : Type} (x : Except RulesFileError α) : Prop := ∀ e, x = .error e → e ≠ []

theorem namesBlocks_ok {α : Type} (a : α) : NamesBlocks (.ok a) := nofun

theorem namesBlocks_single {α : Type} (pattern construct detail : String) :
    NamesBlocks (RulesFileError.single pattern construct detail : Except RulesFileError α) := by
  rintro e h
  cases h
  exact cons_ne_nil _ _

theorem NamesBlocks.bind {α β : Type} {x : Except RulesFileError α}
    {f : α → Except RulesFileError β} (hx : NamesBlocks x) (hf : ∀ a, NamesBlocks (f a)) :
    NamesBlocks (x >>= f) := by
  rcases x with e | a
  · exact fun e' h => hx e' (congrArg _ (Except.error.inj h))
  · exact hf a

theorem namesBlocks_foldlM {α β : Type} {f : β → α → Except RulesFileError β}
    (hf : ∀ b a, NamesBlocks (f b a)) (l : List α) (b : β) : NamesBlocks (l.foldlM f b) := by
  induction l generalizing b with
  | nil => exact namesBlocks_ok b
  | cons a l ih =>
    rw [foldlM_cons]
    exact (hf b a).bind ih

theorem namesBlocks_fileVerb (pathPattern condition : String) (buckets : Buckets) (verb : Verb) :
    NamesBlocks (fileVerb pathPattern condition buckets verb) := by
  have hfill : ∀ bucket, NamesBlocks (fillBucket pathPattern condition bucket) := by
    intro bucket
    cases bucket with
    | none => exact namesBlocks_ok _
    | some existing =>
      rw [fillBucket]
      split_ifs
      · exact namesBlocks_single _ _ _
      · exact namesBlocks_ok _
  cases verb <;> exact (hfill _).bind fun _ => namesBlocks_ok _

theorem namesBlocks_fileClause (pathPattern : String) (wildcardNames : List String)
    (buckets : Buckets) (clause : List Verb × String) :
    NamesBlocks (fileClause pathPattern wildcardNames buckets clause) := by
  simp only [fileClause]
  split
  · exact namesBlocks_single _ _ _
  · exact namesBlocks_foldlM (namesBlocks_fileVerb _ _) _ _

theorem namesBlocks_validateSegmentShape (pathPattern : String) (i : ℕ)
    (segments : List PathSegment) : NamesBlocks (validateSegmentShape pathPattern i segments) := by
  fun_induction validateSegmentShape pathPattern i segments with
  | case1 | case3 => exact namesBlocks_ok _
  | case2 | case4 | case5 => exact namesBlocks_single _ _ _
  | case6 _ _ _ _ ih | case7 _ _ _ ih => exact ih

theorem namesBlocks_decomposeBlock (block : MatchBlock) : NamesBlocks (decomposeBlock block) := by
  rw [decomposeBlock_eq]
  refine (namesBlocks_validateSegmentShape _ _ _).bind fun _ => ?_
  exact (namesBlocks_foldlM (namesBlocks_fileClause _ _) _ _).bind fun _ => namesBlocks_ok _

/-- **A file is decomposed exactly when each of its blocks is.** -/
theorem decompose_eq_ok_iff {blocks : List MatchBlock} {targets : List DecomposedTarget} :
    decompose blocks = .ok targets ↔
      Forall₂ (fun block target => decomposeBlock block = .ok target) blocks targets := by
  have hall : ∀ {offending : RulesFileError} {before result : List DecomposedTarget},
      decomposeAll offending before blocks = .ok result ↔ offending = [] ∧ ∃ rest,
        result = before ++ rest ∧
          Forall₂ (fun block target => decomposeBlock block = .ok target) blocks rest := by
    induction blocks with
    | nil =>
      intro offending before result
      rw [decomposeAll]
      cases offending with
      | nil => simp [eq_comm]
      | cons _ _ => simp
    | cons block blocks ih =>
      intro offending before result
      rw [decomposeAll]
      rcases hblock : decomposeBlock block with e | target
      · simp only [ih, append_eq_nil_iff, namesBlocks_decomposeBlock block e hblock, and_false,
          false_and, false_iff]
        rintro ⟨-, rest, -, hrest⟩
        cases hrest with
        | cons h _ =>
          rw [hblock] at h
          cases h
      · simp only [ih, append_assoc, singleton_append]
        refine and_congr_right fun _ => ⟨?_, ?_⟩
        · rintro ⟨rest, hresult, hrest⟩
          exact ⟨target :: rest, hresult, .cons hblock hrest⟩
        · rintro ⟨rest, hresult, hrest⟩
          cases hrest with
          | cons h hrest =>
            obtain rfl := Except.ok.inj (hblock.symm.trans h)
            exact ⟨_, hresult, hrest⟩
  rw [decompose, hall]
  simp

end Embyr
