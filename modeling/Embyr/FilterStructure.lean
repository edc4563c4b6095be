import Embyr.FilterPredicate

/-!
# The structure of a filter's text

A filter tree is written with brackets around an OR and none around an AND
(`append_filter`). Here the text is read back with the usual precedence.

* `QueryFilter.conjunctFormulas` — the AND/OR structure of a tree over the
  predicates of its fields.
* `Spelled`, `spelled_of_accepted` — an accepted tree is written as its conjuncts
  joined by AND, by induction over the tree.
* `QueryFilter.blanked` — the tree with every value of the client replaced by a
  fixed one of its kind; the text is the same.
* `appendFilter_structure` — after AND in a WHERE clause the text of a filter reads
  as the structure of the tree.
-/

namespace Embyr

open Binary64 Sql QueryFilter Push

/-! ## The structure of the text -/

/-- An atom has no AND, no OR and no brackets around the whole of it. -/
theorem reads_sqlAtom (bound : ℕ) (a : SqlAtom) :
    IsConjunct (a.tokens bound) ∧ Sql.Reads (a.tokens bound) (.atom (a.tokens bound)) := by
  have h : IsConjunct (a.tokens bound) ∧ group (a.tokens bound) = none := by
    cases a with
    | falsity => exact ⟨⟨rfl, rfl⟩, rfl⟩
    | isNull path negate => cases negate <;> exact ⟨⟨rfl, rfl⟩, rfl⟩
    | valueEq | textEq | contains => exact ⟨⟨rfl, rfl⟩, rfl⟩
    | compares path op target => cases target <;> exact ⟨⟨rfl, rfl⟩, rfl⟩
  exact ⟨h.1, reads_atom h.1 h.2⟩

theorem reads_numbered (count : SqlAtom → ℕ) (bound : ℕ) (atoms : List SqlAtom) :
    (∀ part ∈ numbered count SqlAtom.tokens bound atoms, IsConjunct part) ∧
    List.Forall₂ Sql.Reads (numbered count SqlAtom.tokens bound atoms)
      ((numbered count SqlAtom.tokens bound atoms).map .atom) := by
  induction atoms generalizing bound with
  | nil => exact ⟨by simp [numbered], .nil⟩
  | cons a atoms ih =>
    obtain ⟨hconj, hreads⟩ := ih (bound + count a)
    obtain ⟨ha, hread⟩ := reads_sqlAtom bound a
    exact ⟨List.forall_mem_cons.mpr ⟨ha, hconj⟩, .cons hread hreads⟩

theorem numbered_ne_nil {α β : Type} {count : α → ℕ} {f : ℕ → α → β} {bound : ℕ} {items : List α}
    (h : items ≠ []) : numbered count f bound items ≠ [] := by
  cases items with
  | nil => exact absurd rfl h
  | cons a items => simp [numbered]

/-- A bracketed predicate has an atom in its brackets. -/
def FieldPredicate.HasAtom : FieldPredicate → Prop
  | .atom _ => True
  | .any atoms | .all atoms => atoms ≠ []

theorem hasAtom_of_fieldPredicate {f : FieldFilter} {pred : FieldPredicate}
    (h : fieldPredicate f = some pred) : pred.HasAtom := by
  obtain ⟨path, op, value⟩ := f
  cases op with
  | isNan | isNotNan | isNull | isNotNull | equal | notEqual | arrayContains =>
    cases h
    simp [FieldPredicate.HasAtom]
  | lessThan | lessThanOrEqual | greaterThan | greaterThanOrEqual =>
    obtain ⟨target, -, rfl⟩ := Option.map_eq_some_iff.mp h
    trivial
  | isIn | notIn | arrayContainsAny =>
    cases value with
    | array targets => cases targets <;> cases h <;> simp [FieldPredicate.HasAtom]
    | null | map | boolean | integer | double | timestamp | string | bytes | reference => cases h

section Structure

variable (base64 : Base64)

theorem reads_fieldPredicate (bound : ℕ) {pred : FieldPredicate} (h : pred.HasAtom) :
    IsConjunct (pred.tokens base64 bound) ∧
      Sql.Reads (pred.tokens base64 bound) (pred.formula base64 bound) := by
  cases pred with
  | atom a => exact reads_sqlAtom bound a
  | any atoms =>
    obtain ⟨hconj, hreads⟩ := reads_numbered (SqlAtom.bindCount base64) bound atoms
    have hmatched := isMatched_of_isSealed (@isSealed_join andTok _ orTok (by decide) (fun _ => rfl)
      (by decide) fun part hpart => (hconj part hpart).1)
    exact ⟨isConjunct_group hmatched, (reads_disj (numbered_ne_nil h)
      (fun part hpart => (hconj part hpart).2) hreads).group hmatched⟩
  | all atoms =>
    obtain ⟨hconj, hreads⟩ := reads_numbered (SqlAtom.bindCount base64) bound atoms
    have hmatched := isMatched_of_isSealed (@isSealed_join orTok _ andTok (by decide) (fun _ => rfl)
      (by decide) fun part hpart => (hconj part hpart).2)
    exact ⟨isConjunct_group hmatched, (reads_conj (numbered_ne_nil h) hconj hreads).group hmatched⟩

end Structure

namespace QueryFilter

mutual

/-- Every composite has a child, and every field filter a valid path and a value
of a kind its operator accepts. -/
def Accepted : QueryFilter → Prop
  | .field f => isValidFieldPath f.fieldPath = true ∧ shapeError f.op f.value = none
  | .composite filters | .compositeOr filters => filters ≠ [] ∧ AllAccepted filters

def AllAccepted : List QueryFilter → Prop
  | [] => True
  | f :: fs => f.Accepted ∧ AllAccepted fs

end

section Tree

variable (base64 : Base64)

mutual

/-- The parameters of a filter, from left to right. -/
def boundValues : QueryFilter → List Bind
  | .field f => ((fieldPredicate f).map (FieldPredicate.binds base64)).getD []
  | .composite filters | .compositeOr filters => allBoundValues filters

def allBoundValues : List QueryFilter → List Bind
  | [] => []
  | f :: fs => f.boundValues ++ allBoundValues fs

end

mutual

/-- The parts between the ANDs outside brackets: a nested AND adds its own parts,
an OR is one part. -/
def conjunctTokens (bound : ℕ) : QueryFilter → List (List Sql.Token)
  | .field f => [((fieldPredicate f).map (FieldPredicate.tokens base64 bound)).getD []]
  | .composite filters => allConjunctTokens bound filters
  | .compositeOr filters => [.lParen :: join orTok (disjunctTokens bound filters) ++ [.rParen]]

def allConjunctTokens (bound : ℕ) : List QueryFilter → List (List Sql.Token)
  | [] => []
  | f :: fs => f.conjunctTokens bound ++ allConjunctTokens (bound + (f.boundValues base64).length) fs

def disjunctTokens (bound : ℕ) : List QueryFilter → List (List Sql.Token)
  | [] => []
  | f :: fs => join andTok (f.conjunctTokens bound) ::
      disjunctTokens (bound + (f.boundValues base64).length) fs

end

mutual

/-- The AND/OR structure of a filter over the predicates of its fields, as the
list of its conjuncts; an AND inside an AND is part of it. -/
def conjunctFormulas (bound : ℕ) : QueryFilter → List Formula
  | .field f => [((fieldPredicate f).map (FieldPredicate.formula base64 bound)).getD (.and [])]
  | .composite filters => allConjunctFormulas bound filters
  | .compositeOr filters => [disj (disjunctFormulas bound filters)]

def allConjunctFormulas (bound : ℕ) : List QueryFilter → List Formula
  | [] => []
  | f :: fs => f.conjunctFormulas bound ++ allConjunctFormulas (bound + (f.boundValues base64).length) fs

def disjunctFormulas (bound : ℕ) : List QueryFilter → List Formula
  | [] => []
  | f :: fs => conj (f.conjunctFormulas bound) :: disjunctFormulas (bound + (f.boundValues base64).length) fs

end

end Tree

end QueryFilter

open QueryFilter

section Spelling

variable (base64 : Base64)

/-- What a filter pushes. -/
def pushesOf (f : QueryFilter) : List Push := (appendFilter base64 f).getD []

/-- A filter is written without a panic, as its conjuncts joined by AND. -/
structure Spelled (f : QueryFilter) : Prop where
  appended : appendFilter base64 f = some (pushesOf base64 f)
  writes : Writes (pushesOf base64 f) (f.boundValues base64) fun n =>
    join andTok (f.conjunctTokens base64 n)
  nonempty (n : ℕ) : f.conjunctTokens base64 n ≠ []
  isConjunct (n : ℕ) : ∀ part ∈ f.conjunctTokens base64 n, IsConjunct part
  reads (n : ℕ) : List.Forall₂ Sql.Reads (f.conjunctTokens base64 n) (f.conjunctFormulas base64 n)

variable {base64}

/-- The text of a filter is a part without OR, and reads as the conjunction of its
conjuncts. -/
theorem Spelled.reads_join {f : QueryFilter} (h : Spelled base64 f) (n : ℕ) :
    isSealed orTok (join andTok (f.conjunctTokens base64 n)) = true ∧
      Sql.Reads (join andTok (f.conjunctTokens base64 n)) (conj (f.conjunctFormulas base64 n)) :=
  ⟨isSealed_join (by decide) (fun _ => rfl) (by decide) fun part hpart => (h.isConjunct n part hpart).2,
    reads_conj (h.nonempty n) (h.isConjunct n) (h.reads n)⟩

theorem spelled_field {f : FieldFilter} (h : Accepted (.field f)) :
    Spelled base64 (.field f) := by
  obtain ⟨pushes, pred, hpushes, hpred, hwrites⟩ := writes_fieldFilter base64 h.1 h.2
  have happend : appendFilter base64 (.field f) = some pushes := hpushes
  have hpushesOf : pushesOf base64 (.field f) = pushes := by rw [pushesOf, happend]; rfl
  have hreads (n : ℕ) := reads_fieldPredicate base64 n (hasAtom_of_fieldPredicate hpred)
  refine ⟨by rw [hpushesOf, happend], ?_, fun n => ?_, fun n => ?_, fun n => ?_⟩
  · simp only [hpushesOf, boundValues, conjunctTokens, hpred]
    exact hwrites
  · simp [conjunctTokens]
  · simp only [conjunctTokens, hpred, List.forall_mem_singleton]
    exact (hreads n).1
  · simp only [conjunctTokens, conjunctFormulas, hpred]
    exact .cons (hreads n).2 .nil

section Children

variable {fs : List QueryFilter} (hne : fs ≠ []) (h : ∀ f ∈ fs, Spelled base64 f)
include h

theorem appendFilters_eq : appendFilters base64 fs = some (fs.map (pushesOf base64)) := by
  induction fs with
  | nil => rfl
  | cons f fs ih =>
    rw [appendFilters, (h f List.mem_cons_self).appended,
      ih (List.forall_mem_cons.mp h).2]
    rfl

omit h in
theorem allBoundValues_eq :
    allBoundValues base64 fs = fs.flatMap (boundValues base64) := by
  induction fs with
  | nil => rfl
  | cons f fs ih => rw [allBoundValues, ih]; rfl

omit h in
theorem disjunctTokens_eq (n : ℕ) :
    disjunctTokens base64 n fs =
      numbered (fun f => (f.boundValues base64).length)
        (fun n f => join andTok (f.conjunctTokens base64 n)) n fs := by
  induction fs generalizing n with
  | nil => rfl
  | cons f fs ih => rw [disjunctTokens, ih]; rfl

theorem allConjunctTokens_spec (n : ℕ) :
    (fs ≠ [] → allConjunctTokens base64 n fs ≠ []) ∧
    join andTok (allConjunctTokens base64 n fs) =
      join andTok (disjunctTokens base64 n fs) := by
  induction fs generalizing n with
  | nil => exact ⟨fun hne => absurd rfl hne, rfl⟩
  | cons f fs ih =>
    have hf := (h f List.mem_cons_self).nonempty n
    obtain ⟨hrest, hjoin⟩ := ih (List.forall_mem_cons.mp h).2
      (n + (f.boundValues base64).length)
    refine ⟨fun _ => by simp [allConjunctTokens, hf], ?_⟩
    rw [allConjunctTokens, disjunctTokens]
    cases fs with
    | nil => simp [allConjunctTokens, disjunctTokens, join]
    | cons g fs =>
      rw [join_append hf (hrest (by simp)), hjoin,
        join_cons (by rw [disjunctTokens]; simp)]

theorem allConjunctTokens_reads (n : ℕ) :
    (∀ part ∈ allConjunctTokens base64 n fs, IsConjunct part) ∧
    List.Forall₂ Sql.Reads (allConjunctTokens base64 n fs)
      (allConjunctFormulas base64 n fs) := by
  induction fs generalizing n with
  | nil => exact ⟨by simp [allConjunctTokens], .nil⟩
  | cons f fs ih =>
    have hf := h f List.mem_cons_self
    obtain ⟨hconj, hreads⟩ := ih (List.forall_mem_cons.mp h).2
      (n + (f.boundValues base64).length)
    rw [allConjunctTokens, allConjunctFormulas]
    exact ⟨List.forall_mem_append.mpr ⟨hf.isConjunct n, hconj⟩, List.rel_append (hf.reads n) hreads⟩

theorem disjunctTokens_reads (n : ℕ) :
    (∀ part ∈ disjunctTokens base64 n fs, isSealed orTok part = true) ∧
    List.Forall₂ Sql.Reads (disjunctTokens base64 n fs)
      (disjunctFormulas base64 n fs) := by
  induction fs generalizing n with
  | nil => exact ⟨by simp [disjunctTokens], .nil⟩
  | cons f fs ih =>
    obtain ⟨hseal, hread⟩ := (h f List.mem_cons_self).reads_join n
    obtain ⟨hseals, hreads⟩ := ih (List.forall_mem_cons.mp h).2
      (n + (f.boundValues base64).length)
    exact ⟨List.forall_mem_cons.mpr ⟨hseal, hseals⟩, .cons hread hreads⟩

include hne

theorem spelled_composite : Spelled base64 (.composite fs) := by
  have happend : appendFilter base64 (.composite fs) =
      some (separated " AND " (fs.map (pushesOf base64))) := by
    rw [appendFilter, appendFilters_eq h]
    rfl
  have hpushes : pushesOf base64 (.composite fs) =
      separated " AND " (fs.map (pushesOf base64)) := by
    rw [pushesOf, happend]
    rfl
  have hwrites := writes_separated lex_and stops_and hne fun f hf => (h f hf).writes
  refine ⟨by rw [hpushes, happend], ?_, fun n => ?_, fun n => ?_, fun n => ?_⟩
  · simp only [hpushes, boundValues, allBoundValues_eq, conjunctTokens,
      (allConjunctTokens_spec h _).2, disjunctTokens_eq]
    exact hwrites
  · exact (allConjunctTokens_spec h n).1 hne
  · exact (allConjunctTokens_reads h n).1
  · exact (allConjunctTokens_reads h n).2

theorem spelled_compositeOr : Spelled base64 (.compositeOr fs) := by
  have happend : appendFilter base64 (.compositeOr fs) =
      some (.text "(" :: separated " OR " (fs.map (pushesOf base64)) ++ [.text ")"]) := by
    rw [appendFilter, appendFilters_eq h]
    rfl
  have hpushes : pushesOf base64 (.compositeOr fs) =
      .text "(" :: separated " OR " (fs.map (pushesOf base64)) ++ [.text ")"] := by
    rw [pushesOf, happend]
    rfl
  have hwrites := (writes_separated lex_or stops_or hne fun f hf => (h f hf).writes).group
  have hreads (n : ℕ) := disjunctTokens_reads h n
  have hdisj (n : ℕ) : disjunctTokens base64 n fs ≠ [] := by
    rw [disjunctTokens_eq]
    exact numbered_ne_nil hne
  have hmatched (n : ℕ) : isMatched (join orTok (disjunctTokens base64 n fs)) = true :=
    @isSealed_join .rParen _ orTok (by decide) (fun _ => rfl) (by decide) fun part hpart =>
      isMatched_of_isSealed ((hreads n).1 part hpart)
  refine ⟨by rw [hpushes, happend], ?_, fun n => ?_, fun n => ?_, fun n => ?_⟩
  · simp only [hpushes, boundValues, allBoundValues_eq, conjunctTokens,
      disjunctTokens_eq]
    exact hwrites
  · simp [conjunctTokens]
  · rw [conjunctTokens, List.forall_mem_singleton]
    exact isConjunct_group (hmatched n)
  · rw [conjunctTokens, conjunctFormulas]
    exact .cons ((reads_disj (hdisj n) (hreads n).1 (hreads n).2).group (hmatched n)) .nil

end Children

mutual

/-- Every accepted filter is written as its conjuncts joined by AND. -/
theorem spelled_of_accepted : ∀ f : QueryFilter, f.Accepted → Spelled base64 f
  | .field _, h => spelled_field h
  | .composite fs, h => spelled_composite h.1 (allSpelled_of_accepted fs h.2)
  | .compositeOr fs, h => spelled_compositeOr h.1 (allSpelled_of_accepted fs h.2)

theorem allSpelled_of_accepted :
    ∀ fs : List QueryFilter, AllAccepted fs → ∀ f ∈ fs, Spelled base64 f
  | [], _ => by simp
  | f :: fs, h =>
    List.forall_mem_cons.mpr ⟨spelled_of_accepted f h.1, allSpelled_of_accepted fs h.2⟩

end

end Spelling

/-! ## Placeholders -/

/-- The placeholders of a token list, in order. -/
def placeholders (ts : List Sql.Token) : List String :=
  ts.filterMap fun
    | .param digits => some digits
    | _ => none

/-- The placeholders of the next parameters. -/
def nextPlaceholders (bound count : ℕ) : List String :=
  (List.range' (bound + 1) count).map fun k => String.ofList (Nat.toDigits 10 k)

theorem nextPlaceholders_add (bound m k : ℕ) :
    nextPlaceholders bound (m + k) = nextPlaceholders bound m ++ nextPlaceholders (bound + m) k := by
  rw [nextPlaceholders, ← List.range'_append_1, List.map_append, Nat.add_right_comm]
  rfl

@[simp] theorem placeholders_append (ts us : List Sql.Token) :
    placeholders (ts ++ us) = placeholders ts ++ placeholders us := by
  rw [placeholders, List.filterMap_append]
  rfl

section Placeholders

variable (base64 : Base64)

theorem placeholders_sqlAtom (bound : ℕ) (a : SqlAtom) :
    placeholders (a.tokens bound) = nextPlaceholders bound (a.bindCount base64) := by
  cases a with
  | falsity | valueEq | textEq | contains => rfl
  | isNull path negate => cases negate <;> rfl
  | compares path op target => cases target <;> rfl

/-- Items with their own placeholders in order have them in order when joined. -/
theorem placeholders_numbered {α : Type} {sep : Sql.Token} (hsep : placeholders [sep] = [])
    {count : α → ℕ} {tokens : ℕ → α → List Sql.Token} {items : List α}
    (h : ∀ a ∈ items, ∀ n, placeholders (tokens n a) = nextPlaceholders n (count a)) (bound : ℕ) :
    placeholders (join sep (numbered count tokens bound items)) =
      nextPlaceholders bound (items.map count).sum := by
  induction items generalizing bound with
  | nil => rfl
  | cons a items ih =>
    have ha := h a List.mem_cons_self bound
    have hrest := ih (List.forall_mem_cons.mp h).2 (bound + count a)
    cases items with
    | nil => simpa [numbered, join] using ha
    | cons b items =>
      rw [numbered, join_cons (by simp [numbered]), ← List.singleton_append, placeholders_append,
        placeholders_append, ha, hsep, hrest, List.nil_append, ← nextPlaceholders_add]
      rfl

theorem placeholders_fieldPredicate (bound : ℕ) (pred : FieldPredicate) :
    placeholders (pred.tokens base64 bound) =
      nextPlaceholders bound (pred.binds base64).length := by
  have hatoms (sep : Sql.Token) (hsep : placeholders [sep] = []) (atoms : List SqlAtom) :
      placeholders (.lParen :: join sep (numbered (SqlAtom.bindCount base64) SqlAtom.tokens bound atoms)
        ++ [.rParen]) = nextPlaceholders bound (atoms.flatMap (SqlAtom.binds base64)).length := by
    rw [List.length_flatMap, ← List.singleton_append, placeholders_append, placeholders_append,
      placeholders_numbered hsep fun a _ n => placeholders_sqlAtom base64 n a]
    simp only [placeholders, List.filterMap_cons, List.filterMap_nil, List.nil_append,
      List.append_nil]
    rfl
  cases pred with
  | atom a => exact placeholders_sqlAtom base64 bound a
  | any atoms => exact hatoms orTok rfl atoms
  | all atoms => exact hatoms andTok rfl atoms

variable {base64}

/-- The children of a composite number their parameters one after another. -/
theorem placeholders_disjunctTokens {sep : Sql.Token} (hsep : placeholders [sep] = [])
    {fs : List QueryFilter}
    (h : ∀ f ∈ fs, ∀ n, placeholders (join andTok (f.conjunctTokens base64 n)) =
      nextPlaceholders n (f.boundValues base64).length) (bound : ℕ) :
    placeholders (join sep (disjunctTokens base64 bound fs)) =
      nextPlaceholders bound (allBoundValues base64 fs).length := by
  rw [disjunctTokens_eq, placeholders_numbered hsep h, allBoundValues_eq, List.length_flatMap]

mutual

theorem placeholders_conjunctTokens :
    ∀ f : QueryFilter, f.Accepted → ∀ n, placeholders (join andTok (f.conjunctTokens base64 n)) =
      nextPlaceholders n (f.boundValues base64).length
  | .field f, h, n => by
    obtain ⟨pushes, pred, -, hpred, -⟩ := writes_fieldFilter base64 h.1 h.2
    simp only [conjunctTokens, boundValues, hpred, join]
    exact placeholders_fieldPredicate base64 n pred
  | .composite fs, h, n => by
    rw [conjunctTokens, (allConjunctTokens_spec (allSpelled_of_accepted fs h.2) n).2]
    exact placeholders_disjunctTokens rfl (placeholders_allConjunctTokens fs h.2) n
  | .compositeOr fs, h, n => by
    rw [conjunctTokens, join, ← List.singleton_append, placeholders_append,
      placeholders_append,
      placeholders_disjunctTokens rfl (placeholders_allConjunctTokens fs h.2) n]
    exact List.append_nil _

theorem placeholders_allConjunctTokens :
    ∀ fs : List QueryFilter, AllAccepted fs → ∀ f ∈ fs, ∀ n,
      placeholders (join andTok (f.conjunctTokens base64 n)) =
        nextPlaceholders n (f.boundValues base64).length
  | [], _ => by simp
  | f :: fs, h => List.forall_mem_cons.mpr
      ⟨placeholders_conjunctTokens f h.1, placeholders_allConjunctTokens fs h.2⟩

end

end Placeholders

/-! ## The text without the client's values -/

/-- The fixed scalar of a value's kind. -/
def FieldValue.emptied : FieldValue → FieldValue
  | .boolean _ => .boolean false
  | .integer _ => .integer 0
  | .double _ => .double .zero
  | .timestamp _ _ => .timestamp 0 0
  | .string _ => .string ""
  | .bytes _ => .bytes []
  | .reference _ => .reference ""
  | v => v

/-- The filter with its value replaced: the kind stays for a range operator, the
number of targets for a list operator. -/
def FieldFilter.blanked (f : FieldFilter) : FieldFilter :=
  { f with
    value :=
      match f.op.isRange, f.op.listName, f.value with
      | true, _, v => v.emptied
      | false, some _, .array targets => .array (targets.map fun _ => .null)
      | false, some _, v => v
      | false, none, _ => .null }

mutual

/-- The tree with the values of all its field filters replaced. -/
def QueryFilter.blanked : QueryFilter → QueryFilter
  | .field f => .field f.blanked
  | .composite filters => .composite (QueryFilter.allBlanked filters)
  | .compositeOr filters => .compositeOr (QueryFilter.allBlanked filters)

def QueryFilter.allBlanked : List QueryFilter → List QueryFilter
  | [] => []
  | f :: fs => f.blanked :: QueryFilter.allBlanked fs

end

/-- A push without the value it binds. -/
def Push.shape : Push → Push
  | .text s => .text s
  | .bind _ => .bind (.boolean false)

theorem sqlText_shape (bound : ℕ) (pushes : List Push) :
    sqlText bound (pushes.map shape) = sqlText bound pushes := by
  induction pushes generalizing bound with
  | nil => rfl
  | cons push pushes ih => cases push <;> simp [shape, sqlText, ih]

theorem map_separated (g : Push → Push) (hg : ∀ s, g (.text s) = .text s) (separator : String)
    (items : List (List Push)) :
    (separated separator items).map g = separated separator (items.map (List.map g)) := by
  induction items with
  | nil => rfl
  | cons item items ih =>
    cases items with
    | nil => rfl
    | cons next items =>
      rw [List.map_cons] at ih
      simp [separated, hg, ih]

section Blanked

variable (base64 : Base64)

theorem shape_pushTargets (separator : String) {push : FieldValue → List Push}
    (hpush : ∀ t u, (push t).map shape = (push u).map shape) (targets : List FieldValue) :
    (pushTargets separator push (targets.map fun _ => .null)).map shape =
      (pushTargets separator push targets).map shape := by
  have hall : (targets.map fun _ => FieldValue.null).map (List.map shape ∘ push) =
      targets.map (List.map shape ∘ push) := by
    rw [List.map_map]
    exact List.map_congr_left fun t _ => hpush _ t
  simp only [pushTargets, List.map_cons, List.map_append, map_separated shape (fun _ => rfl),
    List.map_map (g := List.map shape), hall]

theorem shape_appendFieldFilter (f : FieldFilter) :
    (appendFieldFilter base64 f.blanked).map (List.map shape) =
      (appendFieldFilter base64 f).map (List.map shape) := by
  obtain ⟨path, op, value⟩ := f
  simp only [appendFieldFilter, FieldFilter.blanked]
  cases validateFieldPath path with
  | error e => rfl
  | ok _ =>
    cases op with
    | isNan | isNotNan | isNull | isNotNull | equal | notEqual | arrayContains => rfl
    | lessThan | lessThanOrEqual | greaterThan | greaterThanOrEqual => cases value <;> rfl
    | isIn | notIn | arrayContainsAny =>
      cases value with
      | array targets =>
        cases targets with
        | nil => rfl
        | cons t targets => exact congrArg some (shape_pushTargets _ (fun _ _ => rfl) (t :: targets))
      | null | map | boolean | integer | double | timestamp | string | bytes | reference => rfl

mutual

theorem shape_appendFilter :
    ∀ f : QueryFilter, (appendFilter base64 f.blanked).map (List.map shape) =
      (appendFilter base64 f).map (List.map shape)
  | .field f => shape_appendFieldFilter base64 f
  | .composite fs => by
    have h := congrArg (Option.map (separated " AND ")) (shape_appendFilters fs)
    simpa only [blanked, appendFilter, Option.map_map, Function.comp_def,
      map_separated shape (fun _ => rfl)] using h
  | .compositeOr fs => by
    have h := congrArg (Option.map fun children =>
      .text "(" :: separated " OR " children ++ [.text ")"]) (shape_appendFilters fs)
    simpa only [blanked, appendFilter, Option.map_map, Function.comp_def,
      List.map_cons, List.map_append, List.map_nil, shape,
      map_separated shape (fun _ => rfl)] using h

theorem shape_appendFilters :
    ∀ fs : List QueryFilter,
      (appendFilters base64 (allBlanked fs)).map (List.map (List.map shape)) =
        (appendFilters base64 fs).map (List.map (List.map shape))
  | [] => rfl
  | f :: fs => by
    have hf := shape_appendFilter f
    have hfs := shape_appendFilters fs
    rw [allBlanked, appendFilters, appendFilters]
    cases ha : appendFilter base64 f.blanked <;> cases hb : appendFilter base64 f <;>
      rw [ha, hb] at hf
    · rfl
    · cases hf
    · cases hf
    · cases hc : appendFilters base64 (allBlanked fs) <;>
        cases hd : appendFilters base64 fs <;> rw [hc, hd] at hfs
      · rfl
      · cases hfs
      · cases hfs
      · have hhead := Option.some.inj hf
        have htail := Option.some.inj hfs
        exact congrArg some (congrArg₂ List.cons hhead htail)

end

/-- The text of an accepted filter is the text of the filter without the client's
values. -/
theorem sqlText_blanked {f : QueryFilter} {pushes : List Push}
    (h : appendFilter base64 f = some pushes) :
    ∃ blanked, appendFilter base64 f.blanked = some blanked ∧
      ∀ bound, sqlText bound pushes = sqlText bound blanked := by
  have hshape := shape_appendFilter base64 f
  rw [h] at hshape
  obtain ⟨blanked, hblanked, heq⟩ := Option.map_eq_some_iff.mp hshape
  refine ⟨blanked, hblanked, fun bound => ?_⟩
  rw [← sqlText_shape, ← heq, sqlText_shape]

/-- The text of an accepted filter, between the other conditions of a WHERE clause,
reads as the AND/OR structure of the tree over the predicates of its fields. It binds
the values from left to right, numbers them in that order, and is the same text for
every filter with the same paths, operators and kinds of values. -/
theorem appendFilter_structure (f : QueryFilter) (h : f.Accepted) :
    ∃ pushes, appendFilter base64 f = some pushes ∧
      (∀ (bound : ℕ) (before after : List (List Sql.Token)),
        (∀ part ∈ before ++ after, IsConjunct part) →
        parse (join andTok (before ++ lex (sqlText bound pushes) :: after)) =
          conj (before.map parse ++ f.conjunctFormulas base64 bound ++ after.map parse)) ∧
      binds pushes = f.boundValues base64 ∧
      (∀ bound, placeholders (lex (sqlText bound pushes)) =
        nextPlaceholders bound (f.boundValues base64).length) ∧
      ∃ blanked, appendFilter base64 f.blanked = some blanked ∧
        ∀ bound, sqlText bound pushes = sqlText bound blanked := by
  have hspelled : Spelled base64 f := spelled_of_accepted f h
  have hlex (bound : ℕ) : lex (sqlText bound (pushesOf base64 f)) =
      join andTok (f.conjunctTokens base64 bound) := hspelled.writes.lex_eq bound
  refine ⟨_, hspelled.appended, fun bound before after hcontext => ?_, hspelled.writes.binds,
    fun bound => ?_, sqlText_blanked base64 hspelled.appended⟩
  · have hparts : join andTok (before ++ lex (sqlText bound (pushesOf base64 f)) :: after) =
        join andTok (before ++ f.conjunctTokens base64 bound ++ after) := by
      rw [hlex]
      exact join_join andTok (hspelled.nonempty bound) before after
    rw [hparts]
    have hcontextReads (parts : List (List Sql.Token)) : List.Forall₂ Sql.Reads parts (parts.map parse) :=
      List.forall₂_map_right_iff.mpr (List.forall₂_same.mpr fun part _ => reads_parse part)
    refine (reads_conj ?_ ?_ ?_).parse
    · simp [hspelled.nonempty bound]
    · intro part hpart
      rcases List.mem_append.mp hpart with hpart | hpart
      · rcases List.mem_append.mp hpart with hpart | hpart
        · exact hcontext part (List.mem_append_left _ hpart)
        · exact hspelled.isConjunct bound part hpart
      · exact hcontext part (List.mem_append_right _ hpart)
    · exact List.rel_append (List.rel_append (hcontextReads before) (hspelled.reads bound))
        (hcontextReads after)
  · rw [hlex]
    exact placeholders_conjunctTokens f h bound

end Blanked

/-- An age bound or a name, after a condition on the project: the OR stays one
conjunct. -/
theorem appendFilter_structure_either :
    let f : QueryFilter := .compositeOr [.field ⟨"age", .lessThan, .integer 5⟩,
      .field ⟨"name", .equal, .string "Ada"⟩]
    let project : List Sql.Token := [.word "project_id", .symbol "=", .param "1"]
    f.Accepted ∧ ∃ pushes, appendFilter byteText f = some pushes ∧
      parse (join andTok ([project] ++ lex (sqlText 1 pushes) :: [])) =
        conj ([project].map parse ++ f.conjunctFormulas byteText 1 ++ []) := by
  intro f project
  have haccepted : f.Accepted := ⟨by simp, ⟨by decide, rfl⟩, ⟨by decide, rfl⟩, trivial⟩
  obtain ⟨pushes, hpushes, hparse, -⟩ := appendFilter_structure byteText f haccepted
  exact ⟨haccepted, pushes, hpushes, hparse 1 [project] [] (by
    intro part hpart
    obtain rfl : part = project := by simpa using hpart
    exact ⟨rfl, rfl⟩)⟩

/-- A range comparison with one timestamp binds two parameters. -/
theorem timestamp_binds_two :
    Accepted (.field ⟨"when", .lessThan, .timestamp 5 6⟩) ∧
      ∃ pushes, appendFilter byteText (.field ⟨"when", .lessThan, .timestamp 5 6⟩) = some pushes ∧
        binds pushes = [.bigint 5, .int4 6] :=
  ⟨⟨by decide, rfl⟩, _, rfl, rfl⟩

end Embyr
