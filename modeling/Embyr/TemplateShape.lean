import Embyr.ConditionParser

/-!
# The shape of a resolved path

A `get()`/`exists()` path is a template; its substitutions are texts that the caller may choose.

* `KeepsShape` — the resolved path has the template's segments, each with its value, and is looked
  up in the collection made of all of them but the last.
* `parsePathTemplate_literal` — no literal of an accepted template has a separator.
* `template_keeps_shape_iff` — so the shape is kept exactly when no substituted text has one.
-/

namespace Embyr

open Text List

/-- `path` reads as the template says, segment by segment. -/
structure KeepsShape (template : PathTemplate) (auth : Option AuthContext) (leaf : Option String)
    (ancestors : StrMap String) (path : String) : Prop where
  length : (Text.split '/' path).length = template.segments.length
  segment : ∀ (i : ℕ) (segment : PathTemplateSegment), template.segments[i]? = some segment →
    (Text.split '/' path)[i]? = resolveTemplateSegment auth leaf ancestors segment
  /-- where `fetch_cross_document_reads` looks -/
  collection : ∀ collectionPath documentId,
    Text.rsplitOnce '/' path = some (collectionPath, documentId) →
    resolvePathTemplate ⟨template.segments.dropLast⟩ auth leaf ancestors = some collectionPath

/-- No text substituted in the template has a separator. -/
structure PlainSubstitutions (template : PathTemplate) (auth : Option AuthContext)
    (leaf : Option String) (ancestors : StrMap String) : Prop where
  uid : .authUid ∈ template.segments → ∀ caller ∈ auth, '/' ∉ caller.uid.toList
  pathVariable : ∀ name, .pathVariable name ∈ template.segments →
    ∀ value ∈ resolvePathVariable leaf ancestors name, '/' ∉ value.toList

/-! ## What the parser accepts -/

theorem parseTemplateSegment_literal {raw s : String}
    (h : parseTemplateSegment raw = .ok (.literal s)) : s = raw := by
  rw [parseTemplateSegment] at h
  split at h
  · split_ifs at h
    · cases h
    · split at h
      · split_ifs at h <;> cases h
      · cases h
  · split_ifs at h
    · cases h
    · cases h
      rfl

theorem mapM_eq_ok_iff {α β ε : Type} {f : α → Except ε β} {l : List α} {l' : List β} :
    l.mapM f = .ok l' ↔ Forall₂ (fun a b => f a = .ok b) l l' := by
  induction l generalizing l' with
  | nil => simp [pure, Except.pure, eq_comm]
  | cons a l ih =>
    rw [mapM_cons, forall₂_cons_left_iff]
    simp only [← ih]
    rcases h : f a with e | b
    · simp [bind, Except.bind]
    · rcases h' : l.mapM f with e | bs <;>
        simp [bind, Except.bind, pure, Except.pure, eq_comm]

theorem mapM_eq_some_iff {α β : Type} {f : α → Option β} {l : List α} {l' : List β} :
    l.mapM f = some l' ↔ Forall₂ (fun a b => f a = some b) l l' := by
  induction l generalizing l' with
  | nil => simp [eq_comm]
  | cons a l ih =>
    rw [mapM_cons, forall₂_cons_left_iff]
    simp only [← ih]
    rcases h : f a with _ | b
    · simp
    · rcases h' : l.mapM f with _ | bs <;> simp [eq_comm]

/-- The raw segments behind an accepted template: parts of the text, at least one of them. -/
theorem parsePathTemplate_eq_ok {raw : String} {template : PathTemplate}
    (h : parsePathTemplate raw = .ok template) :
    ∃ raws : List String, raws ≠ [] ∧ (∀ part ∈ raws, part ∈ split '/' raw) ∧
      raws.mapM parseTemplateSegment = .ok template.segments := by
  rw [parsePathTemplate] at h
  split at h
  · rename_i raws hraws
    split_ifs at h with hempty
    · cases h
    rcases hsegments : raws.mapM parseTemplateSegment with e | segments
    · rw [hsegments] at h
      cases h
    · rw [hsegments] at h
      cases h
      refine ⟨raws, by simpa using hempty, ?_, hsegments⟩
      intro part hpart
      have hmem : part ∈ (split '/' raw).filter (!·.isEmpty) := by
        rw [hraws]
        simp [hpart]
      exact mem_of_mem_filter hmem
  · cases h

theorem parsePathTemplate_ne_nil {raw : String} {template : PathTemplate}
    (h : parsePathTemplate raw = .ok template) : template.segments ≠ [] := by
  obtain ⟨raws, hne, -, hraws⟩ := parsePathTemplate_eq_ok h
  intro hnil
  rw [hnil, mapM_eq_ok_iff, forall₂_nil_right_iff] at hraws
  exact hne hraws

theorem parsePathTemplate_literal {raw : String} {template : PathTemplate}
    (h : parsePathTemplate raw = .ok template) {s : String}
    (hs : .literal s ∈ template.segments) : '/' ∉ s.toList := by
  obtain ⟨raws, -, hparts, hraws⟩ := parsePathTemplate_eq_ok h
  obtain ⟨part, hpart, hparse⟩ := exists_of_mem_forall₂ (mapM_eq_ok_iff.mp hraws) hs
  rw [parseTemplateSegment_literal hparse]
  exact not_mem_of_mem_split (hparts part hpart)

/-! ## The resolved path -/

section Resolved

variable {template : PathTemplate} {auth : Option AuthContext} {leaf : Option String}
  {ancestors : StrMap String} {values : List String}

theorem resolvePathTemplate_eq_some {path : String}
    (h : resolvePathTemplate template auth leaf ancestors = some path) :
    ∃ values, Forall₂ (fun segment value =>
      resolveTemplateSegment auth leaf ancestors segment = some value) template.segments values ∧
      path = join '/' values := by
  obtain ⟨values, hvalues, rfl⟩ := Option.map_eq_some_iff.mp h
  exact ⟨values, mapM_eq_some_iff.mp hvalues, rfl⟩

variable (hvalues : Forall₂ (fun segment value =>
  resolveTemplateSegment auth leaf ancestors segment = some value) template.segments values)

include hvalues

/-- Segment by segment is all at once. -/
theorem KeepsShape.split_eq (h : KeepsShape template auth leaf ancestors (join '/' values)) :
    split '/' (join '/' values) = values := by
  refine List.ext_getElem? fun i => ?_
  rcases hi : template.segments[i]? with _ | segment
  · have hlength := List.getElem?_eq_none_iff.mp hi
    rw [List.getElem?_eq_none (h.length ▸ hlength),
      List.getElem?_eq_none (hvalues.length_eq ▸ hlength)]
  · rw [h.segment i segment hi]
    obtain ⟨hlt, rfl⟩ := List.getElem?_eq_some_iff.mp hi
    have hlt' : i < values.length := hvalues.length_eq ▸ hlt
    rw [List.getElem?_eq_getElem hlt']
    exact (List.forall₂_iff_get.mp hvalues).2 i hlt hlt'

theorem KeepsShape.of_plain (hne : template.segments ≠ [])
    (hplain : ∀ value ∈ values, '/' ∉ value.toList) :
    KeepsShape template auth leaf ancestors (join '/' values) := by
  have hne' : values ≠ [] := by
    rintro rfl
    exact hne (List.forall₂_nil_right_iff.mp hvalues)
  have hsplit : split '/' (join '/' values) = values := split_join hne' hplain
  refine ⟨?_, ?_, ?_⟩
  · rw [hsplit, hvalues.length_eq]
  · intro i segment hi
    obtain ⟨hlt, rfl⟩ := List.getElem?_eq_some_iff.mp hi
    have hlt' : i < values.length := hvalues.length_eq ▸ hlt
    rw [hsplit, List.getElem?_eq_getElem hlt']
    exact ((List.forall₂_iff_get.mp hvalues).2 i hlt hlt').symm
  · intro collectionPath documentId hcut
    have hdrop := List.forall₂_take (template.segments.length - 1) hvalues
    rw [← List.dropLast_eq_take, hvalues.length_eq, ← List.dropLast_eq_take] at hdrop
    rw [resolvePathTemplate, mapM_eq_some_iff.mpr hdrop, Option.map_some]
    rw [rsplitOnce, hsplit] at hcut
    split at hcut
    · rename_i last before rest hreverse
      cases hcut
      rw [← List.reverse_reverse values, hreverse, List.reverse_cons, List.dropLast_concat]
    · cases hcut

/-- The values of a template have no separator when its substitutions have none. -/
theorem plain_values_iff
    (hliteral : ∀ s, .literal s ∈ template.segments → '/' ∉ s.toList) :
    (∀ value ∈ values, '/' ∉ value.toList) ↔
      PlainSubstitutions template auth leaf ancestors := by
  constructor
  · intro hplain
    have hsegment : ∀ segment ∈ template.segments, ∀ value,
        resolveTemplateSegment auth leaf ancestors segment = some value → '/' ∉ value.toList := by
      intro segment hmem value hvalue
      obtain ⟨value', hmem', hvalue'⟩ := exists_of_mem_forall₂ hvalues.flip hmem
      rw [hvalue] at hvalue'
      cases hvalue'
      exact hplain value hmem'
    refine ⟨fun hmem caller hcaller => hsegment _ hmem _ ?_,
      fun name hmem value hvalue => hsegment _ hmem _ hvalue⟩
    rw [resolveTemplateSegment, hcaller, Option.map_some]
  · intro hplain value hmem
    obtain ⟨segment, hsegment, hvalue⟩ := exists_of_mem_forall₂ hvalues hmem
    cases segment with
    | literal s =>
      obtain rfl := Option.some.inj hvalue
      exact hliteral s hsegment
    | authUid =>
      obtain ⟨caller, hcaller, rfl⟩ := Option.map_eq_some_iff.mp hvalue
      exact hplain.uid hsegment caller hcaller
    | pathVariable name => exact hplain.pathVariable name hsegment value hvalue

omit hvalues in
/-- **A resolved path keeps the template's shape exactly when no substituted text has a
separator.** -/
theorem template_keeps_shape_iff {raw path : String} (h : parsePathTemplate raw = .ok template)
    (hpath : resolvePathTemplate template auth leaf ancestors = some path) :
    KeepsShape template auth leaf ancestors path ↔
      PlainSubstitutions template auth leaf ancestors := by
  obtain ⟨values, hvalues, rfl⟩ := resolvePathTemplate_eq_some hpath
  rw [← plain_values_iff hvalues fun s => parsePathTemplate_literal h]
  constructor
  · intro hshape value hmem
    rw [← hshape.split_eq hvalues] at hmem
    exact not_mem_of_mem_split hmem
  · exact KeepsShape.of_plain hvalues (parsePathTemplate_ne_nil h)

end Resolved

/-- A membership document of the caller. -/
def ownMembership : PathTemplate := ⟨[.literal "members", .authUid]⟩

theorem template_keeps_shape_ownMembership :
    KeepsShape ownMembership (some ⟨"ada", ∅⟩) none ∅ "members/ada" := by
  have hplain : PlainSubstitutions ownMembership (some ⟨"ada", ∅⟩) none ∅ := by
    refine ⟨fun _ caller hcaller => ?_, fun name hname => ?_⟩
    · cases hcaller
      decide
    · simp [ownMembership] at hname
  have hparse : parsePathTemplate
      "/databases/$(database)/documents/members/$(request.auth.uid)" = .ok ownMembership := by
    decide
  exact (template_keeps_shape_iff hparse (by decide)).mpr hplain

/-- A caller whose uid has separators is looked up in another collection. -/
theorem uid_redirects_lookup :
    parsePathTemplate "/databases/$(database)/documents/members/$(request.auth.uid)" =
        .ok ownMembership ∧
      resolvePathTemplate ownMembership (some ⟨"x/notes/y", ∅⟩) none ∅ =
        some "members/x/notes/y" ∧
      (Text.split '/' "members/x/notes/y").length = 4 ∧
      Text.rsplitOnce '/' "members/x/notes/y" = some ("members/x/notes", "y") := by
  decide

end Embyr
