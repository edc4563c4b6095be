import Embyr.World
import Embyr.WriteHandlers

/-!
# Reading back the names that are built

The server names a document `projects/P/databases/(default)/documents/C/D`
(`build_document_response`, `document_to_proto`) and reads names back by searching for the
text `/documents/` (`parse_document_path`, `parse_agent_doc_name`) or `/documents`
(`parse_parent_prefix`) wherever it stands first. So a name is read back right unless the
searched text stands somewhere it was not meant to:

* `documentName_read`: what the search makes of a document's name;
* `parentName_read`: what it makes of a parent's;
* `names_round_trip_iff`: exactly which names come back.
-/

namespace Embyr

open Text List

/-! ## Building and reading -/

/-- `domain_collection_prefix_to_agent_parent`: the parent of the collections under a
document, or under the root if the path is empty. -/
def parentName (project : ProjectId) (pre : String) : String :=
  let base := "projects/" ++ project.value ++ "/databases/(default)/documents"
  if pre.isEmpty then base else base ++ "/" ++ pre

/-- `parse_agent_doc_name`. -/
def parseAgentDocName (name : String) : Option (String × String × String) := do
  let afterDocs ← Text.betweenFirstTwo "/documents/" name
  let segments := Text.split '/' afterDocs
  match Text.splitn 5 '/' name with
  | _ :: projectId :: _ => some (projectId, Text.join '/' segments.dropLast, segments.getLastD "")
  | _ => none

/-! ## The project of a name -/

theorem ProjectId.slash_not_mem (project : ProjectId) : '/' ∉ project.value.toList := by
  have hvalid := project.valid
  rw [isValidProjectId, Bool.and_eq_true] at hvalid
  obtain ⟨-, hchars⟩ := hvalid
  rcases hlist : project.value.toList with _ | ⟨c, cs⟩
  · simp
  · rw [hlist] at hchars
    simp only [Bool.and_eq_true, all_eq_true] at hchars
    intro hmem
    rcases mem_cons.mp hmem with rfl | hmem
    · exact absurd hchars.1 (by decide)
    · exact absurd (hchars.2 '/' hmem) (by decide)

/-- The first two parts of a text that has them. -/
theorem splitn_five_eq {a b : String} (ha : '/' ∉ a.toList) (hb : '/' ∉ b.toList) (rest : String) :
    ∃ parts, splitn 5 '/' (a ++ "/" ++ (b ++ "/" ++ rest)) = a :: b :: parts := by
  have hsplit : split '/' (a ++ "/" ++ (b ++ "/" ++ rest)) =
      a :: b :: split '/' rest := by
    rw [split_append, split_append, split_of_not_mem ha, split_of_not_mem hb]
    rfl
  rw [splitn, hsplit]
  simp only [take_succ_cons, cons_append]
  split
  · exact ⟨_, rfl⟩
  · exact ⟨_, rfl⟩

theorem ProjectId.new_value (project : ProjectId) : ProjectId.new project.value = .ok project := by
  rw [ProjectId.new, dif_pos project.valid]

theorem ProjectId.isEmpty_value (project : ProjectId) : project.value.isEmpty = false := by
  have hvalid := project.valid
  rw [isValidProjectId, Bool.and_eq_true, Bool.not_eq_true', Bool.or_eq_false_iff] at hvalid
  exact hvalid.1.1

/-- The project of a name is the one it was built with. -/
theorem extractProjectId_projects (project : ProjectId) (rest : String) :
    extractProjectId ("projects" ++ "/" ++ (project.value ++ "/" ++ rest)) = .ok project := by
  obtain ⟨parts, hparts⟩ :=
    splitn_five_eq (show '/' ∉ "projects".toList by decide) project.slash_not_mem rest
  rw [extractProjectId, hparts]
  simp only [project.isEmpty_value, Bool.false_eq_true, if_false, ProjectId.new_value]

/-! ## What the search finds -/

/-- The text of a document's name, segment by segment. -/
theorem documentName_eq (path : DocumentPath) :
    documentName path = "projects" ++ "/" ++ (path.projectId.value ++ "/" ++ ("databases" ++ "/" ++
      ("(default)" ++ "/" ++ ("documents" ++ "/" ++
        (path.collectionPath ++ "/" ++ path.documentId))))) := by
  rw [documentName, ← String.toList_inj]
  simp

/-- The text a document's name is read from: what stands between the first two places where
`documents` is a segment with others around it. -/
theorem documentName_read (path : DocumentPath) :
    betweenFirstTwo "/documents/" (documentName path) =
      if path.projectId.value = "documents" then some "databases/(default)"
      else some (beforeFirst "/documents/" (path.collectionPath ++ "/" ++ path.documentId)) := by
  have hmarker : "/documents/" = "/" ++ ("documents" ++ "/") := by decide
  have hm : '/' ∉ "documents".toList := by decide
  have hp := path.projectId.slash_not_mem
  rw [documentName_eq, betweenFirstTwo, hmarker,
    afterFirst_segment hm (by decide) hp]
  by_cases h : path.projectId.value = "documents"
  · rw [if_pos h.symm, if_pos h, Option.map_some, beforeFirst_segment hm (by decide) (by decide),
      if_neg (by decide), beforeFirst_segment hm (by decide) (by decide), if_pos rfl]
    rfl
  · rw [if_neg (Ne.symm h), if_neg h, afterFirst_segment hm hp (by decide),
      if_neg (by decide), afterFirst_segment hm (by decide) (by decide), if_neg (by decide),
      afterFirst_segment hm (by decide) (by decide), if_pos rfl, Option.map_some]

/-- The text of a parent's name, segment by segment. -/
theorem parentName_eq (project : ProjectId) (pre : String) :
    parentName project pre = "projects" ++ "/" ++ (project.value ++ "/" ++ ("databases" ++ "/" ++
      ("(default)" ++ "/" ++ ("documents" ++ if pre.isEmpty then "" else "/" ++ pre)))) := by
  rw [parentName, ← String.toList_inj]
  split <;> simp

theorem extractProjectId_parentName (project : ProjectId) (pre : String) :
    extractProjectId (parentName project pre) = .ok project := by
  rw [parentName_eq]
  exact extractProjectId_projects project _

/-- The text a parent's name is read from: all that stands after the first segment that
starts with `documents`. -/
theorem parentName_read (project : ProjectId) (pre : String) :
    afterFirst "/documents" (parentName project pre) =
      if "documents".toList <+: project.value.toList then
        some (String.ofList (project.value.toList.drop 9) ++ "/" ++
          ("databases/(default)/documents" ++ if pre.isEmpty then "" else "/" ++ pre))
      else some (if pre.isEmpty then "" else "/" ++ pre) := by
  have hmarker : "/documents" = "/" ++ "documents" := by decide
  have hm : '/' ∉ "documents".toList := by decide
  have hstart : ∀ b rest : String, "documents".toList <+: (b ++ "/" ++ rest).toList ↔
      "documents".toList <+: b.toList := by
    intro b rest
    have := isPrefix_append_sep (b := b.toList) hm rest.toList
    simpa using this
  have hdatabases : ¬ "documents".toList <+: "databases".toList := by decide
  have hdefault : ¬ "documents".toList <+: "(default)".toList := by decide
  rw [parentName_eq, hmarker, afterFirst_append (by decide)]
  by_cases h : "documents".toList <+: project.value.toList
  · rw [if_pos ((hstart _ _).mpr h), if_pos h, Option.some.injEq, ← String.toList_inj]
    obtain ⟨rest, hrest⟩ := h
    simp [← hrest]
  · rw [if_neg (mt (hstart _ _).mp h), if_neg h, afterFirst_append project.slash_not_mem,
      if_neg (mt (hstart _ _).mp hdatabases), afterFirst_append (by decide),
      if_neg (mt (hstart _ _).mp hdefault), afterFirst_append (by decide), if_pos (by simp)]
    simp

/-! ## Which names come back -/

/-- A segment of a path. -/
def Segment (s : String) : Prop := s ≠ "" ∧ '/' ∉ s.toList

/-- A document's name is read back if neither the project nor a segment of the collection path
after its first is `documents`; for the project `documents` one name comes back by accident. -/
def NameReads (project : ProjectId) (segments : List String) (documentId : String) : Prop :=
  (project.value ≠ "documents" ∧ "documents" ∉ segments.tail) ∨
    (project.value = "documents" ∧ segments = ["databases"] ∧ documentId = "(default)")

section

variable {project : ProjectId} {segments : List String} {documentId : String}

theorem join_segments_ne_empty (hne : segments ≠ []) (hsegments : ∀ c ∈ segments, Segment c) :
    join '/' segments ≠ "" := by
  obtain ⟨c, cs, rfl⟩ := exists_cons_of_ne_nil hne
  exact join_ne_empty (hsegments c mem_cons_self).1

/-- The text that is read is the one that was written. -/
theorem documentName_read_eq_iff (hne : segments ≠ []) (hsegments : ∀ c ∈ segments, Segment c)
    (hid : Segment documentId) :
    betweenFirstTwo "/documents/" (documentName ⟨project, join '/' segments, documentId⟩) =
        some (join '/' segments ++ "/" ++ documentId) ↔
      NameReads project segments documentId := by
  have hseps : ∀ c ∈ segments, '/' ∉ c.toList := fun c hc => (hsegments c hc).2
  rw [documentName_read, NameReads]
  by_cases h : project.value = "documents"
  · -- the text read is fixed, and only one path has it
    simp only [h, if_true, Option.some.injEq, ne_eq, not_true_eq_false, false_and, true_and,
      false_or]
    constructor
    · intro heq
      have hparts : ["databases", "(default)"] = segments ++ [documentId] := by
        have hsplit := congrArg (split '/') heq
        rw [split_append, split_join hne hseps, split_of_not_mem hid.2] at hsplit
        exact hsplit
      obtain ⟨hs, hd⟩ := append_inj' (show ["databases"] ++ ["(default)"] = _ from hparts) rfl
      exact ⟨hs.symm, (cons.inj hd).1.symm⟩
    · rintro ⟨rfl, rfl⟩
      decide
  · simp only [h, if_false, Option.some.injEq, ne_eq, not_false_eq_true, true_and, false_and,
      or_false]
    rw [beforeFirst_eq_self_iff (by decide), ← join_append_singleton hne]
    exact afterFirst_join_eq_none_iff (show '/' ∉ "documents".toList by decide) hseps hid.2

/-- What `parse_document_path` makes of the text it found. -/
theorem parseDocumentPath_eq_ok_iff {name text collectionPath : String}
    (hproject : extractProjectId name = .ok project)
    (htext : betweenFirstTwo "/documents/" name = some text) (hc : collectionPath ≠ "")
    (hid : '/' ∉ documentId.toList) :
    parseDocumentPath name = .ok ⟨project, collectionPath, documentId⟩ ↔
      text = collectionPath ++ "/" ++ documentId := by
  rw [← cutLast_eq_iff hc hid, parseDocumentPath, hproject, htext]
  simp [bind, Except.bind, pure, Except.pure]

/-- The text found in a document's name, and when it is the one that was written. -/
theorem documentName_text (hne : segments ≠ []) (hsegments : ∀ c ∈ segments, Segment c)
    (hid : Segment documentId) :
    ∃ text, betweenFirstTwo "/documents/"
        (documentName ⟨project, join '/' segments, documentId⟩) = some text ∧
      (text = join '/' segments ++ "/" ++ documentId ↔
        NameReads project segments documentId) := by
  obtain ⟨text, htext⟩ : ∃ text, betweenFirstTwo "/documents/"
      (documentName ⟨project, join '/' segments, documentId⟩) = some text := by
    rw [documentName_read]
    split <;> exact ⟨_, rfl⟩
  refine ⟨text, htext, ?_⟩
  rw [← documentName_read_eq_iff hne hsegments hid, htext, Option.some.injEq]

/-- Which document names come back. -/
theorem parseDocumentPath_documentName_iff (hne : segments ≠ [])
    (hsegments : ∀ c ∈ segments, Segment c) (hid : Segment documentId) :
    parseDocumentPath (documentName ⟨project, join '/' segments, documentId⟩) =
        .ok ⟨project, join '/' segments, documentId⟩ ↔
      NameReads project segments documentId := by
  obtain ⟨text, htext, hread⟩ := documentName_text hne hsegments hid
  rw [← hread]
  refine parseDocumentPath_eq_ok_iff ?_ htext (join_segments_ne_empty hne hsegments) hid.2
  rw [documentName_eq]
  exact extractProjectId_projects project _

/-- What `parse_agent_doc_name` makes of it. -/
theorem parseAgentDocName_eq_some_iff {name text collectionPath pid : String} {parts : List String}
    (hparts : splitn 5 '/' name = "projects" :: pid :: parts)
    (htext : betweenFirstTwo "/documents/" name = some text) (hc : collectionPath ≠ "")
    (hid : '/' ∉ documentId.toList) :
    parseAgentDocName name = some (pid, collectionPath, documentId) ↔
      text = collectionPath ++ "/" ++ documentId := by
  rw [← cutLast_eq_iff hc hid, parseAgentDocName, hparts, htext]
  simp

/-- A path of segments does not start with the separator. -/
theorem trimStart_join (hsegments : ∀ c ∈ segments, Segment c) :
    trimStart '/' (if (join '/' segments).isEmpty then ""
      else "/" ++ join '/' segments) = join '/' segments := by
  rcases segments with _ | ⟨c, cs⟩
  · decide
  · obtain ⟨hne, hsep⟩ := hsegments c mem_cons_self
    have hjoin : join '/' (c :: cs) ≠ "" := join_ne_empty hne
    obtain ⟨rest, hrest⟩ := toList_join_cons '/' c cs
    rcases hc : c.toList with _ | ⟨x, xs⟩
    · exact absurd (String.toList_eq_nil_iff.mp hc) hne
    · have hx : x ≠ '/' := fun h => hsep (by simp [hc, h])
      rw [if_neg (by simpa using hjoin), trimStart, ← String.toList_inj]
      simp [hrest, hc, hx]

/-- Trimming stops at a character that is not trimmed. -/
theorem length_lt_dropWhile {c x : Char} (hx : x ≠ c) (before rest : List Char) :
    rest.length < ((before ++ x :: rest).dropWhile (· == c)).length := by
  induction before with
  | nil => simp [hx]
  | cons y before ih =>
    rw [cons_append, dropWhile_cons]
    split
    · exact ih
    · simp only [length_cons, length_append]
      omega

/-- For a project whose identifier starts with `documents` more than the path is read. -/
theorem parseParentPrefix_long (segments : List String)
    (h : "documents".toList <+: project.value.toList) :
    ∃ pre, parseParentPrefix (parentName project (join '/' segments)) = .ok (project, pre) ∧
      (join '/' segments).toList.length < pre.toList.length := by
  rw [parseParentPrefix, extractProjectId_parentName]
  simp only [bind, Except.bind]
  rw [parentName_read, if_pos h]
  refine ⟨_, rfl, ?_⟩
  -- what is read holds the `d` of `databases`
  have hlt := length_lt_dropWhile (show 'd' ≠ '/' by decide)
    (project.value.toList.drop 9 ++ ['/'])
    ("atabases/(default)/documents".toList ++
      (if (join '/' segments).isEmpty then "" else "/" ++ join '/' segments).toList)
  have hpre : (join '/' segments).toList.length ≤
      (if (join '/' segments).isEmpty then "" else "/" ++ join '/' segments).toList.length := by
    split
    · rename_i hempty
      simp [String.isEmpty_iff.mp hempty]
    · simp
  have htext : "databases/(default)/documents".toList = 'd' :: "atabases/(default)/documents".toList := by
    decide
  simp only [trimStart, String.toList_ofList, String.toList_append, htext,
    show "/".toList = ['/'] from rfl, cons_append]
  rw [length_append] at hlt
  omega

/-- Reading a parent goes wrong for every project whose identifier starts with `documents`. -/
theorem parseParentPrefix_parentName_iff (hsegments : ∀ c ∈ segments, Segment c) :
    parseParentPrefix (parentName project (join '/' segments)) =
        .ok (project, join '/' segments) ↔
      ¬ "documents".toList <+: project.value.toList := by
  by_cases h : "documents".toList <+: project.value.toList
  · obtain ⟨pre, hread, hlong⟩ := parseParentPrefix_long segments h
    refine iff_of_false (fun heq => ?_) (not_not_intro h)
    obtain ⟨-, rfl⟩ := Prod.mk.inj (Except.ok.inj (hread.symm.trans heq))
    exact lt_irrefl _ hlong
  · rw [parseParentPrefix, extractProjectId_parentName]
    simp only [bind, Except.bind]
    rw [parentName_read, if_neg h]
    exact iff_of_true (congrArg (fun pre => Except.ok (project, pre)) (trimStart_join hsegments)) h

/-- A parent's name is read as the root of the database only if it is. -/
theorem parseParentPrefix_parentName (hsegments : ∀ c ∈ segments, Segment c) :
    ∃ pre, parseParentPrefix (parentName project (join '/' segments)) = .ok (project, pre) ∧
      (pre = "" ↔ segments = [] ∧ ¬ "documents".toList <+: project.value.toList) := by
  by_cases h : "documents".toList <+: project.value.toList
  · obtain ⟨pre, hread, hlong⟩ := parseParentPrefix_long segments h
    refine ⟨pre, hread, iff_of_false ?_ fun hroot => hroot.2 h⟩
    rintro rfl
    simp at hlong
  · refine ⟨_, (parseParentPrefix_parentName_iff hsegments).mpr h, ?_⟩
    simp only [h, not_false_eq_true, and_true]
    constructor
    · intro hjoin
      by_contra hne
      exact join_segments_ne_empty hne hsegments hjoin
    · rintro rfl
      rfl

end

/-- A document's name is read back, by the server and by the agent adapter, exactly for the
paths of `NameReads`; a parent's name exactly for the projects whose identifier does not
start with `documents`. -/
theorem names_round_trip_iff (project : ProjectId) :
    (∀ (segments : List String) (documentId : String), segments ≠ [] →
      (∀ c ∈ segments, Segment c) → Segment documentId →
      let path : DocumentPath := ⟨project, Text.join '/' segments, documentId⟩
      (parseDocumentPath (documentName path) = .ok path ↔ NameReads project segments documentId) ∧
      (parseAgentDocName (documentName path) =
          some (project.value, path.collectionPath, path.documentId) ↔
        NameReads project segments documentId)) ∧
    ∀ segments : List String, (∀ c ∈ segments, Segment c) →
      (parseParentPrefix (parentName project (Text.join '/' segments)) =
          .ok (project, Text.join '/' segments) ↔
        ¬ "documents".toList <+: project.value.toList) := by
  refine ⟨?_, fun segments hsegments => parseParentPrefix_parentName_iff hsegments⟩
  intro segments documentId hne hsegments hid path
  refine ⟨parseDocumentPath_documentName_iff hne hsegments hid, ?_⟩
  obtain ⟨text, htext, hread⟩ := documentName_text hne hsegments hid
  rw [← hread]
  obtain ⟨parts, hparts⟩ := splitn_five_eq (show '/' ∉ "projects".toList by decide)
    project.slash_not_mem ("databases" ++ "/" ++ ("(default)" ++ "/" ++ ("documents" ++ "/" ++
      (path.collectionPath ++ "/" ++ path.documentId))))
  rw [← documentName_eq path] at hparts
  exact parseAgentDocName_eq_some_iff hparts htext (join_segments_ne_empty hne hsegments) hid.2

/-- The file of a user, in a collection that is called `documents`. -/
def userFile : DocumentPath := ⟨demo, "users/u/documents", "cv"⟩

/-- A project whose identifier starts with `documents`. -/
def documentsApp : ProjectId := ⟨"documents-app", by decide⟩

/-- A collection called `documents` at the root is no trouble, in either project. -/
theorem names_round_trip_root_documents :
    let path : DocumentPath := ⟨documentsApp, join '/' ["documents"], "cv"⟩
    NameReads documentsApp ["documents"] "cv" ∧ parseDocumentPath (documentName path) = .ok path := by
  intro path
  have hreads : NameReads documentsApp ["documents"] "cv" := .inl ⟨by decide, by decide⟩
  refine ⟨hreads, ?_⟩
  refine ((names_round_trip_iff documentsApp).1 ["documents"] "cv" (by decide) ?_ ?_).1.mpr hreads
  · intro c hc
    obtain rfl := mem_singleton.mp hc
    exact ⟨by decide, by decide⟩
  · exact ⟨by decide, by decide⟩

/-- The file's name is read as the user's, and the root of the project as a document of it. -/
theorem documents_segment_misread :
    parseDocumentPath (documentName userFile) = .ok ⟨userFile.projectId, "users", "u"⟩ ∧
    parseAgentDocName (documentName userFile) = some ("demo", "users", "u") ∧
    parseParentPrefix (parentName documentsApp "") =
      .ok (documentsApp, "-app/databases/(default)/documents") := by
  refine ⟨?_, ?_, ?_⟩
  · decide
  · decide
  · decide

end Embyr
