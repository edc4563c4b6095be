import Embyr.Document
import Embyr.Lib.Text

/-!
# Resource names and statuses

The parts of a request that name documents (`extract_project_id`,
`parse_document_path`, `parse_parent_prefix` of `grpc/handler.rs`) and the statuses a
request is answered with.

A status keeps the fixed text of its message. The debug dump of an inner error, which
two internal messages append, is left out.
-/

namespace Embyr

/-! ## Statuses -/

/-- The status codes the handlers use. -/
inductive Code where
  | invalidArgument
  | notFound
  | alreadyExists
  | permissionDenied
  | unauthenticated
  | resourceExhausted
  | failedPrecondition
  | aborted
  | internal
  | unimplemented
  deriving DecidableEq

/-- `tonic::Status`. -/
structure Status where
  code : Code
  message : String
  deriving DecidableEq

/-- `sanitize_backend_error`: the client learns nothing of the cause. -/
def Status.backend : Status := ⟨.internal, "internal server error"⟩

/-- `core_error_to_status`. -/
def coreErrorToStatus (e : CoreError) : Status :=
  match e with
  | .documentNotFound _ => ⟨.notFound, e.message⟩
  | .alreadyExists _ => ⟨.alreadyExists, e.message⟩
  | .unauthenticated => ⟨.unauthenticated, e.message⟩
  | .permissionDenied _ => ⟨.permissionDenied, e.message⟩
  | .invalidArgument _ => ⟨.invalidArgument, e.message⟩
  | .occConflict => ⟨.aborted, e.message⟩
  | .transactionAborted => ⟨.aborted, e.message⟩
  | .transactionNotFound => ⟨.notFound, e.message⟩
  | .resourceExhausted _ => ⟨.resourceExhausted, e.message⟩
  | .failedPrecondition _ => ⟨.failedPrecondition, e.message⟩
  | .projectNotFound _ | .backendUnavailable _ => Status.backend

/-! ## Resource names -/

/-- `ProjectId::new`. -/
def ProjectId.new (s : String) : Except CoreError ProjectId :=
  if h : isValidProjectId s = true then .ok ⟨s, h⟩
  else
    .error (.invalidArgument
      ("project id must match ^[a-z][a-z0-9-]\x7b0,62\x7d$, got: " ++ s))

/-- `extract_project_id`. -/
def extractProjectId (name : String) : Except Status ProjectId :=
  match Text.splitn 5 '/' name with
  | "projects" :: pid :: _ =>
    if pid.isEmpty then .error ⟨.invalidArgument, "invalid resource name: " ++ name⟩
    else
      match ProjectId.new pid with
      | .ok p => .ok p
      | .error e => .error ⟨.invalidArgument, e.message⟩
  | _ => .error ⟨.invalidArgument, "invalid resource name: " ++ name⟩

/-- `parse_document_path`. -/
def parseDocumentPath (name : String) : Except Status DocumentPath := do
  let projectId ← extractProjectId name
  match Text.betweenFirstTwo "/documents/" name with
  | none => .error ⟨.invalidArgument, "resource name missing /documents/"⟩
  | some afterDocs =>
    let segments := Text.split '/' afterDocs
    return ⟨projectId, Text.join '/' segments.dropLast, segments.getLastD ""⟩

/-- `parse_parent_prefix`. -/
def parseParentPrefix (parent : String) : Except Status (ProjectId × String) := do
  let projectId ← extractProjectId parent
  match Text.afterFirst "/documents" parent with
  | none => .error ⟨.invalidArgument, "parent missing /documents"⟩
  | some rest => return (projectId, Text.trimStart '/' rest)

/-- A document path has the project of its name. -/
theorem parseDocumentPath_projectId {name : String} {path : DocumentPath}
    (h : parseDocumentPath name = .ok path) : extractProjectId name = .ok path.projectId := by
  unfold parseDocumentPath at h
  rcases hproject : extractProjectId name with e | p
  · rw [hproject] at h
    cases h
  · rw [hproject] at h
    simp only [bind, Except.bind] at h
    split at h
    · cases h
    · cases h
      rfl

/-- A parent has the project of its name. -/
theorem parseParentPrefix_projectId {parent rest : String} {project : ProjectId}
    (h : parseParentPrefix parent = .ok (project, rest)) : extractProjectId parent = .ok project := by
  obtain ⟨p, hproject, h⟩ := bind_eq_ok h
  rcases hafter : Text.afterFirst "/documents" parent with _ | after
  · rw [hafter] at h
    cases h
  · rw [hafter] at h
    cases h
    exact hproject

end Embyr
