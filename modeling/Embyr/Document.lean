import Embyr.FieldValue

/-!
# Documents, writes and errors

The domain records of `domain/document.rs`, `domain/project.rs`, `error.rs` and
the write types of the storage port (`storage/backend_adapter.rs`).
-/

namespace Embyr

/-! ## Project ids and paths -/

/-- `is_valid_project_id`: `^[a-z][a-z0-9-]{0,62}$`. -/
def isValidProjectId (s : String) : Bool :=
  !(s.isEmpty || 63 < s.utf8ByteSize) &&
    match s.toList with
    | [] => false
    | c :: cs => c.isLower && cs.all fun c => c.isLower || c.isDigit || c == '-'

/-- A validated project identifier (`ProjectId`). -/
structure ProjectId where
  /-- the identifier -/
  value : String
  /-- `ProjectId::new` accepted it -/
  valid : isValidProjectId value = true
  deriving DecidableEq

/-- The path of a document: project, collection path, document id. -/
structure DocumentPath where
  projectId : ProjectId
  collectionPath : String
  documentId : String
  deriving DecidableEq

/-- Seconds and nanoseconds since the epoch. -/
structure Timestamp where
  secs : Int64
  nanos : Int32
  deriving DecidableEq

/-- `FieldValue::Timestamp(t.0, t.1)`. -/
def Timestamp.toValue (t : Timestamp) : FieldValue := .timestamp t.secs t.nanos

/-- A value of the `version` column. The database refuses to count past the end of
`bigint`, so a version never wraps around, and is an integer here. -/
abbrev Version : Type := ℤ

/-- A visible document as the storage port returns it (`FirestoreDocument`). -/
structure FirestoreDocument where
  path : DocumentPath
  fields : Fields
  createTime : Timestamp
  updateTime : Timestamp
  version : Version

/-- What one applied write reports (`WriteResult`). -/
structure WriteResult where
  updateTime : Timestamp
  createTime : Option Timestamp
  transformResults : List FieldValue
  deriving DecidableEq

/-! ## Errors -/

/-- `CoreError`. -/
inductive CoreError where
  | projectNotFound (project : String)
  | documentNotFound (name : String)
  | alreadyExists (name : String)
  | occConflict
  | transactionNotFound
  | transactionAborted
  | invalidArgument (detail : String)
  | backendUnavailable (detail : String)
  | failedPrecondition (detail : String)
  | permissionDenied (detail : String)
  | unauthenticated
  | resourceExhausted (detail : String)
  deriving DecidableEq

/-- `CoreError`'s `Display`. -/
def CoreError.message : CoreError → String
  | .projectNotFound p => "project not found: " ++ p
  | .documentNotFound n => "document not found: " ++ n
  | .alreadyExists n => "already exists: " ++ n
  | .occConflict => "optimistic concurrency conflict"
  | .transactionNotFound => "transaction not found or expired"
  | .transactionAborted => "transaction aborted"
  | .invalidArgument d => "invalid argument: " ++ d
  | .backendUnavailable d => "backend unavailable: " ++ d
  | .failedPrecondition d => "failed precondition: " ++ d
  | .permissionDenied d => "permission denied: " ++ d
  | .unauthenticated => "unauthenticated"
  | .resourceExhausted d => "resource exhausted: " ++ d

theorem bind_eq_ok {ε α β : Type} {x : Except ε α} {f : α → Except ε β} {b : β}
    (h : x >>= f = .ok b) : ∃ a, x = .ok a ∧ f a = .ok b := by
  cases x with
  | error e => cases h
  | ok a => exact ⟨a, rfl, h⟩

theorem exists_of_mem_forall₂ {α β : Type} {R : α → β → Prop} {l : List α} {l' : List β}
    (h : List.Forall₂ R l l') {b : β} (hb : b ∈ l') : ∃ a ∈ l, R a b := by
  induction h with
  | nil => cases hb
  | cons hab _ ih =>
    rcases List.mem_cons.mp hb with rfl | hb
    · exact ⟨_, List.mem_cons_self .., hab⟩
    · obtain ⟨a, ha, hR⟩ := ih hb
      exact ⟨a, List.mem_cons_of_mem _ ha, hR⟩

theorem map_eq_ok {ε α β : Type} {x : Except ε α} {f : α → β} {b : β}
    (h : x.map f = .ok b) : ∃ a, x = .ok a ∧ f a = b := by
  cases x with
  | error e => cases h
  | ok a => exact ⟨a, rfl, Except.ok.inj h⟩

theorem mapError_eq_ok {ε ε' α : Type} {x : Except ε α} {f : ε → ε'} {a : α}
    (h : x.mapError f = .ok a) : x = .ok a := by
  cases x with
  | error e => cases h
  | ok a' =>
    cases h
    rfl

/-! ## Writes -/

/-- `WritePrecondition`. -/
inductive WritePrecondition where
  | mustExist
  | mustNotExist
  | updateTime (t : Timestamp)
  deriving DecidableEq

/-- A server-side transform of one field (`FieldTransform`). -/
inductive FieldTransform where
  | serverTimestamp (fieldPath : String)
  | increment (fieldPath : String) (delta : FieldValue)
  | maximum (fieldPath : String) (given : FieldValue)
  | minimum (fieldPath : String) (given : FieldValue)
  | appendMissingElements (fieldPath : String) (values : List FieldValue)
  | removeAllFromArray (fieldPath : String) (values : List FieldValue)
  deriving DecidableEq

/-- `FieldTransform::field_path`. -/
def FieldTransform.fieldPath : FieldTransform → String
  | .serverTimestamp p | .increment p _ | .maximum p _ | .minimum p _
  | .appendMissingElements p _ | .removeAllFromArray p _ => p

/-- One mutation of a commit batch (`Write`). -/
inductive Write where
  | update (path : DocumentPath) (fields : Fields) (version : Option Version)
      (precondition : Option WritePrecondition) (transforms : List FieldTransform)
  | delete (path : DocumentPath) (version : Option Version)
      (precondition : Option WritePrecondition)
  | transform (path : DocumentPath) (transforms : List FieldTransform)

namespace Write

/-- The document a write names. -/
def path : Write → DocumentPath
  | .update p _ _ _ _ | .delete p _ _ | .transform p _ => p

/-- The transforms a write carries. -/
def transforms : Write → List FieldTransform
  | .update _ _ _ _ ts | .transform _ ts => ts
  | .delete _ _ _ => []

/-- The precondition a write carries. A transform write has none. -/
def precondition : Write → Option WritePrecondition
  | .update _ _ _ pre _ | .delete _ _ pre => pre
  | .transform _ _ => none

/-- The expected version a write carries. -/
def version : Write → Option Version
  | .update _ _ v _ _ | .delete _ v _ => v
  | .transform _ _ => none

end Write

end Embyr
