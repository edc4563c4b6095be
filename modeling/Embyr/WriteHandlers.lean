import Embyr.RuleGate

/-!
# The writing handlers

`CreateDocument`, `UpdateDocument`, `DeleteDocument`, `BeginTransaction`, `Commit`,
`BatchWrite`, `Rollback` (`grpc/handler.rs`) and the `Write` stream
(`grpc/write_stream.rs`), with the admission every handler starts with.

A request holds what its protobuf message decodes to: a field map or a list of transforms
that does not decode is an error value in it. Metrics and rate-limit headers are left out.
-/

namespace Embyr

open Program ReadCommitted

/-! ## Admission -/

/-- The headers the handlers read; `some none` is a value that is not text. -/
structure Metadata where
  authorization : Option (Option String)
  clientIdentity : Option (Option String)

/-- `extract_api_key`. -/
def extractApiKey (metadata : Metadata) : Except Status String :=
  match metadata.authorization with
  | none => .error ⟨.unauthenticated, "missing authorization header"⟩
  | some none => .error ⟨.unauthenticated, "invalid authorization header encoding"⟩
  | some (some value) =>
    match (Text.stripPrefix "bearer " value).or (Text.stripPrefix "Bearer " value) with
    | some key => .ok key
    | none => .error ⟨.unauthenticated, "authorization must be bearer token"⟩

/-- `extract_client_identity_token`. -/
def extractClientIdentityToken (metadata : Metadata) : Option String := do
  let value ← metadata.clientIdentity.join
  (Text.stripPrefix "Bearer " value).or (Text.stripPrefix "bearer " value)

/-- Rate limit, credentials, suspension. -/
def admitKey (project : ProjectId) (apiKey : String) : Handler Unit := do
  let within ← Prog.ask (Call.checkRate project)
  if within then
    match ← Prog.ask (Call.authenticate project apiKey) with
    | .error status => .error status
    | .ok true => .error ⟨.permissionDenied, "project is suspended"⟩
    | .ok false => return ()
  else .error ⟨.resourceExhausted, "rate limit exceeded"⟩

/-- `attach_client_identity_if_present`. -/
def identify (project : ProjectId) (metadata : Metadata) : Handler (Option AuthContext) :=
  match extractClientIdentityToken metadata with
  | none => .ok none
  | some token => .ask (Call.clientIdentity project token)

/-- Admission of a request whose project is already known. -/
def admitProject (project : ProjectId) (metadata : Metadata) : Handler Unit := do
  let apiKey ← Prog.ofExcept (extractApiKey metadata)
  admitKey project apiKey

/-- Admission of a request to the project named in `name`. -/
def admitName (name : String) (metadata : Metadata) : Handler ProjectId := do
  let project ← Prog.ofExcept (extractProjectId name)
  admitProject project metadata
  return project

/-- What admission asks. -/
theorem admitKey_only {P : Call → Prop} {project : ProjectId} (apiKey : String)
    (hrate : P (.checkRate project)) (hauth : P (.authenticate project apiKey)) :
    (admitKey project apiKey).Only P := by
  refine ⟨hrate, fun within => ?_⟩
  rcases within with _ | _
  · trivial
  · refine ⟨hauth, fun answer => ?_⟩
    rcases answer with e | _ | _ <;> trivial

/-! ## Single documents -/

/-- A document as a client gets it. -/
structure DocumentResponse where
  name : String
  fields : Fields
  createTime : Timestamp
  updateTime : Timestamp

/-- The resource name of a document. -/
def documentName (path : DocumentPath) : String :=
  "projects/" ++ path.projectId.value ++ "/databases/(default)/documents/" ++
    path.collectionPath ++ "/" ++ path.documentId

/-- `build_document_response`. -/
def buildDocumentResponse (path : DocumentPath) (fields : Fields)
    (createTime updateTime : Timestamp) : DocumentResponse :=
  ⟨documentName path, fields, createTime, updateTime⟩

/-- The response to a write that has been stored. -/
def writeResponse (path : DocumentPath) (fields : Fields) (result : WriteResult) :
    DocumentResponse :=
  buildDocumentResponse path fields (result.createTime.getD result.updateTime) result.updateTime

/-- Two hexadecimal digits. -/
def hexByte (b : UInt8) : String :=
  let digit (n : ℕ) : Char := if n < 10 then Char.ofNat (48 + n) else Char.ofNat (87 + n)
  String.ofList [digit (b.toNat / 16), digit (b.toNat % 16)]

/-- `Uuid::to_string`. -/
def Uuid.text (uuid : Uuid) : String :=
  let hex (start stop : ℕ) : String :=
    ((uuid.bytes.drop start).take (stop - start)).foldl (fun s b => s ++ hexByte b) ""
  Text.join '-' [hex 0 4, hex 4 6, hex 6 8, hex 8 10, hex 10 16]

/-- Fields that a message holds, or the error of one that does not decode. -/
def decodedFields (message : String) : Option Fields → Except Status Fields
  | some fields => .ok fields
  | none => .error ⟨.invalidArgument, message⟩

structure CreateDocumentRequest where
  parent : String
  collectionId : String
  documentId : String
  /-- the document, whose fields may not decode -/
  document : Option (Option Fields)

/-- `handle_create_document`. -/
def handleCreateDocument (metadata : Metadata) (req : CreateDocumentRequest) :
    Handler DocumentResponse := do
  let project ← admitName req.parent metadata
  let documentId ←
    if req.documentId.isEmpty then do
      let uuid ← Prog.ask Call.newUuid
      pure (Uuid.text uuid)
    else pure req.documentId
  let path : DocumentPath := ⟨project, req.collectionId, documentId⟩
  let fields ← Prog.ofExcept
    ((req.document.map (decodedFields "invalid field value")).getD (.ok ∅))
  let identity ← identify project metadata
  createGate path identity fields
  let result ← storage (createDocument path fields)
  return writeResponse path fields result

structure UpdateDocumentRequest where
  /-- the document's name, and its fields if they decode -/
  document : Option (String × Option Fields)
  currentDocument : Option WritePrecondition

/-- `handle_update_document`. -/
def handleUpdateDocument (metadata : Metadata) (req : UpdateDocumentRequest) :
    Handler DocumentResponse :=
  match req.document with
  | none => .error ⟨.invalidArgument, "document is required"⟩
  | some (name, fields) => do
    let path ← Prog.ofExcept (parseDocumentPath name)
    admitProject path.projectId metadata
    let fields ← Prog.ofExcept (decodedFields "invalid field value" fields)
    let identity ← identify path.projectId metadata
    updateGate path identity fields
    let result ← storage (updateDocument path fields req.currentDocument)
    return writeResponse path fields result

structure DeleteDocumentRequest where
  name : String
  currentDocument : Option WritePrecondition

/-- `handle_delete_document`. -/
def handleDeleteDocument (metadata : Metadata) (req : DeleteDocumentRequest) : Handler Unit := do
  let path ← Prog.ofExcept (parseDocumentPath req.name)
  admitProject path.projectId metadata
  let identity ← identify path.projectId metadata
  deleteGate path identity
  storage (deleteDocument path req.currentDocument)

/-! ## Translating the writes of a batch -/

/-- The operation of a `Write` message. -/
inductive Operation where
  | update (name : String) (fields : Option Fields)
      (transforms : Except Status (List FieldTransform))
  | delete (name : String)
  | transform (document : String) (transforms : Except Status (List FieldTransform))

/-- A `Write` message. -/
structure ProtoWrite where
  operation : Option Operation
  currentDocument : Option WritePrecondition

/-- The document an operation names. -/
def Operation.name : Operation → String
  | update name _ _ | delete name | transform name _ => name

/-- The write of an operation, and the document it proposes to the rule. The map that a
transform would lead to is not computed: it proposes the stored one. -/
def Operation.decode (precondition : Option WritePrecondition) :
    Operation → Except Status (Write × Option Fields)
  | update name fields transforms => do
    let path ← parseDocumentPath name
    let fields ← decodedFields "invalid field value in write" fields
    let transforms ← transforms
    return (.update path fields none precondition transforms, some fields)
  | delete name => do
    let path ← parseDocumentPath name
    return (.delete path none precondition, some ∅)
  | transform document transforms => do
    let path ← parseDocumentPath document
    let transforms ← transforms
    return (.transform path transforms, none)

/-- What an operation decodes to. -/
theorem Operation.decode_eq_ok {operation : Operation} {precondition : Option WritePrecondition}
    {decoded : Write × Option Fields} (h : operation.decode precondition = .ok decoded) :
    ∃ path, parseDocumentPath operation.name = .ok path ∧
      ((∃ fields transforms,
          decoded = (.update path fields none precondition transforms, some fields)) ∨
        decoded = (.delete path none precondition, some ∅) ∨
        ∃ transforms, decoded = (.transform path transforms, none)) := by
  cases operation with
  | update name fields transforms =>
    obtain ⟨path, hpath, h⟩ := bind_eq_ok h
    obtain ⟨fields, -, h⟩ := bind_eq_ok h
    obtain ⟨transforms, -, h⟩ := bind_eq_ok h
    exact ⟨path, hpath, .inl ⟨fields, transforms, (Except.ok.inj h).symm⟩⟩
  | delete name =>
    obtain ⟨path, hpath, h⟩ := bind_eq_ok h
    exact ⟨path, hpath, .inr (.inl (Except.ok.inj h).symm)⟩
  | transform document transforms =>
    obtain ⟨path, hpath, h⟩ := bind_eq_ok h
    obtain ⟨transforms, -, h⟩ := bind_eq_ok h
    exact ⟨path, hpath, .inr (.inr ⟨transforms, (Except.ok.inj h).symm⟩)⟩

/-- `translate_one_write_for_commit`. -/
def translateOneWriteForCommit (project : ProjectId) (identity : Option AuthContext)
    (message : ProtoWrite) : Handler (Option Write) :=
  match message.operation with
  | none => .ok none
  | some operation => do
    let (write, proposed) ← Prog.ofExcept (operation.decode message.currentDocument)
    evaluateWriteRuleForCommit project write.path identity proposed
    return some write

/-- `translate_writes_for_commit`: the first failure ends it, messages without operation
are skipped. -/
def translateWritesForCommit (project : ProjectId) (identity : Option AuthContext)
    (messages : List ProtoWrite) : Handler (List Write) := do
  let writes ← Prog.mapEach (translateOneWriteForCommit project identity) messages
  return writes.filterMap id

/-- One turn of `translate_writes_catching`. -/
def translateCatching (project : ProjectId) (identity : Option AuthContext)
    (message : ProtoWrite) : Handler (Except Status Write) := do
  match ← (translateOneWriteForCommit project identity message).attempt with
  | .ok (some write) => return .ok write
  | .ok none => return .error ⟨.invalidArgument, "write has no operation set"⟩
  | .error status => return .error status

/-- `translate_writes_catching`. -/
def translateWritesCatching (project : ProjectId) (identity : Option AuthContext) :
    List ProtoWrite → Handler (List (Except Status Write)) :=
  Prog.mapEach (translateCatching project identity)

/-! ## Transactions -/

structure BeginTransactionRequest where
  database : String

/-- `handle_begin_transaction`; the adapter does not use the options. -/
def handleBeginTransaction (metadata : Metadata) (req : BeginTransactionRequest) :
    Handler TransactionId := do
  let project ← admitName req.database metadata
  storage (beginTransaction project)

structure CommitRequest where
  database : String
  transaction : TransactionId
  writes : List ProtoWrite

structure CommitResponse where
  writeResults : List WriteResult
  commitTime : Timestamp

/-- `handle_commit`. -/
def handleCommit (metadata : Metadata) (req : CommitRequest) : Handler CommitResponse := do
  let project ← admitName req.database metadata
  let identity ← identify project metadata
  let writes ← translateWritesForCommit project identity req.writes
  let results ← storage (commitTransaction project req.transaction writes)
  let now ← utcNow
  return ⟨results, now⟩

structure RollbackRequest where
  database : String
  transaction : TransactionId

/-- `handle_rollback`. -/
def handleRollback (metadata : Metadata) (req : RollbackRequest) : Handler Unit := do
  let project ← admitName req.database metadata
  storage (rollbackTransaction project req.transaction)

/-! ## BatchWrite -/

structure BatchWriteRequest where
  database : String
  writes : List ProtoWrite

/-- The result of the one write of a commit. -/
def lastResult (results : List WriteResult) : WriteResult := results.getLastD ⟨⟨0, 0⟩, none, []⟩

/-- One write of `BatchWrite` in a transaction of its own. -/
def applyAlone (project : ProjectId) (write : Write) : Handler (Except Status WriteResult) := do
  match ← (beginTransaction project).attempt with
  | .error e => return .error (coreErrorToStatus e)
  | .ok transactionId =>
    match ← (commitTransaction project transactionId [write]).attempt with
    | .error e => return .error (coreErrorToStatus e)
    | .ok results => return .ok (lastResult results)

/-- The part of a write that is left once it is translated. -/
def applyTranslated (project : ProjectId) :
    Except Status Write → Handler (Except Status WriteResult)
  | .ok write => applyAlone project write
  | .error status => .ok (.error status)

/-- `handle_batch_write`; the answer has one entry per write. -/
def handleBatchWrite (metadata : Metadata) (req : BatchWriteRequest) :
    Handler (List (Except Status WriteResult)) := do
  let project ← admitName req.database metadata
  if req.writes.isEmpty then return []
  else if 500 < req.writes.length then
    .error ⟨.invalidArgument, "writes must not exceed 500 per call"⟩
  else do
    let identity ← identify project metadata
    let translated ← translateWritesCatching project identity req.writes
    Prog.mapEach (applyTranslated project) translated

/-! ## The Write stream -/

structure WriteRequest where
  database : String
  streamId : String
  streamToken : String
  writes : List ProtoWrite

/-- The documents the writes of a message name. -/
def writeNames (writes : List ProtoWrite) : List String :=
  writes.filterMap fun message => message.operation.map Operation.name

/-- One turn of the loop of `run_write_session`: the new token and the results. -/
def writeMessage (project : ProjectId) (identity : Option AuthContext) (token : String)
    (message : WriteRequest) : Handler (String × List WriteResult) :=
  .call (.received (writeNames message.writes)) fun _ =>
    if message.streamToken ≠ token then
      .error ⟨.aborted, "stream_token mismatch: a WriteRequest must present the most recently " ++
        "issued stream_token"⟩
    else do
      let writes ← translateWritesForCommit project identity message.writes
      let transactionId ← storage (beginTransaction project)
      let results ← storage (commitTransaction project transactionId writes)
      let token ← Prog.ask Call.newStreamToken
      return (token, results)

/-- `run_write_session` on the messages the client sends before it closes the stream. -/
def runWriteSession (project : ProjectId) (identity : Option AuthContext) :
    String → List WriteRequest → Handler (List (List WriteResult))
  | _, [] => .ok []
  | token, message :: messages => do
    let (token, results) ← writeMessage project identity token message
    let rest ← runWriteSession project identity token messages
    return results :: rest

/-- `handle_write`; the first message is the handshake. -/
def handleWrite (metadata : Metadata) (messages : List WriteRequest) :
    Handler (List (List WriteResult)) := do
  let apiKey ← Prog.ofExcept (extractApiKey metadata)
  match messages with
  | [] => .error ⟨.invalidArgument, "empty write stream"⟩
  | handshake :: messages =>
    if !handshake.writes.isEmpty || !handshake.streamId.isEmpty then
      .error ⟨.invalidArgument,
        "handshake WriteRequest must have empty writes and empty stream_id"⟩
    else do
      let project ← Prog.ofExcept (extractProjectId handshake.database)
      admitKey project apiKey
      let identity ← identify project metadata
      let token ← Prog.ask Call.newStreamToken
      runWriteSession project identity token messages

end Embyr
