import Embyr.CommitTransaction
import Embyr.PatternRouting

/-!
# The write-rule gates

Before a write reaches the storage adapter its handler looks up the rule of the
collection, collects what the rule may look at, and evaluates it (`grpc/handler.rs`).

* `createGate`, `updateGate`, `deleteGate` — the gates inside `handle_create_document`,
  `handle_update_document` and `handle_delete_document`. They differ in what counts as the
  stored and the proposed document, in whether the clock is supplied, and in whether the
  documents that the rule names are fetched.
* `evaluateWriteRuleForCommit` — the one gate of `Commit`, `BatchWrite` and `Write`. It
  knows exact rules only.

The message of an internal error ends where the source appends a debug dump.
-/

namespace Embyr

open Program ReadCommitted

/-- A handler, or a part of one. -/
abbrev Handler (R : Type) : Type := Prog Call.Answer Status R

/-! ## What a handler asks -/

/-- A call of the storage adapter. -/
def storage {R : Type} (p : Adapter R) : Handler R := p.mapError coreErrorToStatus

/-- The answer of the system database, whose errors the client does not see. -/
def orBackend {R : Type} : Except Failure R → Handler R
  | .ok r => .ok r
  | .error _ => .error Status.backend

theorem orBackend_only {P : Call → Prop} {R : Type} (x : Except Failure R) :
    (orBackend x).Only P := by
  cases x <;> trivial

/-- `get_access_rule`. -/
def getAccessRule (project : ProjectId) (collectionPath : String) : Handler (Option String) :=
  .call (.getAccessRule project collectionPath) orBackend

/-- `get_write_access_rule`. -/
def getWriteAccessRule (project : ProjectId) (collectionPath : String) :
    Handler (Option String) :=
  .call (.getWriteAccessRule project collectionPath) orBackend

/-- `resolve_access_rule_pattern`. The source asks for the candidates of the fixed-depth
and of the recursive search one after the other. -/
def routePattern (project : ProjectId) (collectionPath : String) (documentId : Option String) :
    Handler (Option Route) := do
  let patterns ← .call (.accessRulePatterns project) orBackend
  Prog.ofExcept (resolveAccessRulePattern patterns collectionPath documentId)

/-- The fields of a document, none where it is absent. -/
def currentFields (path : DocumentPath) : Handler Fields := do
  let doc ← storage (getDocument path none)
  return (doc.map FirestoreDocument.fields).getD ∅

/-- One turn of `fetch_cross_document_reads`; a path without `/` names no document. -/
def fetchCrossDocument (project : ProjectId) (path : String) :
    Handler (String × Option FirestoreDocument) :=
  match Text.rsplitOnce '/' path with
  | some (collectionPath, documentId) => do
    let doc ← storage (getDocument ⟨project, collectionPath, documentId⟩ none)
    return (path, doc)
  | none => .ok (path, none)

/-- `fetch_cross_document_reads`. -/
def fetchCrossDocumentReads (project : ProjectId) (paths : List String) :
    Handler (StrMap (Option FirestoreDocument)) := do
  let reads ← Prog.mapEach (fetchCrossDocument project) (sortedDistinct paths)
  return reads.foldl (fun map read => map.insert read.1 read.2) ∅

/-! ## Evaluating a stored rule -/

/-- `parse_condition` on a stored rule. -/
def parseStored (reparse source : String) : Except Status Condition :=
  match parseCondition source with
  | .ok condition => .ok condition
  | .error _ => .error ⟨.internal, reparse⟩

/-- `evaluate`, where a denial ends the request. -/
def enforce (denied : String) (condition : Condition) (ctx : EvalContext) : Except Status Unit :=
  match evaluate condition ctx with
  | .allow => .ok ()
  | .deny => .error ⟨.permissionDenied, denied⟩

/-- Where a gate takes the parts of its context from. -/
structure WriteContext where
  identity : Option AuthContext
  path : DocumentPath
  /-- the stored document is fetched, not taken to be absent -/
  reads : Bool
  /-- the proposed document; `none` mirrors the stored one -/
  proposed : Option Fields
  /-- `request.time` is supplied -/
  timed : Bool
  /-- the documents the rule names are fetched -/
  crosses : Bool
  ancestors : StrMap String

/-- The stored document of a gate. -/
def WriteContext.resource (c : WriteContext) : Handler Fields :=
  if c.reads then currentFields c.path else .ok ∅

/-- The clock of a gate. -/
def WriteContext.time (c : WriteContext) : Handler (Option FieldValue) :=
  if c.timed then do
    let now ← utcNow
    return some now.toValue
  else .ok none

/-- The other documents of a gate. -/
def WriteContext.cross (c : WriteContext) (condition : Condition) :
    Handler (StrMap (Option FirestoreDocument)) :=
  if c.crosses then
    fetchCrossDocumentReads c.path.projectId
      (discoverCrossDocumentPaths condition c.identity (some c.path.documentId) c.ancestors)
  else .ok ∅

/-- The context a gate evaluates in. -/
def WriteContext.evalContext (c : WriteContext) (resource : Fields) (time : Option FieldValue)
    (cross : StrMap (Option FirestoreDocument)) : EvalContext where
  auth := c.identity
  resourceFields := resource
  requestResourceFields := c.proposed.getD resource
  pathVariableValue := some c.path.documentId
  ancestorPathVariableValues := c.ancestors
  requestTime := time
  crossDocumentReads := cross

/-- Parse, collect, evaluate. -/
def judgeWrite (reparse : String) (c : WriteContext) (source : String) : Handler Unit := do
  let condition ← Prog.ofExcept (parseStored reparse source)
  let resource ← c.resource
  let time ← c.time
  let cross ← c.cross condition
  Prog.ofExcept (enforce "access denied by write rule" condition
    (c.evalContext resource time cross))

def writeRuleReparse : String := "stored write rule failed to re-parse: "

def writePatternReparse : String :=
  "stored access rule pattern's write condition failed to re-parse: "

/-! ## The gates of the single-document handlers -/

/-- The gate behind a route; a pattern's rule does not get to see other documents. -/
def patternGate (c : WriteContext) : Option Route → Handler Unit
  | none => .ok ()
  | some (row, bindings) =>
    match row.writeCondition with
    | none => .ok ()
    | some source =>
      judgeWrite writePatternReparse { c with crosses := false, ancestors := bindings } source

/-- The steps the three gates share: the exact rule of the collection, or else the
pattern that routes to the document. -/
def singleGate (c : WriteContext) : Handler Unit := do
  match ← getWriteAccessRule c.path.projectId c.path.collectionPath with
  | some source => judgeWrite writeRuleReparse c source
  | none =>
    let route ← routePattern c.path.projectId c.path.collectionPath (some c.path.documentId)
    patternGate c route

/-- The gate of `handle_create_document`. -/
def createGate (path : DocumentPath) (identity : Option AuthContext) (fields : Fields) :
    Handler Unit :=
  singleGate ⟨identity, path, false, some fields, true, true, ∅⟩

/-- The gate of `handle_update_document`. -/
def updateGate (path : DocumentPath) (identity : Option AuthContext) (fields : Fields) :
    Handler Unit :=
  singleGate ⟨identity, path, true, some fields, true, true, ∅⟩

/-- The gate of `handle_delete_document`. -/
def deleteGate (path : DocumentPath) (identity : Option AuthContext) : Handler Unit :=
  singleGate ⟨identity, path, true, some ∅, false, false, ∅⟩

/-! ## The gate of the batches -/

/-- The context of the batch gate. -/
def commitContext (path : DocumentPath) (identity : Option AuthContext)
    (proposed : Option Fields) : WriteContext :=
  ⟨identity, path, true, proposed, true, false, ∅⟩

/-- `evaluate_write_rule_for_commit`; without an exact rule the write passes. -/
def evaluateWriteRuleForCommit (project : ProjectId) (path : DocumentPath)
    (identity : Option AuthContext) (proposed : Option Fields) : Handler Unit := do
  match ← getWriteAccessRule project path.collectionPath with
  | none => return ()
  | some source => judgeWrite writeRuleReparse (commitContext path identity proposed) source

end Embyr
