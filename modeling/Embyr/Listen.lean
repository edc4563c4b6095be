import Embyr.ReadHandlers

/-!
# The Listen stream

A target of a `Listen` stream from its first snapshot to its last message
(`realtime/listen_handler.rs`), the tokens it resumes from (`realtime/resume_token.rs`) and the
events it is fed (`fetch_event` of `adapters/postgres_notify_listener.rs`).

* `encodeResumeToken`, `decodeTs` — a time of whole seconds in eight bytes.
* `fetchEvent` — a notification read back from the database.
* `resolveListenRule`, `liveMessage` — the rule of a target, and what becomes of an event.
* `openTarget`, `listenLoop` — the snapshot and the loop.

Slow consumers are cut off with a `RESET`; the queue between listener and stream, which decides
who is slow, is not part of this model.
-/

namespace Embyr

open Program ReadCommitted

/-! ## Resume tokens -/

/-- `i64::to_be_bytes`. -/
def toBeBytes (n : Int64) : List UInt8 :=
  [7, 6, 5, 4, 3, 2, 1, 0].map fun i => UInt8.ofNat (n.toUInt64.toNat / 256 ^ i)

/-- `i64::from_be_bytes`. -/
def fromBeBytes (bytes : List UInt8) : Int64 :=
  (UInt64.ofNat (bytes.foldl (fun n b => 256 * n + b.toNat) 0)).toInt64

/-- `encode`: the nanoseconds are dropped. -/
def encodeResumeToken (t : Timestamp) : List UInt8 := toBeBytes t.secs

/-- `decode_ts`; bytes after the first eight are ignored. -/
def decodeTs (token : List UInt8) : Option Timestamp :=
  if token.length < 8 then none
  else (toDatetime ⟨fromBeBytes (token.take 8), 0⟩).toOption

theorem fromBeBytes_toBeBytes (n : Int64) : fromBeBytes (toBeBytes n) = n := by
  have hlt := n.toUInt64.toNat_lt
  have hvalue : (toBeBytes n).foldl (fun n b => 256 * n + b.toNat) 0 = n.toUInt64.toNat := by
    simp only [toBeBytes, List.map_cons, List.map_nil, List.foldl_cons, List.foldl_nil,
      UInt8.toNat_ofNat']
    omega
  rw [fromBeBytes, hvalue, UInt64.ofNat_toNat]
  exact Int64.toInt64_toUInt64 n

/-- A token is read as the second it was made in. -/
theorem decodeTs_encodeResumeToken {t : Timestamp} (h : toDatetime ⟨t.secs, 0⟩ = .ok ⟨t.secs, 0⟩) :
    decodeTs (encodeResumeToken t) = some ⟨t.secs, 0⟩ := by
  have hlength : (toBeBytes t.secs).length = 8 := rfl
  rw [encodeResumeToken, decodeTs, if_neg (by omega), List.take_of_length_le (by omega),
    fromBeBytes_toBeBytes, h]
  rfl

/-! ## Events -/

inductive ListenEvent where
  | changed (doc : FirestoreDocument)
  | removed (path : DocumentPath) (fields : Fields)

/-- The event of a row; a deleted row still has its last fields. -/
def rowEvent (path : DocumentPath) : Option DocumentRow → ListenEvent
  | some row => if row.deleted then .removed path row.fields else .changed (row.toDocument path)
  | none => .removed path ∅

/-- `fetch_event`. A payload without `/` and a database that fails look like a document that has
gone. -/
def fetchEvent {ε : Type} (project : ProjectId) (payload : String) :
    Prog Call.Answer ε ListenEvent :=
  match Text.rsplitOnce '/' payload with
  | none => .ok (.removed ⟨project, "", payload⟩ ∅)
  | some (collectionPath, documentId) =>
    .call (.sql (.select (.document ⟨project, collectionPath, documentId⟩))) fun
      | .ok row => .ok (rowEvent ⟨project, collectionPath, documentId⟩ row)
      | .error _ => .ok (.removed ⟨project, collectionPath, documentId⟩ ∅)

/-! ## The rule of a target -/

/-- What a subscription keeps of its rule. -/
structure ListenRule where
  condition : Option Condition
  ancestorBindings : StrMap String
  /-- neither an exact rule nor a fixed-depth pattern: look again with a document in hand -/
  needsRecursiveRecheck : Bool

/-- The read condition behind a route. -/
def patternCondition : Option Route → Except Status (Option Condition × StrMap String)
  | none => .ok (none, ∅)
  | some (row, bindings) =>
    match row.readCondition with
    | none => .ok (none, ∅)
    | some source => do
      let condition ← parseStored readPatternReparse source
      return (some condition, bindings)

/-- The rule of a target, resolved once when it is added. -/
def resolveListenRule (identity : Option AuthContext) (collection : CollectionPath)
    (filter : Option QueryFilter) : Handler ListenRule := do
  match ← getAccessRule collection.projectId collection.collectionPath with
  | some source => do
    let condition ← Prog.ofExcept (parseStored readRuleReparse source)
    match checkQueryCompliance condition filter (withoutClaims identity) with
    | .admitted => return ⟨some condition, ∅, false⟩
    | outcome => .error (queryComplianceRejection outcome)
  | none => do
    let route ← routePattern collection.projectId collection.collectionPath none
    let (condition, bindings) ← Prog.ofExcept (patternCondition route)
    return ⟨condition, bindings, route.isNone⟩

/-- `resolve_recursive_wildcard_condition`. -/
def resolveRecursiveWildcardCondition (project : ProjectId) (collectionPath documentId : String) :
    Handler (Option Condition × StrMap String) := do
  let route ← routePattern project collectionPath (some documentId)
  Prog.ofExcept (patternCondition route)

/-- A target that has been added. -/
structure Subscription where
  targetId : Int32
  collection : CollectionPath
  identity : Option AuthContext
  rule : ListenRule

/-- The condition an event is checked against. -/
def Subscription.eventCondition (sub : Subscription) (documentId : String) :
    Handler (Option Condition × StrMap String) :=
  if sub.rule.needsRecursiveRecheck then
    resolveRecursiveWildcardCondition sub.collection.projectId sub.collection.collectionPath
      documentId
  else .ok (sub.rule.condition, sub.rule.ancestorBindings)

/-- The context of that check: no claims, no clock, no other documents. -/
def listenContext (identity : Option AuthContext) (documentId : String) (resource : Fields)
    (ancestors : StrMap String) : EvalContext where
  auth := withoutClaims identity
  resourceFields := resource
  requestResourceFields := ∅
  pathVariableValue := some documentId
  ancestorPathVariableValues := ancestors
  requestTime := none
  crossDocumentReads := ∅

/-- An event of the target's collection passes its rule. The project of the event is not
compared. -/
def Subscription.passes (sub : Subscription) (path : DocumentPath) (fields : Fields) :
    Handler Bool :=
  if path.collectionPath = sub.collection.collectionPath then do
    let (condition, bindings) ← sub.eventCondition path.documentId
    return condition.all fun condition =>
      evaluate condition (listenContext sub.identity path.documentId fields bindings) = .allow
  else .ok false

/-! ## Messages -/

/-- What the server sends; the `CURRENT` and `RESET` changes name the target. -/
inductive ListenMessage where
  | documentChange (document : DocumentResponse) (targetIds : List Int32)
  | documentDelete (document : String) (removedTargetIds : List Int32)
  | current (targetIds : List Int32)
  | noChange (resumeToken : List UInt8)
  | reset (targetIds : List Int32)

/-- The time of the next token: a second ahead of the clock. -/
def Timestamp.nextSecond (t : Timestamp) : Timestamp := ⟨t.secs + 1, t.nanos⟩

/-- An event that has passed, as a message. -/
def Subscription.message (sub : Subscription) : ListenEvent → ListenMessage
  | .changed doc => .documentChange (documentToProto doc) [sub.targetId]
  | .removed path _ => .documentDelete (documentName path) [sub.targetId]

/-- The document of an event and the fields it is judged by. -/
def ListenEvent.subject : ListenEvent → DocumentPath × Fields
  | .changed doc => (doc.path, doc.fields)
  | .removed path fields => (path, fields)

/-- What becomes of an event. -/
def Subscription.liveMessage (sub : Subscription) (event : ListenEvent) :
    Handler (Option ListenMessage) := do
  let passes ← sub.passes event.subject.1 event.subject.2
  return if passes then some (sub.message event) else none

/-- What the loop waits for. -/
inductive ListenInput where
  | keepalive
  | event (event : ListenEvent)
  | reset

/-- The loop of `handle_add_target`, for as long as the client stays. -/
def Subscription.listenLoop (sub : Subscription) : List ListenInput → Handler (List ListenMessage)
  | [] => .ok []
  | .keepalive :: inputs => do
    let now ← utcNow
    let messages ← sub.listenLoop inputs
    return .noChange (encodeResumeToken now.nextSecond) :: messages
  | .event event :: inputs => do
    let message ← sub.liveMessage event
    let messages ← sub.listenLoop inputs
    return message.toList ++ messages
  | .reset :: _ => .ok [.reset [sub.targetId]]

/-- `handle_add_target` up to its loop. -/
def openTarget (engine : QueryEngine) (project : ProjectId) (identity : Option AuthContext)
    (targetId : Int32) (req : ListenRequest) : Handler (Subscription × List ListenMessage) :=
  match req.addTarget with
  | none => .error ⟨.invalidArgument, "first message must be AddTarget"⟩
  | some target => do
    let (collection, filter) ← Prog.ofExcept target.resolve
    let rule ← resolveListenRule identity collection filter
    let now ← utcNow
    let query : StructuredQuery :=
      ⟨false, filter, [], none, none, none, none, freshResumeTime now req.resumeTime⟩
    let snapshotTs ← utcNow
    Prog.ask (Call.register project)
    let docs ← (runQuery engine collection query none).mapError fun _ => Status.backend
    return (⟨targetId, collection, identity, rule⟩,
      (docs.map fun doc => .documentChange (documentToProto doc) [targetId]) ++
        [.current [targetId], .noChange (encodeResumeToken snapshotTs.nextSecond)])

end Embyr
