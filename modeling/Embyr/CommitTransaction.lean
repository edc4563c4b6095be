import Embyr.Storage

/-!
# Transactions

`begin_transaction`, `commit_transaction` and `rollback_transaction`
(`embyr-pg-storage/src/backend_adapter.rs`) with `verify_versions` and `verify_reads`
(`transactions/occ.rs`).

A commit looks its transaction up, then opens a database transaction in which it checks
the preconditions, the expected versions and the recorded reads, snapshots the fields of
every document that is transformed, applies the writes in order, and marks the transaction
committed.
-/

namespace Embyr

open Program ReadCommitted

/-! ## Begin and rollback -/

/-- `begin_transaction`. -/
def beginTransaction (project : ProjectId) : Adapter TransactionId := do
  let uuid ← Prog.ask Call.newUuid
  let now ← databaseNow
  let _ ← sql (.insert (.transaction uuid) (⟨project, .active, now.stored, ∅⟩ : TransactionRow))
  return Uuid.bytes uuid

/-- `rollback_transaction`. -/
def rollbackTransaction (project : ProjectId) (transactionId : TransactionId) : Adapter Unit := do
  let uuid ← Prog.ofExcept (uuidFromBytes transactionId)
  let updated ← sql (.update (.transaction uuid)
    (fun row => TransactionRow.projectId row = project && TransactionRow.status row = .active)
    (fun row => { row with status := .rolledBack }))
  match updated with
  | some _ => return ()
  | none => .error .transactionNotFound

/-! ## The checks of a commit -/

/-- `SELECT … AND NOT deleted FOR UPDATE`. -/
def lockDocument (path : DocumentPath) : Adapter (Option DocumentRow) :=
  sql (.selectForUpdate (.document path) DocumentRow.visible)

/-- `TransactionAborted` unless the check succeeds. -/
def abortUnless (check : Bool) : Adapter Unit :=
  if check then .ok () else .error .transactionAborted

/-- An update-time precondition. -/
def verifyUpdateTime (write : Write) : Adapter Unit :=
  match write.precondition with
  | some (.updateTime t) => do
    let expected ← Prog.ofExcept (toDatetime t)
    let row ← lockDocument write.path
    abortUnless (row.any fun row => decide (row.updateTime = expected))
  | _ => .ok ()

/-- An existence precondition. -/
def verifyExistence (write : Write) : Adapter Unit :=
  match write.precondition with
  | some .mustExist => do
    let row ← lockDocument write.path
    abortUnless row.isSome
  | some .mustNotExist => do
    let row ← lockDocument write.path
    abortUnless row.isNone
  | _ => .ok ()

/-- One turn of `verify_versions`; the project is the commit's, not the path's. -/
def verifyVersion (project : ProjectId) (write : Write) : Adapter Unit :=
  match write.version with
  | some expected => do
    let row ← lockDocument { write.path with projectId := project }
    abortUnless (row.any fun row => decide (row.version = expected))
  | none => .ok ()

/-- `verify_versions`. -/
def verifyVersions (project : ProjectId) : List Write → Adapter Unit :=
  Prog.forEach (verifyVersion project)

/-- One turn of `verify_reads`; an entry without a `/` is skipped. -/
def verifyRead (project : ProjectId) (entry : String × Option Version) : Adapter Unit :=
  match Text.rsplitOnce '/' entry.1 with
  | some (collectionPath, documentId) => do
    let row ← lockDocument ⟨project, collectionPath, documentId⟩
    abortUnless (decide (row.map DocumentRow.version = entry.2))
  | none => .ok ()

/-- `verify_reads`. -/
def verifyReads (project : ProjectId) (reads : StrMap (Option Version)) : Adapter Unit :=
  Prog.forEach (verifyRead project) reads.toList

/-! ## The writes of a commit -/

/-- The writes whose document is snapshotted first. -/
def Write.readsFields : Write → Bool
  | .update _ _ _ _ transforms => !transforms.isEmpty
  | .transform _ _ => true
  | .delete _ _ _ => false

/-- The entry of `locked_fields` for a write. -/
def lockField (write : Write) : Adapter (Option Fields) :=
  if write.readsFields then do
    let row ← lockDocument write.path
    return some (row.elim ∅ DocumentRow.fields)
  else .ok none

/-- Before a transform: a field the update does not set is taken from the stored
document. -/
def seedField (stored fields : Fields) (fieldPath : String) : Fields :=
  if fields.contains fieldPath then fields
  else
    match stored[fieldPath]? with
    | some value => fields.insert fieldPath value
    | none => fields

/-- The transforms of an update, over its own fields and the stored ones. -/
def applySeededTransforms (now : Timestamp) (stored : Fields) :
    Fields → List FieldTransform → Except CoreError (Fields × List FieldValue)
  | fields, [] => .ok (fields, [])
  | fields, t :: ts => do
    let (fields, value) ← applyFieldTransform (seedField stored fields t.fieldPath) t now
    let (fields, values) ← applySeededTransforms now stored fields ts
    return (fields, value.toList ++ values)

/-- What a write leaves behind, `none` for a delete, and the values it reports, given the
stored fields. -/
def Write.effect (now : Timestamp) (stored : Fields) :
    Write → Except CoreError (Option Fields × List FieldValue)
  | .update _ fields _ _ transforms =>
    (applySeededTransforms now stored fields transforms).map fun r => (some r.1, r.2)
  | .delete _ _ _ => .ok (none, [])
  | .transform _ transforms =>
    (applyFieldTransforms now stored transforms).map fun r => (some r.1, r.2)

/-- The statement that stores what a write leaves behind. A delete also touches a row
that is deleted already. -/
def storeStatement (path : DocumentPath) (now : Timestamp) : Option Fields → Stmt Key.Row
  | some fields =>
    .upsert (.document path) (DocumentRow.fresh fields now.stored)
      (DocumentRow.overwrite fields now.stored)
  | none => .update (.document path) (fun _ => true) (DocumentRow.remove now.stored)

/-- One turn of the apply loop. -/
def applyWrite (now : Timestamp) (write : Write) (locked : Option Fields) :
    Adapter WriteResult := do
  let (final, values) ← Prog.ofExcept (write.effect now (locked.getD ∅))
  let _ ← sql (storeStatement write.path now final)
  return ⟨now, none, values⟩

/-! ## Commit -/

/-- `UPDATE transactions SET status = 'committed' WHERE transaction_id = …`, whatever the
status is by then. -/
def markCommitted (uuid : Uuid) : Stmt Key.Row :=
  .update (.transaction uuid) (fun _ => true)
    (fun row => { row with status := TransactionStatus.committed })

/-- `UPDATE transactions SET status = 'expired' WHERE transaction_id = …`. -/
def markExpired (uuid : Uuid) : Stmt Key.Row :=
  .update (.transaction uuid) (fun _ => true)
    (fun row => { row with status := TransactionStatus.expired })

/-- The checks, in the source's order. -/
def verifyCommit (project : ProjectId) (reads : StrMap (Option Version)) (writes : List Write) :
    Adapter Unit := do
  Prog.forEach verifyUpdateTime writes
  Prog.forEach verifyExistence writes
  verifyVersions project writes
  verifyReads project reads

section Checks

variable {P : Call → Prop}

theorem lockDocument_only {path : DocumentPath}
    (h : P (.sql (.selectForUpdate (.document path) DocumentRow.visible))) :
    (lockDocument path).Only P :=
  sql_only h

theorem abortUnless_only (b : Bool) : (abortUnless b).Only P := by
  cases b <;> trivial

/-- The checks only lock documents: those of the writes, and others of the project. -/
theorem verifyCommit_only {project : ProjectId} {reads : StrMap (Option Version)}
    {writes : List Write}
    (hwrites : ∀ write ∈ writes,
      P (.sql (.selectForUpdate (.document write.path) DocumentRow.visible)))
    (hproject : ∀ path : DocumentPath, path.projectId = project →
      P (.sql (.selectForUpdate (.document path) DocumentRow.visible))) :
    (verifyCommit project reads writes).Only P := by
  have hcheck : ∀ path (check : Option DocumentRow → Bool),
      P (.sql (.selectForUpdate (.document path) DocumentRow.visible)) →
      (lockDocument path >>= fun row => abortUnless (check row)).Only P :=
    fun path check h => (lockDocument_only h).bind fun row => abortUnless_only (check row)
  refine .bind (.forEach fun write hmem => ?_) fun _ =>
    .bind (.forEach fun write hmem => ?_) fun _ =>
    .bind (.forEach fun write _ => ?_) fun _ => .forEach fun entry _ => ?_
  · rcases h : write.precondition with _ | _ | _ | t <;> simp only [verifyUpdateTime, h]
    · trivial
    · trivial
    · trivial
    · exact (Prog.Only.ofExcept _).bind fun expected => hcheck _ _ (hwrites write hmem)
  · rcases h : write.precondition with _ | _ | _ | t <;> simp only [verifyExistence, h]
    · trivial
    · exact hcheck _ _ (hwrites write hmem)
    · exact hcheck _ _ (hwrites write hmem)
    · trivial
  · rcases h : write.version with _ | expected <;> simp only [verifyVersion, h]
    · trivial
    · exact hcheck _ _ (hproject _ rfl)
  · rcases h : Text.rsplitOnce '/' entry.1 with _ | ⟨collectionPath, documentId⟩ <;>
      simp only [verifyRead, h]
    · trivial
    · exact hcheck _ _ (hproject _ rfl)

end Checks

/-- The writes, from the snapshot to the mark. -/
def performWrites (uuid : Uuid) (writes : List Write) : Adapter (List WriteResult) := do
  let locked ← Prog.mapEach lockField writes
  let now ← utcNow
  let results ← Prog.mapEach (fun w => applyWrite now w.1 w.2) (writes.zip locked)
  let _ ← sql (markCommitted uuid)
  return results

/-- `commit_transaction`. -/
def commitTransaction (project : ProjectId) (transactionId : TransactionId)
    (writes : List Write) : Adapter (List WriteResult) := do
  let uuid ← Prog.ofExcept (uuidFromBytes transactionId)
  let row ← sql (.select (.transaction uuid))
  match Option.filter (fun row => decide (TransactionRow.projectId row = project)) row with
  | none => .error .transactionNotFound
  | some row =>
    if row.status ≠ .active then .error .transactionNotFound
    else do
      let now ← utcNow
      if transactionLifetime < now.toNanos - row.startedAt.toNanos then
        -- the outcome of this statement is ignored
        .call (.sql (markExpired uuid)) fun _ => .error .transactionNotFound
      else
        inTransaction do
          verifyCommit project row.reads writes
          performWrites uuid writes

end Embyr
