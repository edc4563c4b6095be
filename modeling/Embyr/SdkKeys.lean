import Embyr.CredentialGates

/-!
# SDK keys

The requests that issue and revoke SDK keys (`admin/handlers/sdk_keys.rs`), and what such a key is
worth to `authenticate`. Keys go to the table `sdk_api_keys`; `authenticate` reads the two hashes
in the row of the project, and nothing writes these.

* `createSdkKey`, `revokeSdkKey` — the requests, and `runKeys` a sequence of them.
* `KeyRequests` — what they ask; none of it touches `projects`.
* `sdk_keys_work_iff` — keys work as issued just when the hashes of the project say so.
-/

namespace Embyr

open Program Prog

/-! ## Requests -/

/-- A status without a body. -/
def HttpError.bare (status : ℕ) : HttpError := ⟨status, none⟩

/-- `verify_project_ownership`. -/
def verifyProjectOwnership (projectId : String) (accountId : Uuid) : ControlProg HttpError Unit := do
  let found ← systemSql (fun _ => .bare 500) (.projectAccount projectId)
  let account ← require (.bare 404) found
  let owner ← require (.bare 500) account
  if owner ≠ accountId then .error (.bare 403) else .ok ()

/-- `CreateSdkKeyResponse`, without its time. -/
structure CreatedSdkKey where
  id : Uuid
  name : String
  key : String
  /-- the first characters of the random part -/
  keyPrefix : String
  deriving DecidableEq

/-- `create_sdk_key` up to the row. -/
def insertKey (services : Services) (session : SessionContext) (projectId name : String) :
    ControlProg HttpError CreatedSdkKey :=
  if session.role < .admin then .error (.bare 403)
  else if name.isEmpty ∨ 64 < name.utf8ByteSize then .error (.bare 422)
  else do
    verifyProjectOwnership projectId session.accountId
    let suffix ← Prog.ask ControlCall.freshSuffix
    let key := "embyr_sdk_" ++ suffix
    awaitOr .blocking (fun _ => .bare 500) id
    let _ ← Prog.ofExcept ((services.hashApiKey key).mapError fun _ => .bare 500)
    let id ← Prog.ask ControlCall.freshUuid
    systemSql (fun _ => .bare 500) (.insertSdkKey id projectId (services.deriveCacheKey key))
    return ⟨id, name, key, String.ofList (suffix.toList.take 8)⟩

/-- `create_sdk_key`. -/
def createSdkKey (services : Services) (session : SessionContext) (projectId name : String) :
    ControlProg HttpError CreatedSdkKey := do
  let created ← insertKey services session projectId name
  Prog.ask (ControlCall.evictProject projectId)
  return created

/-- `revoke_sdk_key`; `keyId` is what `Uuid::parse_str` makes of the path. -/
def revokeSdkKey (session : SessionContext) (projectId : String) (keyId : Option Uuid) :
    ControlProg HttpError Uuid :=
  if session.role < .admin then .error (.bare 403)
  else do
    verifyProjectOwnership projectId session.accountId
    let id ← require (.bare 404) keyId
    let rows ← systemSql (fun _ => .bare 500) (.revokeSdkKey id projectId)
    if rows = 0 then .error (.bare 404)
    else do
      Prog.ask (ControlCall.evictProject projectId)
      return id

/-- The requests on the keys of a project. -/
inductive KeyRequest where
  | create (session : SessionContext) (name : String)
  | revoke (session : SessionContext) (keyId : Option Uuid)

inductive KeyResult where
  | created (key : CreatedSdkKey)
  | revoked (id : Uuid)
  | refused (e : HttpError)
  deriving DecidableEq

/-- One request, when nothing fails. -/
def KeyRequest.run (services : Services) (env : Outside) (projectId : String) (w : Control) :
    KeyRequest → KeyResult × Control
  | create session name =>
    match (createSdkKey services session projectId name).run (Control.answer env) w with
    | (.ok key, w') => (.created key, w')
    | (.error e, w') => (.refused e, w')
  | revoke session keyId =>
    match (revokeSdkKey session projectId keyId).run (Control.answer env) w with
    | (.ok id, w') => (.revoked id, w')
    | (.error e, w') => (.refused e, w')

/-- A sequence of requests. -/
def runKeys (services : Services) (env : Outside) (projectId : String) :
    List KeyRequest → Control → List KeyResult × Control
  | [], w => ([], w)
  | request :: requests, w =>
    let (result, w') := request.run services env projectId w
    let (results, w'') := runKeys services env projectId requests w'
    (result :: results, w'')

/-! ## What the requests ask -/

/-- Statements on keys, and what comes with them. -/
def KeyCall (projectId : String) : ControlCall → Prop
  | .sql (.projectAccount _) | .sql (.insertSdkKey _ _ _) | .sql (.revokeSdkKey _ _) => True
  | .freshSuffix | .freshUuid | .blocking => True
  | .evictProject id => id = projectId
  | _ => False

theorem systemSql_only {P : ControlCall → Prop} {ε : Type} {failure : String → ε} {s : SystemStmt}
    (h : P (.sql s)) : (systemSql failure s).Only P := by
  refine ⟨h, fun a => ?_⟩
  rcases a with e | r <;> trivial

theorem require_only {P : ControlCall → Prop} {ε α : Type} (failure : ε) (x : Option α) :
    (require failure x : ControlProg ε α).Only P := by
  cases x <;> trivial

theorem verifyProjectOwnership_only (projectId id : String) (accountId : Uuid) :
    (verifyProjectOwnership id accountId).Only (KeyCall projectId) := by
  refine (systemSql_only trivial).bind fun found => ?_
  refine (require_only _ _).bind fun account => ?_
  refine (require_only _ _).bind fun owner => ?_
  split_ifs <;> trivial

theorem insertKey_only (services : Services) (session : SessionContext) (projectId name : String) :
    (insertKey services session projectId name).Only (KeyCall projectId) := by
  rw [insertKey]
  split_ifs
  · trivial
  · trivial
  · refine (verifyProjectOwnership_only projectId ..).bind fun _ => ?_
    refine .ask trivial fun suffix => ?_
    have hblocking : (awaitOr .blocking (fun _ => HttpError.bare 500) id).Only
        (KeyCall projectId) := ⟨trivial, fun a => Only.ofExcept _⟩
    refine hblocking.bind fun _ => ?_
    refine (Only.ofExcept _).bind fun _ => ?_
    refine .ask trivial fun id => ?_
    exact (systemSql_only trivial).bind fun _ => trivial

theorem createSdkKey_only (services : Services) (session : SessionContext)
    (projectId name : String) :
    (createSdkKey services session projectId name).Only (KeyCall projectId) :=
  (insertKey_only services session projectId name).bind fun _ => .ask rfl fun _ => trivial

theorem revokeSdkKey_only (session : SessionContext) (projectId : String) (keyId : Option Uuid) :
    (revokeSdkKey session projectId keyId).Only (KeyCall projectId) := by
  rw [revokeSdkKey]
  split_ifs
  · trivial
  · refine (verifyProjectOwnership_only projectId ..).bind fun _ => ?_
    refine (require_only _ _).bind fun id => ?_
    refine (systemSql_only trivial).bind fun rows => ?_
    split_ifs
    · trivial
    · exact .ask rfl fun _ => trivial

/-! ## What they change -/

/-- The cache holds nothing of the project. -/
def Evicted (cache : CredentialCache) (projectId : String) : Prop :=
  ∀ key, key.projectId.value = projectId → cache key = none

theorem evicted_evictProject (cache : CredentialCache) (projectId : String) :
    Evicted (cache.evictProject projectId) projectId :=
  fun _ hkey => if_pos hkey

theorem KeyCall.projects {projectId : String} {q : ControlCall} (h : KeyCall projectId q)
    (env : Outside) (w : Control) : (Control.answer env q w).2.db.projects = w.db.projects := by
  cases q with
  | sql s =>
    cases s with
    | insertSdkKey id project keyHash =>
      rw [Control.answer, SystemDb.exec]
      split_ifs <;> rfl
    | revokeSdkKey id project => rfl
    | projectAccount id => rfl
    | _ => exact h.elim
  | _ => rfl

theorem KeyCall.evicted {projectId : String} {q : ControlCall} (h : KeyCall projectId q)
    (env : Outside) {w : Control} (hw : Evicted w.cache projectId) :
    Evicted (Control.answer env q w).2.cache projectId := by
  cases q with
  | evictProject id =>
    obtain rfl : id = projectId := h
    exact evicted_evictProject w.cache id
  | cacheInsert key entry => exact h.elim
  | _ => exact hw

section Requests

variable {services : Services} {env : Outside} {projectId : String}

theorem KeyRequest.run_snd (request : KeyRequest) (w : Control) :
    ∃ (R : Type) (p : ControlProg HttpError R), p.Only (KeyCall projectId) ∧
      (request.run services env projectId w).2 = (p.run (Control.answer env) w).2 := by
  cases request with
  | create session name =>
    refine ⟨_, _, createSdkKey_only services session projectId name, ?_⟩
    rw [KeyRequest.run]
    split
    · rename_i h
      rw [h]
    · rename_i h
      rw [h]
  | revoke session keyId =>
    refine ⟨_, _, revokeSdkKey_only session projectId keyId, ?_⟩
    rw [KeyRequest.run]
    split
    · rename_i h
      rw [h]
    · rename_i h
      rw [h]

theorem KeyRequest.projects (request : KeyRequest) (w : Control) :
    (request.run services env projectId w).2.db.projects = w.db.projects := by
  obtain ⟨R, p, honly, hrun⟩ := request.run_snd w
  rw [hrun]
  exact honly.run (I := fun w' : Control => w'.db.projects = w.db.projects)
    (fun w' q hw' hq => (hq.projects env w').trans hw') rfl

theorem KeyRequest.evicted (request : KeyRequest) {w : Control} (hw : Evicted w.cache projectId) :
    Evicted (request.run services env projectId w).2.cache projectId := by
  obtain ⟨R, p, honly, hrun⟩ := request.run_snd w
  rw [hrun]
  exact honly.run (I := fun w' : Control => Evicted w'.cache projectId)
    (fun w' q hw' hq => hq.evicted env hw') hw

/-- A key is issued with an eviction. -/
theorem KeyRequest.evicted_of_created {request : KeyRequest} {w : Control} {key : CreatedSdkKey}
    (h : (request.run services env projectId w).1 = .created key) :
    Evicted (request.run services env projectId w).2.cache projectId := by
  cases request with
  | create session name =>
    rw [KeyRequest.run] at h ⊢
    split at h
    · rename_i key' w' hrun
      obtain ⟨created, w₁, -, hevict⟩ := run_bind_eq_ok _ hrun
      cases hevict
      exact evicted_evictProject _ _
    · cases h
  | revoke session keyId =>
    rw [KeyRequest.run] at h
    split at h <;> cases h

theorem runKeys_projects (requests : List KeyRequest) (w : Control) :
    (runKeys services env projectId requests w).2.db.projects = w.db.projects := by
  induction requests generalizing w with
  | nil => rfl
  | cons request requests ih => exact (ih _).trans (request.projects w)

theorem runKeys_evicted {requests : List KeyRequest} {w : Control}
    (h : Evicted w.cache projectId ∨
      ∃ key, .created key ∈ (runKeys services env projectId requests w).1) :
    Evicted (runKeys services env projectId requests w).2.cache projectId := by
  induction requests generalizing w with
  | nil =>
    rcases h with hw | ⟨key, hkey⟩
    · exact hw
    · cases hkey
  | cons request requests ih =>
    rcases h with hw | ⟨key, hkey⟩
    · exact ih (.inl (request.evicted hw))
    · rcases List.mem_cons.mp hkey with hcreated | hlater
      · exact ih (.inl (KeyRequest.evicted_of_created hcreated.symm))
      · exact ih (.inr ⟨key, hlater⟩)

/-- After a sequence of requests, every key that was issued is accepted just as long as it has not
been revoked, exactly when this is what the hashes in the row of the project say. -/
theorem sdk_keys_work_iff {w : Control} {row : ProjectRow} (requests : List KeyRequest)
    (hrow : w.db.projects.lookup projectId = some row) (hvalid : isValidProjectId projectId = true)
    (hactive : row.status = .active) (hjoins : env.blocking = .ok ()) :
    (∀ key, .created key ∈ (runKeys services env projectId requests w).1 →
      (GrpcAccepts ((authenticate services projectId key.key).run (Control.answer env)
          (runKeys services env projectId requests w).2).1 ↔
        .revoked key.id ∉ (runKeys services env projectId requests w).1)) ↔
    ∀ key, .created key ∈ (runKeys services env projectId requests w).1 →
      (services.verified key.key row.toProjectAuthRow = true ↔
        .revoked key.id ∉ (runKeys services env projectId requests w).1) := by
  refine forall_congr' fun key => imp_congr_right fun hkey => ?_
  have hfresh : Fresh env (runKeys services env projectId requests w).2 projectId row :=
    ⟨(congrArg (AList.lookup projectId) (runKeys_projects requests w)).trans hrow,
      runKeys_evicted (.inr ⟨key, hkey⟩), hjoins⟩
  rw [grpc_accepts_iff hfresh]
  have hstatus : ¬row.status.Revoked := by
    rw [hactive]
    decide
  simp only [hvalid, hstatus, not_false_eq_true, true_and]

end Requests

/-! ## One key -/

/-- The owner of the account that the project belongs to. -/
def shopOwner : SessionContext := ⟨uuidOf 7, uuidOf 2, .owner⟩

/-- The first key that is issued. -/
def firstKey : CreatedSdkKey := ⟨uuidOf 1, "ci", "embyr_sdk_0", "0"⟩

/-- A key that has been revoked is refused. -/
theorem sdk_keys_work_shop :
    (runKeys plainServices plainOutside "shop"
        [.create shopOwner "ci", .revoke shopOwner (some (uuidOf 1))] shopServer).1 =
      [.created firstKey, .revoked (uuidOf 1)] ∧
    ∀ key, .created key ∈ (runKeys plainServices plainOutside "shop"
        [.create shopOwner "ci", .revoke shopOwner (some (uuidOf 1))] shopServer).1 →
      (GrpcAccepts ((authenticate plainServices "shop" key.key).run (Control.answer plainOutside)
          (runKeys plainServices plainOutside "shop"
            [.create shopOwner "ci", .revoke shopOwner (some (uuidOf 1))] shopServer).2).1 ↔
        .revoked key.id ∉ (runKeys plainServices plainOutside "shop"
          [.create shopOwner "ci", .revoke shopOwner (some (uuidOf 1))] shopServer).1) := by
  have hresults : (runKeys plainServices plainOutside "shop"
      [.create shopOwner "ci", .revoke shopOwner (some (uuidOf 1))] shopServer).1 =
        [.created firstKey, .revoked (uuidOf 1)] := by
    decide
  refine ⟨hresults, (sdk_keys_work_iff _ (AList.lookup_insert ∅) (by decide) rfl rfl).mpr
    fun key hkey => ?_⟩
  rw [hresults] at hkey ⊢
  obtain rfl : key = firstKey := by simpa using hkey
  decide

/-- A key that has just been issued is refused as well. -/
theorem issued_key_refused :
    (runKeys plainServices plainOutside "shop" [.create shopOwner "ci"] shopServer).1 =
      [.created firstKey] ∧
    ¬GrpcAccepts ((authenticate plainServices "shop" firstKey.key).run
      (Control.answer plainOutside)
      (runKeys plainServices plainOutside "shop" [.create shopOwner "ci"] shopServer).2).1 := by
  have hfresh : Fresh plainOutside (runKeys plainServices plainOutside "shop"
      [.create shopOwner "ci"] shopServer).2 "shop" shopRow :=
    ⟨(congrArg (AList.lookup "shop") (runKeys_projects _ _)).trans (AList.lookup_insert ∅),
      runKeys_evicted (.inl fun _ _ => rfl), rfl⟩
  rw [grpc_accepts_iff hfresh]
  decide

end Embyr
