import Embyr.Revocation

/-!
# Three gates for one key

What `authenticate`, `resolveCustomerDbAdapter` and `signInAnonymously` say to a key, for one row
of `projects` and an empty cache.

A gate accepts a key if it does not refuse it: what fails after the key has been verified (a DSN
that cannot be decrypted, a database that cannot be reached) is not a refusal.

* `grpc_accepts_iff`, `hosted_accepts_iff` — the first two check the id, the status, and both
  hashes.
* `anonymous_accepts_iff` — the third checks the current hash only.
* `gates_agree_iff` — when all three agree.
-/

namespace Embyr

open Program Prog Control ProjectId

/-! ## Acceptance -/

/-- `authenticate` has not refused the key. -/
def GrpcAccepts {R : Type} (x : Except Status R) : Prop := ∀ e, x = .error e → e.code = .internal

/-- A failure that is not about the key. -/
def ProjectAuthError.IsInternal (e : ProjectAuthError) : Prop := ∃ detail, e = .internal detail

/-- `resolve_customer_db_adapter` has not refused the key. -/
def HostedAccepts {R : Type} (x : Except ProjectAuthError R) : Prop :=
  ∀ e, x = .error e → e.IsInternal

/-- Anonymous sign-in has minted a token. -/
def AnonymousAccepts (x : Except HttpError AnonymousSignIn) : Prop := ∃ r, x = .ok r

/-- A project that is stored, on a server that has cached nothing of it. -/
structure Fresh (env : Outside) (w : Control) (projectId : String) (row : ProjectRow) : Prop where
  row : w.db.projects.lookup projectId = some row
  uncached : ∀ key, key.projectId.value = projectId → w.cache key = none
  joins : env.blocking = .ok ()

/-- … and whose signing key for anonymous sign-in is provisioned. -/
structure Stored (services : Services) (env : Outside) (w : Control) (projectId : String)
    (row : ProjectRow) : Prop extends Fresh env w projectId row where
  signing : ∃ encrypted seed, w.db.anonymousSigningKeys projectId = some encrypted ∧
    services.decryptSigningKey encrypted = .ok seed ∧ seed.length = 32

/-! ## What comes after the key -/

/-- The errors of a program that is past the check of the key. -/
def Internal (e : Status) : Prop := e.code = .internal

theorem require_fails {ε α : Type} {P : ε → Prop} {failure : ε} (h : P failure) (x : Option α) :
    (require failure x : ControlProg ε α).Fails P := by
  cases x with
  | none => exact h
  | some a => trivial

theorem awaitOr_fails {ε α : Type} {P : ε → Prop} {failure : String → ε}
    (h : ∀ detail, P (failure detail)) (q : ControlCall) (answer : q.Answer → Except String α) :
    (awaitOr q failure answer).Fails P := by
  intro a
  refine Fails.ofExcept fun e he => ?_
  cases hanswer : answer a with
  | ok r =>
    rw [hanswer] at he
    cases he
  | error detail =>
    rw [hanswer] at he
    exact Except.error.inj he ▸ h detail

section Dsn

variable {ε : Type} {P : ε → Prop} {internal : String → ε} (h : ∀ detail, P (internal detail))
  (services : Services) (apiKey : String) (row : ProjectAuthRow)

include h

theorem awsDsn_fails : (awsDsn services internal row).Fails P := by
  refine (require_fails (h _) _).bind fun arn => ?_
  split_ifs
  · exact awaitOr_fails (fun _ => h _) _ _
  · exact h _

theorem gcpDsn_fails : (gcpDsn services internal row).Fails P := by
  refine (require_fails (h _) _).bind fun name => ?_
  split_ifs
  · exact awaitOr_fails (fun _ => h _) _ _
  · exact h _

/-- Decryption and the like. -/
theorem ofExcept_fails {α : Type} (x : Except String α) (f : String → String) :
    (Prog.ofExcept (x.mapError fun e => internal (f e)) : ControlProg ε α).Fails P := by
  cases x with
  | ok a => trivial
  | error e => exact h _

theorem storedDsn_fails : (storedDsn services internal apiKey row).Fails P := by
  refine (require_fails (h _) _).bind fun encrypted => ?_
  refine (ofExcept_fails h _ id).bind fun bytes => ?_
  exact require_fails (h _) _

end Dsn

theorem connectTo_fails (backend : Backend) :
    (connectTo (fun _ => Status.backend) backend).Fails Internal := by
  have h : ∀ detail : String, Internal ((fun _ => Status.backend) detail) := fun _ => rfl
  exact awaitOr_fails h _ _

theorem postgresAdapter_fails (dsn : String) : (postgresAdapter dsn).Fails Internal :=
  (connectTo_fails _).bind fun _ => trivial

theorem agentBackend_fails (services : Services) (apiKey : String) (row : ProjectAuthRow) :
    (agentBackend services apiKey row).Fails Internal := by
  have h : ∀ detail, Internal (Status.internal detail) := fun _ => rfl
  refine (require_fails (h _) _).bind fun endpoint => ?_
  refine (require_fails (h _) _).bind fun encrypted => ?_
  refine (ofExcept_fails h _ id).bind fun bytes => ?_
  refine (require_fails (h _) _).bind fun text => ?_
  refine (ofExcept_fails h _ _).bind fun bundle => ?_
  refine (require_fails (h _) _).bind fun caPem => ?_
  refine (require_fails (h _) _).bind fun clientCertPem => ?_
  exact (require_fails (h _) _).bind fun clientKeyPem => trivial

/-- A key that has been verified is not refused any more. -/
theorem buildAdapter_fails (services : Services) (apiKey : String) (row : ProjectAuthRow) :
    (buildAdapter services apiKey row).Fails Internal := by
  have h : ∀ detail, Internal (Status.internal detail) := fun _ => rfl
  rw [buildAdapter]
  split
  · exact (awsDsn_fails h services row).bind postgresAdapter_fails
  · exact (gcpDsn_fails h services row).bind postgresAdapter_fails
  · refine (agentBackend_fails services apiKey row).bind fun backend => ?_
    exact (connectTo_fails backend).bind fun _ => trivial
  · exact (storedDsn_fails h services apiKey row).bind postgresAdapter_fails
  · exact (storedDsn_fails h services apiKey row).bind postgresAdapter_fails

/-- The modes that hosted identity serves. -/
def BackendMode.Direct (mode : BackendMode) : Prop :=
  mode = .directPg ∨ mode = .awsSecret ∨ mode = .gcpSecret

theorem isInternal_internal (detail : String) : (ProjectAuthError.internal detail).IsInternal :=
  ⟨detail, rfl⟩

theorem hostedDsn_fails (services : Services) (apiKey : String) {row : ProjectAuthRow}
    (hmode : row.backendMode.Direct) :
    (hostedDsn services apiKey row).Fails ProjectAuthError.IsInternal := by
  rw [hostedDsn]
  rcases hmode with hmode | hmode | hmode
  · rw [hmode]
    exact storedDsn_fails isInternal_internal services apiKey row
  · rw [hmode]
    exact awsDsn_fails isInternal_internal services row
  · rw [hmode]
    exact gcpDsn_fails isInternal_internal services row

/-! ## The gRPC gate -/

theorem checkStatus_of_revoked {status : ProjectStatus} (h : status.Revoked) :
    ∃ e, checkStatus status = .error e ∧ ¬Internal e := by
  rcases h with rfl | rfl
  · exact ⟨_, rfl, (nomatch ·)⟩
  · exact ⟨_, rfl, (nomatch ·)⟩

theorem checkStatus_of_not_revoked {status : ProjectStatus} (h : ¬status.Revoked) :
    checkStatus status = .ok () := by
  cases status with
  | suspended => exact absurd (.inl rfl) h
  | deleted => exact absurd (.inr rfl) h
  | active | other => rfl

theorem not_valid_of_new {projectId : String} {e : CoreError}
    (h : new projectId = .error e) : ¬isValidProjectId projectId = true := by
  intro hvalid
  rw [new, dif_pos hvalid] at h
  cases h

theorem valid_of_new {projectId : String} {project : ProjectId}
    (h : new projectId = .ok project) : isValidProjectId projectId = true :=
  value_of_new h ▸ project.valid

section Gates

variable {services : Services} {env : Outside} {w : Control} {projectId : String}
  {row : ProjectRow}

/-- The id, the status and the two hashes decide. -/
theorem grpc_accepts_iff (hs : Fresh env w projectId row) (apiKey : String) :
    GrpcAccepts ((authenticate services projectId apiKey).run (answer env) w).1 ↔
      isValidProjectId projectId = true ∧ ¬row.status.Revoked ∧
        services.verified apiKey row.toProjectAuthRow = true := by
  rcases hproject : new projectId with e | project
  · rw [authenticate, hproject]
    exact ⟨fun h => absurd (h _ rfl) (by simp), fun h => absurd h.1 (not_valid_of_new hproject)⟩
  rw [authenticate, hproject]
  simp only [ask_bind, run_call, answer,
    hs.uncached ⟨project, _⟩ (value_of_new hproject), systemSql, call_bind,
    SystemDb.exec, hs.row, Option.map_some, ok_bind, require, awaitOr]
  by_cases hrevoked : row.status.Revoked
  · obtain ⟨e, he, hcode⟩ := checkStatus_of_revoked hrevoked
    rw [he]
    exact ⟨fun h => absurd (h e rfl) hcode, fun h => absurd hrevoked h.2.1⟩
  rw [checkStatus_of_not_revoked hrevoked]
  simp only [Prog.ofExcept, ok_bind, run_call, answer, hs.joins, id, Except.mapError]
  split_ifs with hverified
  · refine ⟨fun _ => ⟨valid_of_new hproject, hrevoked, hverified⟩, fun _ e he => ?_⟩
    have hfails : ∀ p : ControlProg Status (Backend × ProjectStatus × String), p.Fails Internal →
        (p.run (answer env) w).1 = .error e → e.code = .internal :=
      fun p hp hrun => hp.run (Prod.ext hrun rfl)
    refine hfails _ ?_ he
    exact (buildAdapter_fails services apiKey row.toProjectAuthRow).bind fun _ _ => trivial
  · exact ⟨fun h => absurd (h _ rfl) (by simp), fun h => absurd h.2.2 hverified⟩

/-! ## The gate of hosted identity -/

variable (hs : Stored services env w projectId row) (apiKey : String)

include hs

/-- The same three things decide. -/
theorem hosted_accepts_iff (hmode : row.backendMode.Direct) :
    HostedAccepts ((resolveCustomerDbAdapter services projectId apiKey).run
      (answer env) w).1 ↔
      isValidProjectId projectId = true ∧ ¬row.status.Revoked ∧
        services.verified apiKey row.toProjectAuthRow = true := by
  rcases hproject : new projectId with e | project
  · rw [resolveCustomerDbAdapter, hproject]
    refine ⟨fun h => ?_, fun h => absurd h.1 (not_valid_of_new hproject)⟩
    obtain ⟨detail, he⟩ := h _ rfl
    cases he
  rw [resolveCustomerDbAdapter, hproject]
  simp only [ask_bind, run_call, answer,
    hs.uncached ⟨project, _⟩ (value_of_new hproject), systemSql, call_bind,
    SystemDb.exec, hs.row, Option.map_some, ok_bind, require]
  split_ifs with hrevoked hverified
  · refine ⟨fun h => ?_, fun h => absurd hrevoked h.2.1⟩
    obtain ⟨detail, he⟩ := h _ rfl
    cases he
  · refine ⟨fun _ => ⟨valid_of_new hproject, hrevoked, hverified⟩, fun _ e he => ?_⟩
    have hfails : ∀ p : ControlProg ProjectAuthError String,
        p.Fails ProjectAuthError.IsInternal →
        (p.run (answer env) w).1 = .error e → e.IsInternal :=
      fun p hp hrun => hp.run (Prod.ext hrun rfl)
    refine hfails _ ?_ he
    refine (hostedDsn_fails services apiKey hmode).bind fun dsn => ?_
    exact (awaitOr_fails isInternal_internal _ _).bind fun _ _ => trivial
  · refine ⟨fun h => ?_, fun h => absurd h.2.2 hverified⟩
    obtain ⟨detail, he⟩ := h _ rfl
    cases he

/-! ## Anonymous sign-in -/

/-- Here the current hash decides alone, and the key must not be empty. -/
theorem anonymous_accepts_iff (showUuid : Uuid → String) :
    AnonymousAccepts ((signInAnonymously services showUuid projectId (some apiKey)).run
      (answer env) w).1 ↔
      apiKey ≠ "" ∧ services.verifies apiKey row.apiKeyHashCurrent = true := by
  obtain ⟨encrypted, seed, hencrypted, hseed, hlength⟩ := hs.signing
  by_cases hempty : apiKey = ""
  · subst hempty
    refine ⟨?_, fun h => absurd rfl h.1⟩
    rintro ⟨r, ⟨⟩⟩
  have hkey : (some apiKey).filter (fun k => !k.isEmpty) = some apiKey := by
    simpa using hempty
  rw [signInAnonymously, hkey]
  simp only [systemSql, call_bind, run_call, answer, SystemDb.exec, hs.row,
    Option.map_some, ok_bind, require]
  rw [Services.verifies]
  rcases services.verifyApiKey apiKey row.apiKeyHashCurrent with e | _ | _
  · constructor
    · rintro ⟨r, ⟨⟩⟩
    · rintro ⟨-, ⟨⟩⟩
  · constructor
    · rintro ⟨r, ⟨⟩⟩
    · rintro ⟨-, ⟨⟩⟩
  · refine ⟨fun _ => ⟨hempty, rfl⟩, fun _ => ?_⟩
    simp only [run_call, answer, SystemDb.exec, hencrypted, ok_bind, ask_bind, hseed,
      Except.mapError, Prog.ofExcept, hlength, if_true]
    exact ⟨_, rfl⟩

/-- The three gates agree on a key, and refuse it for a suspended or deleted project, exactly when
a valid id, a project in service and a key that matches one of the hashes come together just when
the key is not empty and matches the current hash. -/
theorem gates_agree_iff (hmode : row.backendMode.Direct) (showUuid : Uuid → String) :
    (GrpcAccepts ((authenticate services projectId apiKey).run (Control.answer env) w).1 ↔
        HostedAccepts ((resolveCustomerDbAdapter services projectId apiKey).run
          (Control.answer env) w).1) ∧
      ((GrpcAccepts ((authenticate services projectId apiKey).run (Control.answer env) w).1 ↔
          AnonymousAccepts ((signInAnonymously services showUuid projectId (some apiKey)).run
            (Control.answer env) w).1) ∧
        (row.status.Revoked →
          ¬GrpcAccepts ((authenticate services projectId apiKey).run (Control.answer env) w).1 ∧
          ¬HostedAccepts ((resolveCustomerDbAdapter services projectId apiKey).run
            (Control.answer env) w).1 ∧
          ¬AnonymousAccepts ((signInAnonymously services showUuid projectId (some apiKey)).run
            (Control.answer env) w).1) ↔
      (isValidProjectId projectId = true ∧ ¬row.status.Revoked ∧
          services.verified apiKey row.toProjectAuthRow = true ↔
        apiKey ≠ "" ∧ services.verifies apiKey row.apiKeyHashCurrent = true)) := by
  rw [grpc_accepts_iff hs.toFresh, hosted_accepts_iff hs apiKey hmode, anonymous_accepts_iff hs]
  refine ⟨Iff.rfl, fun h => h.1, fun h => ⟨h, fun hrevoked => ?_⟩⟩
  have hrefused : ¬(isValidProjectId projectId = true ∧ ¬row.status.Revoked ∧
    services.verified apiKey row.toProjectAuthRow = true) := fun haccepted => haccepted.2.1 hrevoked
  exact ⟨hrefused, hrefused, fun hanonymous => hrefused (h.mpr hanonymous)⟩

end Gates

/-! ## One project -/

/-- A server with the row for its only project, and a signing key for it. -/
def gateServer (row : ProjectRow) : Control :=
  { shopServer with db := { shopServer.db with
      projects := AList.singleton "shop" row
      anonymousSigningKeys := fun _ => some (List.replicate 32 0) } }

/-- A project whose key has been rotated from `old` to `key`. -/
def rotatedRow (status : ProjectStatus) : ProjectRow :=
  { shopRow with status := status, apiKeyHashPrevious := some "old" }

theorem stored_gateServer (row : ProjectRow) :
    Stored plainServices plainOutside (gateServer row) "shop" row where
  row := AList.lookup_insert ∅
  uncached _ _ := rfl
  joins := rfl
  signing := ⟨List.replicate 32 0, List.replicate 32 0, rfl, rfl, rfl⟩

/-- The current key of an active project is accepted by all. -/
theorem gates_agree_shop :
    GrpcAccepts ((authenticate plainServices "shop" "key").run (Control.answer plainOutside)
      (gateServer (rotatedRow .active))).1 ∧
    (GrpcAccepts ((authenticate plainServices "shop" "key").run (Control.answer plainOutside)
        (gateServer (rotatedRow .active))).1 ↔
      AnonymousAccepts ((signInAnonymously plainServices (fun _ => "user") "shop"
        (some "key")).run (Control.answer plainOutside) (gateServer (rotatedRow .active))).1) := by
  have hagree := gates_agree_iff (stored_gateServer (rotatedRow .active)) "key" (.inl rfl)
    fun _ => "user"
  refine ⟨(grpc_accepts_iff (stored_gateServer _).toFresh _).mpr (by decide), ?_⟩
  exact (hagree.2.mpr (by decide)).1

/-- Anonymous sign-in mints a token for a suspended project, and refuses the previous key. -/
theorem anonymous_gate_differs :
    (¬GrpcAccepts ((authenticate plainServices "shop" "key").run (Control.answer plainOutside)
        (gateServer (rotatedRow .suspended))).1 ∧
      AnonymousAccepts ((signInAnonymously plainServices (fun _ => "user") "shop"
        (some "key")).run (Control.answer plainOutside) (gateServer (rotatedRow .suspended))).1) ∧
    GrpcAccepts ((authenticate plainServices "shop" "old").run (Control.answer plainOutside)
        (gateServer (rotatedRow .active))).1 ∧
      ¬AnonymousAccepts ((signInAnonymously plainServices (fun _ => "user") "shop"
        (some "old")).run (Control.answer plainOutside) (gateServer (rotatedRow .active))).1 := by
  rw [grpc_accepts_iff (stored_gateServer _).toFresh,
    grpc_accepts_iff (stored_gateServer _).toFresh,
    anonymous_accepts_iff (stored_gateServer _), anonymous_accepts_iff (stored_gateServer _)]
  decide

end Embyr
