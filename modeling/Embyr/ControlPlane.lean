import Embyr.Lib.PrimaryKey
import Embyr.Members

/-!
# The control plane

The system database, the credential cache of a server, and what the requests of the control plane
ask of them.

* `SystemStmt`, `SystemDb.exec` — the statements on projects, SDK keys, subscriptions and Stripe
  events, each with the rows it gives back or the number of rows it changes.
* `CredentialCache` — what an API key was resolved to, by project and digest of the key.
* `ControlCall`, `Control.answer` — everything a request awaits, and what it is answered when
  nothing fails.
* `controlServer` — the machine the requests share: a statement may also fail, and between any two
  steps the cache may drop entries and usage may grow.

Columns that no modelled request reads are left out.
-/

namespace Embyr

open Program PrimaryKey

/-! ## Rows -/

/-- `projects.status`, which is free text. -/
inductive ProjectStatus where
  | active
  | suspended
  | deleted
  | other (text : String)
  deriving DecidableEq

/-- The two statuses no request is served under. -/
def ProjectStatus.Revoked (status : ProjectStatus) : Prop := status = suspended ∨ status = deleted

instance (status : ProjectStatus) : Decidable status.Revoked :=
  inferInstanceAs (Decidable (_ ∨ _))

/-- `projects.backend_mode`. -/
inductive BackendMode where
  | directPg
  | agent
  | awsSecret
  | gcpSecret
  | other (text : String)
  deriving DecidableEq

/-- `ProjectAuthRow`. -/
structure ProjectAuthRow where
  status : ProjectStatus
  backendMode : BackendMode
  apiKeyHashCurrent : String
  apiKeyHashPrevious : Option String := none
  eciesEncryptedDsn : Option (List UInt8) := none
  backendAgentEndpoint : Option String := none
  agentTlsBundleEnc : Option (List UInt8) := none
  backendSecretArn : Option String := none
  backendSecretGcp : Option String := none

/-- A row of `projects`. -/
structure ProjectRow extends ProjectAuthRow where
  accountId : Option Uuid

/-- A row of `sdk_api_keys`. -/
structure SdkKeyRow where
  projectId : String
  keyHash : List UInt8
  revoked : Bool

inductive SubscriptionPlan where
  | free
  | pro
  deriving DecidableEq

inductive SubscriptionStatus where
  | active
  | pastDue
  | freeCapExceeded
  | canceled
  deriving DecidableEq

/-- The texts that the constraint on `subscriptions.status` admits. -/
def SubscriptionStatus.parse : String → Option SubscriptionStatus
  | "active" => some active
  | "past_due" => some pastDue
  | "free_cap_exceeded" => some freeCapExceeded
  | "canceled" => some canceled
  | _ => none

/-- A row of `subscriptions`. -/
structure BillingSubscription where
  plan : SubscriptionPlan
  status : SubscriptionStatus
  stripeSubscriptionId : Option String

/-- What `daily_project_metrics` sums to for an account in the current month. -/
structure Usage where
  readOps : ℤ
  writeOps : ℤ
  deleteOps : ℤ

/-- The tables of the system database. -/
structure SystemDb where
  projects : Table String ProjectRow
  sdkKeys : Table Uuid SdkKeyRow
  /-- `private_key_enc` of `anonymous_signing_keys` -/
  anonymousSigningKeys : String → Option (List UInt8)
  /-- `accounts.stripe_customer_id` -/
  stripeCustomers : Uuid → Option String
  subscriptions : Table Uuid BillingSubscription
  /-- the ids in `processed_webhook_events` -/
  processedEvents : List String
  usage : Uuid → Usage

/-! ## Statements -/

/-- The statements of the control plane on the system database. -/
inductive SystemStmt where
  /-- `get_project_for_auth` -/
  | projectForAuth (projectId : String)
  /-- `UPDATE projects SET status … WHERE id AND status IN ('active', 'suspended')` -/
  | setStatus (projectId : String) (newStatus : ProjectStatus)
  /-- `UPDATE projects SET status = 'deleted' … WHERE id AND status != 'deleted'` -/
  | markDeleted (projectId : String)
  /-- `SELECT id FROM projects WHERE account_id AND status` -/
  | projectsOf (accountId : Uuid) (status : ProjectStatus)
  /-- `SELECT account_id FROM projects WHERE id AND status != 'deleted'` -/
  | projectAccount (projectId : String)
  /-- `INSERT INTO projects` -/
  | insertProject (projectId : String) (row : ProjectRow)
  /-- `INSERT INTO sdk_api_keys`; the id is what `gen_random_uuid` gives -/
  | insertSdkKey (id : Uuid) (projectId : String) (keyHash : List UInt8)
  /-- `UPDATE sdk_api_keys SET revoked_at … WHERE id AND project_id AND revoked_at IS NULL` -/
  | revokeSdkKey (id : Uuid) (projectId : String)
  /-- the same for all keys of a project -/
  | revokeSdkKeys (projectId : String)
  /-- `get_anonymous_signing_key` -/
  | anonymousSigningKey (projectId : String)
  /-- `INSERT INTO processed_webhook_events … ON CONFLICT DO NOTHING` -/
  | recordEvent (eventId : String)
  /-- `SELECT account_id FROM subscriptions WHERE stripe_subscription_id` -/
  | subscriptionAccount (stripeSubscriptionId : String)
  /-- `UPDATE subscriptions SET status … WHERE stripe_subscription_id` -/
  | setSubscriptionStatus (stripeSubscriptionId : String) (status : SubscriptionStatus)
  /-- `UPDATE subscriptions SET status, plan = COALESCE(…) … WHERE stripe_subscription_id` -/
  | syncSubscription (stripeSubscriptionId status : String) (plan : Option SubscriptionPlan)
  /-- `SELECT … WHERE plan = 'free' AND status IN ('active', 'free_cap_exceeded')` -/
  | freeAccounts
  /-- the sums over `daily_project_metrics` -/
  | usageThisMonth (accountId : Uuid)
  /-- `UPDATE subscriptions SET status = 'free_cap_exceeded' … WHERE account_id` -/
  | markCapExceeded (accountId : Uuid)
  /-- `SELECT stripe_customer_id FROM accounts WHERE id` -/
  | stripeCustomer (accountId : Uuid)
  /-- `SELECT status FROM subscriptions WHERE account_id` -/
  | subscriptionStatus (accountId : Uuid)
  /-- `UPDATE subscriptions SET plan, status, stripe_subscription_id … WHERE account_id` -/
  | changePlan (accountId : Uuid) (plan : SubscriptionPlan) (status : SubscriptionStatus)
      (stripeSubscriptionId : String)

/-- What a statement that succeeds gives back. -/
abbrev SystemStmt.Result : SystemStmt → Type
  | projectForAuth _ => Option ProjectAuthRow
  | projectsOf _ _ => List String
  | projectAccount _ => Option (Option Uuid)
  | insertProject _ _ | insertSdkKey _ _ _ => Unit
  | anonymousSigningKey _ => Option (List UInt8)
  | subscriptionAccount _ => Option Uuid
  | freeAccounts => List (Uuid × SubscriptionStatus)
  | usageThisMonth _ => Usage
  | stripeCustomer _ => Option String
  | subscriptionStatus _ => Option SubscriptionStatus
  | setStatus _ _ | markDeleted _ | revokeSdkKey _ _ | revokeSdkKeys _ | recordEvent _
  | setSubscriptionStatus _ _ | syncSubscription _ _ _ | markCapExceeded _
  | changePlan _ _ _ _ => ℕ

variable {s : SystemStmt}

namespace SystemDb

/-- An update of `projects`, with the number of rows. -/
def updateProjects (db : SystemDb) (p : String → ProjectRow → Bool)
    (newStatus : ProjectStatus) : Except String ℕ × SystemDb :=
  (.ok (updated p db.projects), { db with
    projects := update p (fun row => { row with status := newStatus }) db.projects })

/-- An update of `sdk_api_keys`. -/
def updateKeys (db : SystemDb) (p : Uuid → SdkKeyRow → Bool) : Except String ℕ × SystemDb :=
  (.ok (updated p db.sdkKeys), { db with
    sdkKeys := update p (fun row => { row with revoked := true }) db.sdkKeys })

/-- An update of `subscriptions`. -/
def updateSubscriptions (db : SystemDb) (p : Uuid → BillingSubscription → Bool)
    (f : BillingSubscription → BillingSubscription) : Except String ℕ × SystemDb :=
  (.ok (updated p db.subscriptions), { db with subscriptions := update p f db.subscriptions })

/-- The accounts that the cap refresher lists. -/
def freeAccountsList (db : SystemDb) : List (Uuid × SubscriptionStatus) :=
  db.subscriptions.entries.filterMap fun x =>
    if x.2.plan = .free ∧ (x.2.status = .active ∨ x.2.status = .freeCapExceeded) then
      some (x.1, x.2.status)
    else none

/-- What a statement answers, and the database after it. -/
def exec (db : SystemDb) : (s : SystemStmt) → Except String s.Result × SystemDb
  | .projectForAuth projectId =>
    (.ok ((db.projects.lookup projectId).map ProjectRow.toProjectAuthRow), db)
  | .setStatus projectId newStatus =>
    db.updateProjects
      (fun id row => id = projectId ∧ (row.status = .active ∨ row.status = .suspended)) newStatus
  | .markDeleted projectId =>
    db.updateProjects (fun id row => id = projectId ∧ row.status ≠ .deleted) .deleted
  | .projectsOf accountId status =>
    (.ok (select (fun _ row => row.accountId = some accountId ∧ row.status = status) db.projects),
      db)
  | .projectAccount projectId =>
    (.ok (((db.projects.lookup projectId).filter fun row => row.status ≠ .deleted).map
      ProjectRow.accountId), db)
  | .insertProject projectId row =>
    if (db.projects.lookup projectId).isSome then
      (.error "duplicate key value violates unique constraint", db)
    else (.ok (), { db with projects := db.projects.insert projectId row })
  | .insertSdkKey id projectId keyHash =>
    if (db.sdkKeys.lookup id).isSome ∨ (select (fun _ row => row.keyHash = keyHash) db.sdkKeys) ≠ []
    then (.error "duplicate key value violates unique constraint", db)
    else (.ok (), { db with sdkKeys := db.sdkKeys.insert id ⟨projectId, keyHash, false⟩ })
  | .revokeSdkKey id projectId =>
    db.updateKeys fun id' row => id' = id ∧ row.projectId = projectId ∧ row.revoked = false
  | .revokeSdkKeys projectId =>
    db.updateKeys fun _ row => row.projectId = projectId ∧ row.revoked = false
  | .anonymousSigningKey projectId => (.ok (db.anonymousSigningKeys projectId), db)
  | .recordEvent eventId =>
    if eventId ∈ db.processedEvents then (.ok 0, db)
    else (.ok 1, { db with processedEvents := eventId :: db.processedEvents })
  | .subscriptionAccount stripeSubscriptionId =>
    (.ok (select (fun _ row => row.stripeSubscriptionId = some stripeSubscriptionId)
      db.subscriptions).head?, db)
  | .setSubscriptionStatus stripeSubscriptionId status =>
    db.updateSubscriptions (fun _ row => row.stripeSubscriptionId = some stripeSubscriptionId)
      fun row => { row with status := status }
  | .syncSubscription stripeSubscriptionId status plan =>
    match SubscriptionStatus.parse status with
    | some status =>
      db.updateSubscriptions (fun _ row => row.stripeSubscriptionId = some stripeSubscriptionId)
        fun row => { row with status := status, plan := plan.getD row.plan }
    | none => (.error "new row for relation violates check constraint", db)
  | .freeAccounts => (.ok db.freeAccountsList, db)
  | .usageThisMonth accountId => (.ok (db.usage accountId), db)
  | .markCapExceeded accountId =>
    db.updateSubscriptions (fun id _ => id = accountId)
      fun row => { row with status := .freeCapExceeded }
  | .stripeCustomer accountId => (.ok (db.stripeCustomers accountId), db)
  | .subscriptionStatus accountId =>
    (.ok ((db.subscriptions.lookup accountId).map BillingSubscription.status), db)
  | .changePlan accountId plan status stripeSubscriptionId =>
    db.updateSubscriptions (fun id _ => id = accountId)
      fun _ => ⟨plan, status, some stripeSubscriptionId⟩

/-! ## What statements do -/

theorem lookup_updateProjects (db : SystemDb) (p : String → ProjectRow → Bool)
    (newStatus : ProjectStatus) (projectId : String) :
    (db.updateProjects p newStatus).2.projects.lookup projectId =
      (db.projects.lookup projectId).map fun row =>
        if p projectId row then { row with status := newStatus } else row :=
  lookup_update ..

/-- All a statement can do to a project. -/
inductive ProjectMoves (db : SystemDb) (s : SystemStmt) (projectId : String) :
    Option ProjectRow → Prop
  | unchanged : ProjectMoves db s projectId (db.projects.lookup projectId)
  | moved (row : ProjectRow) (newStatus : ProjectStatus) (hs : s = .setStatus projectId newStatus)
      (hrow : db.projects.lookup projectId = some row)
      (hold : row.status = .active ∨ row.status = .suspended) :
      ProjectMoves db s projectId (some { row with status := newStatus })
  | deleted (row : ProjectRow) (hs : s = .markDeleted projectId)
      (hrow : db.projects.lookup projectId = some row) :
      ProjectMoves db s projectId (some { row with status := .deleted })
  | created (row : ProjectRow) (hs : s = .insertProject projectId row)
      (hnone : db.projects.lookup projectId = none) : ProjectMoves db s projectId (some row)

variable {db : SystemDb}

theorem ProjectMoves.update {projectId : String} {p : String → ProjectRow → Bool}
    {newStatus : ProjectStatus}
    (hmet : ∀ row, db.projects.lookup projectId = some row → p projectId row = true →
      db.ProjectMoves s projectId (some { row with status := newStatus })) :
    db.ProjectMoves s projectId ((db.updateProjects p newStatus).2.projects.lookup projectId) := by
  rw [lookup_updateProjects]
  rcases hrow : db.projects.lookup projectId with _ | row
  · rw [Option.map_none, ← hrow]
    exact .unchanged
  · rw [Option.map_some]
    split_ifs with hp
    · exact hmet row hrow hp
    · rw [← hrow]
      exact .unchanged

theorem ProjectMoves.insert {projectId id : String} {row : ProjectRow}
    (hnone : db.projects.lookup id = none) :
    db.ProjectMoves (.insertProject id row) projectId
      ((db.projects.insert id row).lookup projectId) := by
  by_cases hid : projectId = id
  · subst hid
    rw [AList.lookup_insert]
    exact .created row rfl hnone
  · rw [AList.lookup_insert_ne hid]
    exact .unchanged

theorem exec_projects (db : SystemDb) (s : SystemStmt) (projectId : String) :
    db.ProjectMoves s projectId ((db.exec s).2.projects.lookup projectId) := by
  cases s with
  | setStatus id newStatus =>
    refine .update fun row hrow hmet => ?_
    obtain ⟨rfl, hold⟩ := of_decide_eq_true hmet
    exact .moved row newStatus rfl hrow hold
  | markDeleted id =>
    refine .update fun row hrow hmet => ?_
    obtain ⟨rfl, -⟩ := of_decide_eq_true hmet
    exact .deleted row rfl hrow
  | insertProject id row =>
    rw [exec]
    split_ifs with hid
    · exact .unchanged
    · exact .insert (Option.not_isSome_iff_eq_none.mp hid)
  | insertSdkKey id project keyHash =>
    rw [exec]
    split_ifs
    · exact .unchanged
    · exact .unchanged
  | recordEvent eventId =>
    rw [exec]
    split_ifs
    · exact .unchanged
    · exact .unchanged
  | syncSubscription subscription status plan =>
    rw [exec]
    split
    · exact .unchanged
    · exact .unchanged
  | _ => exact .unchanged

/-- A statement that is refused changes nothing. -/
theorem exec_error {e : String} (h : (db.exec s).1 = .error e) :
    (db.exec s).2 = db := by
  cases s with
  | insertProject id row =>
    rw [exec] at h ⊢
    split_ifs at h ⊢
    rfl
  | insertSdkKey id project keyHash =>
    rw [exec] at h ⊢
    split_ifs at h ⊢
    rfl
  | recordEvent eventId =>
    rw [exec] at h
    split_ifs at h
  | syncSubscription subscription status plan =>
    rw [exec] at h ⊢
    split at h
    · cases h
    · rfl
  | _ => cases h

end SystemDb

/-! ## The credential cache -/

/-- What a project's requests are sent to: a database, or an agent with its certificates. -/
inductive Backend where
  | postgres (dsn : String)
  | agent (endpoint caPem clientCertPem clientKeyPem : String)

/-- `CredentialCacheKey`. -/
structure CredentialCacheKey where
  projectId : ProjectId
  apiKeyBlake3 : List UInt8
  deriving DecidableEq

/-- `CachedEntry`. -/
structure CachedEntry where
  adapter : Backend
  projectStatus : ProjectStatus
  dsn : String

/-- `CredentialCache`, without the order in which it forgets. -/
abbrev CredentialCache : Type := CredentialCacheKey → Option CachedEntry

/-- `evict_project`. -/
def CredentialCache.evictProject (cache : CredentialCache) (projectId : String) :
    CredentialCache :=
  fun key => if key.projectId.value = projectId then none else cache key

/-! ## What a request awaits -/

inductive SecretSource where
  | aws
  | gcp

inductive ControlCall where
  | sql (s : SystemStmt)
  | cacheGet (key : CredentialCacheKey)
  | cacheInsert (key : CredentialCacheKey) (entry : CachedEntry)
  | evictProject (projectId : String)
  /-- `spawn_blocking`, which may fail to join -/
  | blocking
  /-- `get_dsn` -/
  | fetchSecret (source : SecretSource) (name : String)
  | connect (backend : Backend)
  /-- a random UUID -/
  | freshUuid
  /-- 24 random bytes in base64 -/
  | freshSuffix
  /-- `upsert_subscription`, which gives the id of the subscription -/
  | upsertSubscription (stripeCustomerId : String) (plan : SubscriptionPlan)
  /-- `Utc::now` in seconds -/
  | now

/-- What an await gives. -/
abbrev ControlCall.Answer : ControlCall → Type
  | sql s => Except String s.Result
  | cacheGet _ => Option CachedEntry
  | cacheInsert _ _ | evictProject _ => Unit
  | blocking | connect _ => Except String Unit
  | fetchSecret _ _ | upsertSubscription _ _ => Except String String
  | freshUuid => Uuid
  | freshSuffix => String
  | now => ℤ

/-- A program of the control plane. -/
abbrev ControlProg (ε R : Type) : Type := Prog ControlCall.Answer ε R

/-- A statement whose failure ends the request. -/
def systemSql {ε : Type} (failure : String → ε) (s : SystemStmt) : ControlProg ε s.Result :=
  .call (.sql s) fun
    | .ok r => .ok r
    | .error e => .error (failure e)

/-- A server: the system database, its cache, and how many random values it has drawn. -/
structure Control where
  db : SystemDb
  cache : CredentialCache
  drawn : ℕ

/-- What answers besides the database and the cache. -/
structure Outside where
  blocking : Except String Unit
  secret : SecretSource → String → Except String String
  connect : Backend → Except String Unit
  uuid : ℕ → Uuid
  suffix : ℕ → String
  subscription : String → SubscriptionPlan → Except String String
  now : ℤ

namespace Control

/-- What an await is answered when nothing fails, and the server after it. -/
def answer (env : Outside) : (q : ControlCall) → Control → q.Answer × Control
  | .sql s, w => ((w.db.exec s).1, { w with db := (w.db.exec s).2 })
  | .cacheGet key, w => (w.cache key, w)
  | .cacheInsert key entry, w => ((), { w with cache := Function.update w.cache key (some entry) })
  | .evictProject projectId, w => ((), { w with cache := w.cache.evictProject projectId })
  | .blocking, w => (env.blocking, w)
  | .fetchSecret source name, w => (env.secret source name, w)
  | .connect backend, w => (env.connect backend, w)
  | .freshUuid, w => (env.uuid w.drawn, { w with drawn := w.drawn + 1 })
  | .freshSuffix, w => (env.suffix w.drawn, { w with drawn := w.drawn + 1 })
  | .upsertSubscription customer plan, w => (env.subscription customer plan, w)
  | .now, w => (env.now, w)

/-- The cache forgets entries and usage grows. -/
structure Drifts (w w' : Control) : Prop where
  db : ∃ usage, w'.db = { w.db with usage := usage } ∧
    ∀ accountId, (w.db.usage accountId).readOps ≤ (usage accountId).readOps ∧
      (w.db.usage accountId).writeOps ≤ (usage accountId).writeOps ∧
      (w.db.usage accountId).deleteOps ≤ (usage accountId).deleteOps
  cache : ∀ key entry, w'.cache key = some entry → w.cache key = some entry

theorem Drifts.refl (w : Control) : w.Drifts w :=
  ⟨⟨w.db.usage, rfl, fun _ => ⟨le_rfl, le_rfl, le_rfl⟩⟩, fun _ _ h => h⟩

/-- An await is answered, or its statement fails without an effect. -/
inductive Performs : (q : ControlCall) → Control → q.Answer → Control → Prop
  | done (env : Outside) (q : ControlCall) (w : Control) :
      Performs q w (answer env q w).1 (answer env q w).2
  | failed (s : SystemStmt) (w : Control) (detail : String) :
      Performs (.sql s) w (.error detail) w

end Control

/-- The machine that the requests of one server share. -/
def controlServer : Machine ControlCall.Answer Control where
  step _ q w a w' := ∃ done, Control.Performs q w a done ∧ done.Drifts w'

namespace Control

variable {i : ℕ} {w w' : Control}

/-- The database changes with a statement that succeeds, and in nothing but usage otherwise. -/
theorem db_of_step {q : ControlCall} {a : q.Answer} (h : controlServer.step i q w a w') :
    ∃ db, (db = w.db ∨ ∃ s, q = .sql s ∧ db = (w.db.exec s).2) ∧
      ∃ usage, w'.db = { db with usage := usage } := by
  obtain ⟨done, hperforms, hdrifts⟩ := h
  obtain ⟨usage, hdb, -⟩ := hdrifts.db
  refine ⟨done.db, ?_, usage, hdb⟩
  cases hperforms with
  | done env =>
    cases q with
    | sql s => exact .inr ⟨s, rfl, rfl⟩
    | _ => exact .inl rfl
  | failed s w detail => exact .inl rfl

/-- A statement that is answered has been executed. -/
theorem sql_of_step {r : s.Result} (h : controlServer.step i (.sql s) w (.ok r) w') :
    (w.db.exec s).1 = .ok r ∧ ∃ usage, w'.db = { (w.db.exec s).2 with usage := usage } := by
  obtain ⟨done, hperforms, hdrifts⟩ := h
  obtain ⟨usage, hdb, -⟩ := hdrifts.db
  generalize ha : (Except.ok r : (ControlCall.sql s).Answer) = a at hperforms
  cases hperforms with
  | done env => exact ⟨rfl, usage, hdb⟩
  | failed s w detail => cases ha

/-- A statement that fails, or is refused, leaves the database as it is. -/
theorem failed_of_step {e : String} (h : controlServer.step i (.sql s) w (.error e) w') :
    ∃ usage, w'.db = { w.db with usage := usage } := by
  obtain ⟨done, hperforms, hdrifts⟩ := h
  obtain ⟨usage, hdb, -⟩ := hdrifts.db
  have hsame : done.db = w.db := by
    generalize ha : (Except.error e : (ControlCall.sql s).Answer) = a at hperforms
    cases hperforms with
    | done env => exact SystemDb.exec_error ha.symm
    | failed s w detail => rfl
  exact ⟨usage, hsame ▸ hdb⟩

/-- The cache gives what it holds. -/
theorem cacheGet_of_step {key : CredentialCacheKey} {a : Option CachedEntry}
    (h : controlServer.step i (.cacheGet key) w a w') :
    a = w.cache key := by
  obtain ⟨done, hperforms, -⟩ := h
  cases hperforms with
  | done env => rfl

/-- A cached entry was there before or has just been inserted. -/
theorem cache_of_step {q : ControlCall} {a : q.Answer} (h : controlServer.step i q w a w')
    {key : CredentialCacheKey} {entry : CachedEntry} (hentry : w'.cache key = some entry) :
    (w.cache key = some entry ∧ q ≠ .evictProject key.projectId.value) ∨
      q = .cacheInsert key entry := by
  obtain ⟨done, hperforms, hdrifts⟩ := h
  have hdone := hdrifts.cache key entry hentry
  cases hperforms with
  | done env =>
    cases q with
    | cacheInsert key' entry' =>
      by_cases hkey : key = key'
      · subst hkey
        have hself : some entry' = some entry :=
          (Function.update_self (β := fun _ => Option CachedEntry) ..).symm.trans hdone
        exact .inr (congrArg _ (Option.some.inj hself))
      · have hother : w.cache key = some entry :=
          (Function.update_of_ne hkey ..).symm.trans hdone
        exact .inl ⟨hother, nofun⟩
    | evictProject projectId =>
      have hevicted : (if key.projectId.value = projectId then none else w.cache key) =
        some entry := hdone
      split_ifs at hevicted with hid
      exact .inl ⟨hevicted, fun h => hid (ControlCall.evictProject.inj h).symm⟩
    | _ => exact .inl ⟨hdone, nofun⟩
  | failed s w detail => exact .inl ⟨hdone, nofun⟩

end Control

/-- One way to serve the requests: nothing fails, nothing is forgotten. -/
def controlServe (env : Outside) (i : ℕ) (q : ControlCall)
    (s : Control × Trace ControlCall.Answer) :
    Option (q.Answer × Control × Trace ControlCall.Answer) :=
  let a := Control.answer env q s.1
  some (a.1, a.2, s.2 ++ [(i, ⟨q, a.1⟩)])

/-- A schedule of requests is a run. -/
theorem reach_of_controlServe {ε R : ℕ → Type} {env : Outside}
    {guard : Config ControlCall.Answer (Control × Trace ControlCall.Answer) ε R → ℕ → Prop}
    {admits : Config ControlCall.Answer (Control × Trace ControlCall.Answer) ε R → ℕ → Bool}
    {schedule : List ℕ}
    {c c' : Config ControlCall.Answer (Control × Trace ControlCall.Answer) ε R}
    (hguard : ∀ {c i}, admits c i = true → guard c i)
    (h : c.follow admits (controlServe env) schedule = some c') :
    Reach controlServer.traced guard c c' := by
  refine (Config.reach_of_follow (I := fun _ => True) hguard (fun _ hserve => ?_) trivial h).1
  cases hserve
  exact ⟨⟨⟨_, .done env _ _, .refl _⟩, rfl⟩, trivial⟩

end Embyr
