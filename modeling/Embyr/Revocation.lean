import Embyr.Credentials

/-!
# Revocation

Requests that look at a key, and requests that suspend, activate and delete projects, at the same
time on one server. A lookup that misses the cache reads the row of the project, verifies the key,
and stores the outcome; the eviction of a suspension may come before that last step.

* `ProjectRevoked` — the row of the project says suspended or deleted; `ProjectRevoked.exec` is
  what a statement may do to it.
* `Unraced` — a lookup is not stored for a project that has been revoked meanwhile, and nobody
  activates a project that the request in question has revoked.
* `revocation_holds` — then every lookup that starts after a suspension or deletion has returned
  is refused.
-/

namespace Embyr

open Program Prog PrimaryKey ProjectId

/-! ## Revoked projects -/

/-- The row of the project says suspended or deleted. -/
def ProjectRevoked (db : SystemDb) (projectId : String) : Prop :=
  ∃ row, db.projects.lookup projectId = some row ∧ row.status.Revoked

variable {db : SystemDb} {projectId : String}

/-- A revoked project stays revoked under every statement that does not set its status to another
one. -/
theorem ProjectRevoked.exec (h : ProjectRevoked db projectId) {s : SystemStmt}
    (hs : ∀ status, s = .setStatus projectId status → status.Revoked) :
    ProjectRevoked (db.exec s).2 projectId := by
  obtain ⟨old, hold, hrevoked⟩ := h
  have hmoves := db.exec_projects s projectId
  generalize hafter : (db.exec s).2.projects.lookup projectId = after at hmoves
  cases hmoves with
  | unchanged => exact ⟨old, hafter.trans hold, hrevoked⟩
  | moved row newStatus hset hrow _ => exact ⟨_, hafter, hs newStatus hset⟩
  | deleted row hdelete hrow => exact ⟨_, hafter, .inr rfl⟩
  | created row hinsert hnone =>
    rw [hold] at hnone
    cases hnone

variable {rows : ℕ}

/-- An update of one project that found its row. -/
theorem projectRevoked_of_update {p : String → ProjectRow → Bool} {newStatus : ProjectStatus}
    (hp : ∀ id row, p id row = true → id = projectId) (hstatus : newStatus.Revoked)
    (hrows : (db.updateProjects p newStatus).1 = .ok rows)
    (hpos : 0 < rows) : ProjectRevoked (db.updateProjects p newStatus).2 projectId := by
  obtain rfl : updated p db.projects = rows := Except.ok.inj hrows
  obtain ⟨id, row, hrow, hmet⟩ := updated_pos.mp hpos
  obtain rfl := hp id row hmet
  refine ⟨{ row with status := newStatus }, ?_, hstatus⟩
  rw [SystemDb.lookup_updateProjects, hrow]
  simp [hmet]

theorem ProjectRevoked.of_projects {db' : SystemDb} (h : ProjectRevoked db projectId)
    (hprojects : db'.projects = db.projects) :
    ProjectRevoked db' projectId := by
  obtain ⟨row, hrow, hrevoked⟩ := h
  exact ⟨row, hprojects ▸ hrow, hrevoked⟩

variable {i : ℕ} {q : ControlCall} {w w' : Control} {a : q.Answer}

/-- A step keeps a project revoked, unless it sets another status. -/
theorem ProjectRevoked.step (h : ProjectRevoked w.db projectId)
    (hstep : controlServer.step i q w a w')
    (hq : ∀ status, q = .sql (.setStatus projectId status) → status.Revoked) :
    ProjectRevoked w'.db projectId := by
  obtain ⟨db, hdb, usage, hdb'⟩ := Control.db_of_step hstep
  have hrevoked : ProjectRevoked db projectId := by
    rcases hdb with rfl | ⟨s, rfl, rfl⟩
    · exact h
    · exact h.exec fun status hs => hq status (congrArg _ hs)
  exact hrevoked.of_projects (by rw [hdb'])

/-- No lookup of the project is answered from the cache. -/
def Uncached (cache : CredentialCache) (projectId : String) : Prop :=
  ∀ key entry, key.projectId.value = projectId → cache key = some entry →
    entry.projectStatus.Revoked

/-- Nothing but an insertion ends that. -/
theorem Uncached.step (h : Uncached w.cache projectId) (hstep : controlServer.step i q w a w')
    (hq : ∀ key entry, q = .cacheInsert key entry → key.projectId.value ≠ projectId) :
    Uncached w'.cache projectId := by
  intro key entry hkey hentry
  rcases Control.cache_of_step hstep hentry with ⟨hold, -⟩ | hinsert
  · exact h key entry hkey hold
  · exact absurd hkey (hq key entry hinsert)

theorem uncached_of_evict {a : Unit}
    (hstep : controlServer.step i (.evictProject projectId) w a w') :
    Uncached w'.cache projectId := by
  rintro key entry rfl hentry
  rcases Control.cache_of_step hstep hentry with ⟨-, hne⟩ | hinsert
  · exact absurd rfl hne
  · cases hinsert

/-! ## Requests -/

/-- The requests on the projects of a server. -/
inductive ProjectRequest where
  | authenticate (projectId apiKey : String)
  | resolve (projectId apiKey : String)
  | suspend (projectId : String)
  | activate (projectId : String)
  | delete (projectId : String)
  | suspendAccount (accountId : Uuid)
  | activateAccount (accountId : Uuid)

/-- How a request ends: with an adapter, or with a status or count. -/
inductive ProjectOutcome where
  | served
  | answered (n : ℕ)

inductive ProjectFailure where
  | grpc (status : Status)
  | hosted (e : ProjectAuthError)
  | http (status : ℕ)

/-- The program of a request. -/
def ProjectRequest.program (services : Services) :
    ProjectRequest → ControlProg ProjectFailure ProjectOutcome
  | authenticate projectId apiKey => do
    let _ ← (Embyr.authenticate services projectId apiKey).mapError .grpc
    return .served
  | resolve projectId apiKey => do
    let _ ← (resolveCustomerDbAdapter services projectId apiKey).mapError .hosted
    return .served
  | suspend projectId => do return .answered (← suspendProject projectId)
  | activate projectId => do return .answered (← activateProject projectId)
  | delete projectId => do return .answered (← deleteProject projectId)
  | suspendAccount accountId => do
    return .answered (← (suspendAccountProjects accountId).mapError .http)
  | activateAccount accountId => do
    return .answered (← (activateAccountProjects accountId).mapError .http)

/-- The requests of a server, with what each of them has been answered. -/
abbrev ProjectConfig : Type :=
  Config ControlCall.Answer (Control × Trace ControlCall.Answer) (fun _ => ProjectFailure)
    fun _ => ProjectOutcome

def projectStart (services : Services) (w : Control) (requests : ℕ → ProjectRequest) :
    ProjectConfig where
  state := (w, [])
  progs i := (requests i).program services

/-- Request `i` has set the status of the project. -/
def RevokedBy (trace : Trace ControlCall.Answer) (i : ℕ) (projectId : String) : Prop :=
  ∃ rows, 0 < rows ∧ ((i, ⟨.sql (.setStatus projectId .suspended), .ok rows⟩) ∈ trace ∨
    (i, ⟨.sql (.markDeleted projectId), .ok rows⟩) ∈ trace)

/-- What is asked of the step that session `k` takes. -/
structure Unraced (i : ℕ) (projectId : String) (c : ProjectConfig) (k : ℕ) : Prop where
  /-- a lookup is not stored for a revoked project -/
  fresh : ∀ key entry next, c.progs k = .call (.cacheInsert key entry) next →
    key.projectId.value = projectId → ¬ProjectRevoked c.state.1.db projectId
  /-- once request `i` has set the status, only suspensions follow -/
  settled : ∀ status next, c.progs k = .call (.sql (.setStatus projectId status)) next →
    RevokedBy c.state.2 i projectId → status = .suspended

/-! ## The request that revokes -/

inductive RevokeState where
  | before
  | updated
  | evicted
  deriving DecidableEq

/-- A suspension or deletion that reports success has set the status and then evicted. -/
def revokeMonitor (projectId : String) : Monitor ControlCall.Answer RevokeState where
  allows
    | .before, q => q = .sql (.revokeSdkKeys projectId) ∨
        q = .sql (.setStatus projectId .suspended) ∨ q = .sql (.markDeleted projectId)
    | .updated, q => q = .evictProject projectId
    | .evicted, _ => False
  next
    | .before, .sql (.setStatus _ _), .ok rows => if 0 < rows then .updated else .before
    | .before, .sql (.markDeleted _), .ok rows => if 0 < rows then .updated else .before
    | .updated, .evictProject _, _ => .evicted
    | g, _, _ => g

/-- Success is reported after the eviction. -/
def RevokePost (g : RevokeState) (x : Except ProjectFailure ProjectOutcome) : Prop :=
  x = .ok (.answered 200) → g = .evicted

/-- What follows the statement that sets the status. -/
theorem evict_obeys :
    ((if 0 < rows then .call (.evictProject projectId) fun _ => .ok 200 else .ok 404) >>=
      fun n => .ok (.answered n) : ControlProg ProjectFailure ProjectOutcome).Obeys
        (revokeMonitor projectId) RevokePost (if 0 < rows then .updated else .before) := by
  split_ifs
  · exact ⟨rfl, fun _ _ => rfl⟩
  · exact nofun

theorem suspendProject_obeys (services : Services) (projectId : String) :
    ((ProjectRequest.suspend projectId).program services).Obeys (revokeMonitor projectId)
      RevokePost .before := by
  refine ⟨.inr (.inl rfl), fun a => ?_⟩
  rcases a with e | rows
  · exact nofun
  · exact evict_obeys

theorem deleteProject_obeys (services : Services) (projectId : String) :
    ((ProjectRequest.delete projectId).program services).Obeys (revokeMonitor projectId)
      RevokePost .before := by
  refine ⟨.inl rfl, fun _ => ⟨.inr (.inr rfl), fun a => ?_⟩⟩
  rcases a with e | rows
  · exact nofun
  · exact evict_obeys

/-- The requests that revoke a project. -/
def Revokes (projectId : String) (request : ProjectRequest) : Prop :=
  request = .suspend projectId ∨ request = .delete projectId

variable {request : ProjectRequest}

theorem Revokes.obeys (h : Revokes projectId request) (services : Services) :
    (request.program services).Obeys (revokeMonitor projectId) RevokePost .before := by
  rcases h with rfl | rfl
  · exact suspendProject_obeys services projectId
  · exact deleteProject_obeys services projectId

/-- How far request `i` has come, and what that means for the project. -/
structure Revoking (i : ℕ) (projectId : String) (c : ProjectConfig) (g : RevokeState) : Prop where
  revoked : g ≠ .before → ProjectRevoked c.state.1.db projectId
  uncached : g = .evicted → Uncached c.state.1.cache projectId
  traced : g ≠ .before → RevokedBy c.state.2 i projectId

theorem RevokedBy.append {trace : Trace ControlCall.Answer} (h : RevokedBy trace i projectId)
    (more : Trace ControlCall.Answer) :
    RevokedBy (trace ++ more) i projectId := by
  obtain ⟨rows, hpos, h | h⟩ := h
  · exact ⟨rows, hpos, .inl (List.mem_append_left _ h)⟩
  · exact ⟨rows, hpos, .inr (List.mem_append_left _ h)⟩

variable {c : ProjectConfig}

variable {g : RevokeState} {next : q.Answer → ControlProg ProjectFailure ProjectOutcome}
  {s : Control × Trace ControlCall.Answer} {progs : ℕ → ControlProg ProjectFailure ProjectOutcome}

/-- A step of any session keeps what has been reached. -/
theorem Revoking.keep {k : ℕ} (h : Revoking i projectId c g) (hguard : Unraced i projectId c k)
    (hprog : c.progs k = .call q next) (hstep : controlServer.traced.step k q c.state a s) :
    Revoking i projectId ⟨s, progs⟩ g := by
  obtain ⟨w, trace⟩ := s
  obtain ⟨hstep, htrace⟩ := hstep
  obtain rfl : trace = c.state.2 ++ [(k, ⟨q, a⟩)] := htrace
  refine ⟨fun hg => ?_, fun hg => ?_, fun hg => (h.traced hg).append _⟩
  · refine (h.revoked hg).step hstep fun status hq => ?_
    subst hq
    exact .inl (hguard.settled status next hprog (h.traced hg))
  · refine (h.uncached hg).step hstep fun key entry hq => ?_
    subst hq
    have hrevoked := h.revoked (by rw [hg]; exact nofun)
    exact fun hkey => hguard.fresh key entry next hprog hkey hrevoked

theorem Revoking.before :
    Revoking i projectId c .before :=
  ⟨fun h => absurd rfl h, (nomatch ·), fun h => absurd rfl h⟩

/-- The status has been set, if there was a row. -/
theorem Revoking.of_rows (hrevoked : 0 < rows → ProjectRevoked c.state.1.db projectId)
    (htraced : 0 < rows → RevokedBy c.state.2 i projectId) :
    Revoking i projectId c (if 0 < rows then .updated else .before) := by
  split_ifs with hpos
  · exact ⟨fun _ => hrevoked hpos, (nomatch ·), fun _ => htraced hpos⟩
  · exact .before

/-- Its own steps bring request `i` further. -/
theorem Revoking.advance (h : Revoking i projectId c g) (hguard : Unraced i projectId c i)
    (hprog : c.progs i = .call q next) (hallows : (revokeMonitor projectId).allows g q)
    (hstep : controlServer.traced.step i q c.state a s) :
    Revoking i projectId ⟨s, progs⟩ ((revokeMonitor projectId).next g q a) := by
  have hkeep : Revoking i projectId ⟨s, progs⟩ g := h.keep hguard hprog hstep
  obtain ⟨w, trace⟩ := s
  obtain ⟨hstep, htrace⟩ := hstep
  obtain rfl : trace = c.state.2 ++ [(i, ⟨q, a⟩)] := htrace
  cases g with
  | before =>
    rcases hallows with rfl | rfl | rfl
    · exact .before
    · rcases a with e | rows
      · exact .before
      · obtain ⟨hrows, usage, hdb⟩ := Control.sql_of_step hstep
        refine .of_rows (fun hpos => ?_) fun hpos => ⟨rows, hpos, .inl List.mem_concat_self⟩
        refine ProjectRevoked.of_projects ?_ (congrArg SystemDb.projects hdb)
        exact projectRevoked_of_update (fun _ _ hp => (of_decide_eq_true hp).1) (.inl rfl)
          hrows hpos
    · rcases a with e | rows
      · exact .before
      · obtain ⟨hrows, usage, hdb⟩ := Control.sql_of_step hstep
        refine .of_rows (fun hpos => ?_) fun hpos => ⟨rows, hpos, .inr List.mem_concat_self⟩
        refine ProjectRevoked.of_projects ?_ (congrArg SystemDb.projects hdb)
        exact projectRevoked_of_update (fun _ _ hp => (of_decide_eq_true hp).1) (.inr rfl)
          hrows hpos
  | updated =>
    obtain rfl : q = .evictProject projectId := hallows
    exact ⟨fun _ => hkeep.revoked (nomatch ·), fun _ => uncached_of_evict hstep,
      fun _ => hkeep.traced (nomatch ·)⟩
  | evicted => exact hallows.elim

/-! ## A lookup that starts afterwards -/

inductive GateState where
  | start
  | missed
  | refused
  | accepted
  deriving DecidableEq

/-- Where the status of a project leads. -/
def GateState.judge (status : ProjectStatus) : GateState :=
  if status.Revoked then refused else accepted

/-- A lookup asks the cache and then the database; what it finds decides. -/
def gateMonitor (projectId : String) : Monitor ControlCall.Answer GateState where
  allows
    | .start, q => ∃ key, key.projectId.value = projectId ∧ q = .cacheGet key
    | .missed, q => q = .sql (.projectForAuth projectId)
    | .refused, _ => False
    | .accepted, _ => True
  next
    | .start, .cacheGet _, some entry => .judge entry.projectStatus
    | .start, .cacheGet _, none => .missed
    | .missed, .sql (.projectForAuth _), .ok (some row) => .judge row.status
    | .missed, .sql (.projectForAuth _), _ => .refused
    | g, _, _ => g

/-- Only what has been accepted is served. -/
def GatePost {ε R : Type} (g : GateState) (x : Except ε R) : Prop := ∀ r, x = .ok r → g = .accepted

variable {R : Type}

variable {ε : Type}

/-- Once accepted, anything may follow. -/
theorem obeys_accepted (p : ControlProg ε R) :
    p.Obeys (gateMonitor projectId) GatePost .accepted := by
  induction p with
  | ok r => exact fun _ _ => rfl
  | error e => exact nofun
  | call q k ih =>
    refine ⟨trivial, fun a => ?_⟩
    have hnext : (gateMonitor projectId).next .accepted q a = .accepted := by
      cases q <;> rfl
    rw [hnext]
    exact ih a

theorem ProjectId.value_of_new {s : String} {project : ProjectId} (h : new s = .ok project) :
    project.value = s := by
  rw [new] at h
  split_ifs at h
  exact congrArg value (Except.ok.inj h).symm

theorem checkStatus_obeys (status : ProjectStatus) (p : ControlProg Status R) :
    (Prog.ofExcept (checkStatus status) >>= fun _ => p).Obeys (gateMonitor projectId) GatePost
      (.judge status) := by
  cases status with
  | suspended | deleted => exact nofun
  | active | other => exact obeys_accepted p

theorem revoked_obeys (status : ProjectStatus) {e : ε} (p : ControlProg ε R) :
    (if status.Revoked then .error e else p : ControlProg ε R).Obeys (gateMonitor projectId)
      GatePost (.judge status) := by
  rw [GateState.judge]
  split_ifs
  · exact nofun
  · exact obeys_accepted p

theorem authenticate_obeys (services : Services) (projectId apiKey : String) :
    (authenticate services projectId apiKey).Obeys (gateMonitor projectId) GatePost .start := by
  rw [authenticate]
  rcases hproject : new projectId with e | project
  · exact nofun
  refine ⟨⟨_, value_of_new hproject, rfl⟩, fun cached => ?_⟩
  rcases cached with _ | entry
  · refine ⟨rfl, fun a => ?_⟩
    rcases a with e | _ | row
    · exact nofun
    · exact nofun
    · exact checkStatus_obeys row.status _
  · exact checkStatus_obeys entry.projectStatus _

theorem resolveCustomerDbAdapter_obeys (services : Services) (projectId apiKey : String) :
    (resolveCustomerDbAdapter services projectId apiKey).Obeys (gateMonitor projectId) GatePost
      .start := by
  rw [resolveCustomerDbAdapter]
  rcases hproject : new projectId with e | project
  · exact nofun
  refine ⟨⟨_, value_of_new hproject, rfl⟩, fun cached => ?_⟩
  rcases cached with _ | entry
  · refine ⟨rfl, fun a => ?_⟩
    rcases a with e | _ | row
    · exact nofun
    · exact nofun
    · exact revoked_obeys row.status _
  · exact revoked_obeys entry.projectStatus _

/-- The requests that look at a key. -/
def LooksUp (projectId : String) (request : ProjectRequest) : Prop :=
  ∃ apiKey, request = .authenticate projectId apiKey ∨ request = .resolve projectId apiKey

theorem served_obeys {p : ControlProg ε R} (failure : ε → ProjectFailure)
    (hp : p.Obeys (gateMonitor projectId) GatePost .start) :
    (p.mapError failure >>= fun _ => .ok .served : ControlProg ProjectFailure ProjectOutcome).Obeys
      (gateMonitor projectId) GatePost .start := by
  refine obeys_bind.mpr (obeys_mapError.mpr (hp.mono fun g x hx => ?_))
  cases x with
  | ok r => exact fun _ _ => hx r rfl
  | error e => exact nofun

theorem LooksUp.obeys (h : LooksUp projectId request) (services : Services) :
    (request.program services).Obeys (gateMonitor projectId) GatePost .start := by
  obtain ⟨apiKey, rfl | rfl⟩ := h
  · exact served_obeys .grpc (authenticate_obeys services projectId apiKey)
  · exact served_obeys .hosted (resolveCustomerDbAdapter_obeys services projectId apiKey)

theorem judge_of_revoked {status : ProjectStatus} (h : status.Revoked) :
    GateState.judge status ≠ .accepted := by
  rw [GateState.judge, if_pos h]
  exact nofun

/-- While the project is revoked and not cached, a lookup is not accepted. -/
theorem not_accepted {j : ℕ} {g : GateState} (hrevoked : ProjectRevoked w.db projectId)
    (huncached : Uncached w.cache projectId) (hg : g ≠ .accepted)
    (hallows : (gateMonitor projectId).allows g q) (hstep : controlServer.step j q w a w') :
    (gateMonitor projectId).next g q a ≠ .accepted := by
  cases g with
  | start =>
    obtain ⟨key, hkey, rfl⟩ := hallows
    rcases a with _ | entry
    · exact nofun
    · have hentry := (Control.cacheGet_of_step hstep).symm
      exact judge_of_revoked (huncached key entry hkey hentry)
  | missed =>
    obtain rfl : q = .sql (.projectForAuth projectId) := hallows
    rcases a with e | _ | row
    · exact nofun
    · exact nofun
    · obtain ⟨hrow, -⟩ := Control.sql_of_step hstep
      obtain ⟨row', hrow', hstatus⟩ := hrevoked
      have hfound : some row'.toProjectAuthRow = some row := by
        have hexec := Except.ok.inj hrow
        rwa [hrow'] at hexec
      cases hfound
      exact judge_of_revoked hstatus
  | refused => exact hallows.elim
  | accepted => exact absurd rfl hg

/-- When a suspension or deletion of a project has returned, every lookup of it that starts
afterwards is refused, whatever the key, in every run in which no lookup of the project is stored
while it is revoked and nobody activates it after that request has set the status. -/
theorem revocation_holds (services : Services) {requests : ℕ → ProjectRequest} {w : Control}
    {projectId : String} {i j : ℕ} (hi : Revokes projectId (requests i))
    (hj : LooksUp projectId (requests j)) {c c' : ProjectConfig}
    (hbefore : Reach controlServer.traced (Unraced i projectId)
      (projectStart services w requests) c)
    (hreturned : c.progs i = .ok (.answered 200))
    (hstarts : c.progs j = (requests j).program services)
    (hafter : Reach controlServer.traced (Unraced i projectId) c c') (r : ProjectOutcome) :
    c'.progs j ≠ .ok r := by
  obtain ⟨g, hrevoking, hpost⟩ := Reach.invariant_of i (revokeMonitor projectId) RevokePost
    (Revoking i projectId) (hi.obeys services) Revoking.before
    (fun c g q k a s hguard hprog hallows hinv hstep => hinv.advance hguard hprog hallows hstep)
    (fun c g k q next a s _ hguard hprog hinv hstep => hinv.keep hguard hprog hstep) hbefore
  rw [hreturned] at hpost
  obtain rfl : g = .evicted := hpost rfl
  have hstart : (c.progs j).Obeys (gateMonitor projectId) GatePost .start :=
    hstarts ▸ hj.obeys services
  obtain ⟨g, ⟨-, hg⟩, hpost⟩ := Reach.invariant_of j (gateMonitor projectId) GatePost
    (fun c g => Revoking i projectId c .evicted ∧ g ≠ .accepted)
    hstart ⟨hrevoking, (nomatch ·)⟩
    (fun c g q k a s hguard hprog hallows hinv hstep =>
      ⟨hinv.1.keep hguard hprog hstep,
        not_accepted (hinv.1.revoked (nomatch ·)) (hinv.1.uncached rfl) hinv.2 hallows hstep.1⟩)
    (fun c g k q next a s _ hguard hprog hinv hstep =>
      ⟨hinv.1.keep hguard hprog hstep, hinv.2⟩) hafter
  intro hserved
  rw [hserved] at hpost
  exact hg (hpost r rfl)

/-! ## A slow lookup -/

/-- Services under which a key is its own hash. -/
def plainServices : Services where
  deriveCacheKey key := key.toList.map fun c => c.toNat.toUInt8
  verifyApiKey key hash := .ok (key == hash)
  hashApiKey key := .ok key
  decrypt _ bytes := .ok bytes
  fromUtf8 bytes := some (String.ofList (bytes.map fun b => Char.ofNat b.toNat))
  parseBundle _ := .error "expected value at line 1 column 1"
  decryptSigningKey bytes := .ok bytes
  mintClientIdentityToken _ user project _ := user ++ "@" ++ project
  awsSecretFetcher := false
  gcpSecretFetcher := false

def plainOutside : Outside where
  blocking := .ok ()
  secret _ _ := .error "no such secret"
  connect _ := .ok ()
  uuid n := uuidOf n.toUInt8
  suffix n := toString n
  subscription _ _ := .ok "sub"
  now := 0

/-- An active project whose key is `key`. -/
def shopRow : ProjectRow where
  status := .active
  backendMode := .directPg
  apiKeyHashCurrent := "key"
  eciesEncryptedDsn := some []
  accountId := some (uuidOf 7)

/-- A server that has just started, with one project. -/
def shopServer : Control where
  db := {
    projects := AList.singleton "shop" shopRow
    sdkKeys := ∅
    anonymousSigningKeys := fun _ => none
    stripeCustomers := fun _ => none
    subscriptions := ∅
    processedEvents := []
    usage := fun _ => ⟨0, 0, 0⟩ }
  cache _ := none
  drawn := 0

/-- Two lookups and a suspension. -/
def shopRequests : ℕ → ProjectRequest
  | 0 => .authenticate "shop" "key"
  | 1 => .suspend "shop"
  | _ => .authenticate "shop" "key"

def shopStart : ProjectConfig := projectStart plainServices shopServer shopRequests

/-- The session has ended with an adapter. -/
def isServed (c : ProjectConfig) (i : ℕ) : Bool :=
  match c.progs i with
  | .ok .served => true
  | _ => false

/-- The session has ended with the status 200. -/
def isDone (c : ProjectConfig) (i : ℕ) : Bool :=
  match c.progs i with
  | .ok (.answered 200) => true
  | _ => false

theorem progs_of_isServed (h : isServed c i = true) :
    c.progs i = .ok .served := by
  rw [isServed] at h
  split at h
  · assumption
  · cases h

theorem progs_of_isDone (h : isDone c i = true) :
    c.progs i = .ok (.answered 200) := by
  rw [isDone] at h
  split at h
  · assumption
  · cases h

/-- A step that stores no lookup of the project and sets no other status than suspended. -/
def unraced (projectId : String) (c : ProjectConfig) (k : ℕ) : Bool :=
  match c.progs k with
  | .call (.cacheInsert key _) _ => key.projectId.value ≠ projectId
  | .call (.sql (.setStatus id status)) _ => id ≠ projectId ∨ status = .suspended
  | _ => true

theorem Unraced.of_check {k : ℕ}
    (h : unraced projectId c k = true) : Unraced i projectId c k where
  fresh key entry next hprog hkey := by
    rw [unraced, hprog] at h
    exact absurd hkey (of_decide_eq_true h)
  settled status next hprog _ := by
    rw [unraced, hprog] at h
    exact (of_decide_eq_true h).resolve_left fun hne => hne rfl

/-- A lookup after the suspension is refused. -/
theorem revocation_holds_shop : ∃ c c',
    Reach controlServer.traced (Unraced 1 "shop") shopStart c ∧ c.progs 1 = .ok (.answered 200) ∧
    Reach controlServer.traced (Unraced 1 "shop") c c' ∧ Trace.of c'.state.2 2 ≠ [] ∧
    ∀ r, c'.progs 2 ≠ .ok r := by
  have hfollow : (shopStart.follow (unraced "shop") (controlServe plainOutside)
      [1, 1]).any (fun c => isDone c 1 &&
        (c.follow (unraced "shop") (controlServe plainOutside) [2, 2]).any fun c' =>
          !(Trace.of c'.state.2 2).isEmpty) = true := by
    decide
  obtain ⟨c, hc, hcheck⟩ := (Option.any_eq_true ..).mp hfollow
  obtain ⟨hdone, hlater⟩ := (Bool.and_eq_true ..).mp hcheck
  obtain ⟨c', hc', hasked⟩ := (Option.any_eq_true ..).mp hlater
  have hbefore : Reach controlServer.traced (Unraced 1 "shop") shopStart c :=
    reach_of_controlServe Unraced.of_check hc
  have hafter : Reach controlServer.traced (Unraced 1 "shop") c c' :=
    reach_of_controlServe Unraced.of_check hc'
  refine ⟨c, c', hbefore, progs_of_isDone hdone, hafter, by simpa using hasked, ?_⟩
  exact revocation_holds plainServices (.inl rfl) ⟨"key", .inl rfl⟩ hbefore
    (progs_of_isDone hdone) (Config.progs_of_follow hc (by decide)) hafter

/-- The schedule in which the first lookup reads the row, and stores its entry after the
suspension. -/
theorem late_entry_served : ∃ c c', Reach controlServer.traced (fun _ _ => True) shopStart c ∧
    c.progs 1 = .ok (.answered 200) ∧ c.progs 2 = (shopRequests 2).program plainServices ∧
    Reach controlServer.traced (fun _ _ => True) c c' ∧ c'.progs 2 = .ok .served := by
  have hfollow : (shopStart.follow (fun _ _ => true) (controlServe plainOutside)
      [0, 0, 0, 0, 1, 1]).any (fun c => isDone c 1 &&
        (c.follow (fun _ _ => true) (controlServe plainOutside) [0, 2]).any (isServed · 2)) =
      true := by
    decide
  obtain ⟨c, hc, hcheck⟩ := (Option.any_eq_true ..).mp hfollow
  obtain ⟨hdone, hlater⟩ := (Bool.and_eq_true ..).mp hcheck
  obtain ⟨c', hc', hserved⟩ := (Option.any_eq_true ..).mp hlater
  exact ⟨c, c', reach_of_controlServe (fun _ => trivial) hc, progs_of_isDone hdone,
    Config.progs_of_follow hc (by decide), reach_of_controlServe (fun _ => trivial) hc',
    progs_of_isServed hserved⟩

end Embyr
