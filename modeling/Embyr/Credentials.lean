import Embyr.ControlPlane

/-!
# Credentials and project lifecycle

The three gates that look at an API key, and the operations that suspend, activate and delete
projects.

* `authenticate` — the gRPC handlers (`grpc/handler.rs`).
* `resolveCustomerDbAdapter` — the REST handlers of hosted identity (`adapters/project_auth.rs`).
* `signInAnonymously` — anonymous sign-in (`rest/sign_in_anonymously.rs`).
* `setProjectStatus`, `deleteProject` and the versions for all projects of an account
  (`admin/handlers/lifecycle.rs`).

Hashing, decryption and signing are the functions of a `Services`.
-/

namespace Embyr

open Program

/-! ## Services -/

/-- A TLS bundle as far as it is looked at. -/
structure TlsBundle where
  caPem : Option String
  clientCertPem : Option String
  clientKeyPem : Option String

/-- What the gates compute with keys, and the configuration they read. -/
structure Services where
  /-- `blake3::derive_cache_key` -/
  deriveCacheKey : String → List UInt8
  /-- `argon2::verify_api_key` -/
  verifyApiKey : String → String → Except String Bool
  /-- `argon2::hash_api_key` -/
  hashApiKey : String → Except String String
  /-- `ecies::decrypt` with the API key -/
  decrypt : String → List UInt8 → Except String (List UInt8)
  fromUtf8 : List UInt8 → Option String
  /-- `serde_json::from_str` of a TLS bundle -/
  parseBundle : String → Except String TlsBundle
  /-- `decrypt_with_rotation` with the keys of the server -/
  decryptSigningKey : List UInt8 → Except String (List UInt8)
  mintClientIdentityToken : List UInt8 → String → String → ℤ → String
  awsSecretFetcher : Bool
  gcpSecretFetcher : Bool

/-- The key verifies against the hash; an error counts as no. -/
def Services.verifies (services : Services) (apiKey hash : String) : Bool :=
  match services.verifyApiKey apiKey hash with
  | .ok verified => verified
  | .error _ => false

/-- The key verifies against the current hash or the previous one. -/
def Services.verified (services : Services) (apiKey : String) (row : ProjectAuthRow) : Bool :=
  services.verifies apiKey row.apiKeyHashCurrent ||
    row.apiKeyHashPrevious.any fun hash => services.verifies apiKey hash

/-! ## The gRPC gate -/

section Grpc

variable (services : Services)

def Status.internal (message : String) : Status := ⟨.internal, message⟩

/-- A value that the row must have. -/
def require {ε α : Type} (failure : ε) : Option α → ControlProg ε α
  | some a => .ok a
  | none => .error failure

/-- An await that may fail. -/
def awaitOr {ε α : Type} (q : ControlCall) (failure : String → ε)
    (answer : q.Answer → Except String α) : ControlProg ε α :=
  .call q fun a => .ofExcept ((answer a).mapError failure)

/-- A connection to a database. -/
def connectTo {ε : Type} (failure : String → ε) (backend : Backend) : ControlProg ε Unit :=
  awaitOr (.connect backend) failure id

/-- The DSN behind a secret. -/
def secretDsn {ε : Type} (failure : String → ε) (source : SecretSource) (name : String) :
    ControlProg ε String :=
  awaitOr (.fetchSecret source name) failure id

/-- The DSN of an AWS or GCP project; `internal` makes the error. -/
def awsDsn {ε : Type} (internal : String → ε) (row : ProjectAuthRow) : ControlProg ε String := do
  let arn ← require (internal "aws_secret project missing backend_secret_arn") row.backendSecretArn
  if services.awsSecretFetcher then
    secretDsn (fun e => internal ("aws secret fetch failed: " ++ e)) .aws arn
  else .error (internal "aws_secret_fetcher not configured on this server")

@[inherit_doc awsDsn]
def gcpDsn {ε : Type} (internal : String → ε) (row : ProjectAuthRow) : ControlProg ε String := do
  let name ← require (internal "gcp_secret project missing backend_secret_gcp") row.backendSecretGcp
  if services.gcpSecretFetcher then
    secretDsn (fun e => internal ("gcp secret fetch failed: " ++ e)) .gcp name
  else .error (internal "gcp_secret_fetcher not configured on this server")

/-- The DSN stored with the project, encrypted under its API key. -/
def storedDsn {ε : Type} (internal : String → ε) (apiKey : String) (row : ProjectAuthRow) :
    ControlProg ε String := do
  let encrypted ← require (internal "project has no stored DSN") row.eciesEncryptedDsn
  let bytes ← .ofExcept ((services.decrypt apiKey encrypted).mapError internal)
  require (internal "DSN is not valid UTF-8") (services.fromUtf8 bytes)

/-- The agent of a project, with the certificates to reach it. -/
def agentBackend (apiKey : String) (row : ProjectAuthRow) : ControlProg Status Backend := do
  let endpoint ← require (.internal "agent project missing backend_agent_endpoint")
    row.backendAgentEndpoint
  let encrypted ← require (.internal "agent project missing agent_tls_bundle_enc")
    row.agentTlsBundleEnc
  let bytes ← .ofExcept ((services.decrypt apiKey encrypted).mapError .internal)
  let text ← require (.internal "TLS bundle is not valid UTF-8") (services.fromUtf8 bytes)
  let bundle ← .ofExcept ((services.parseBundle text).mapError fun e =>
    .internal ("TLS bundle JSON parse error: " ++ e))
  let caPem ← require (.internal "TLS bundle missing ca_pem") bundle.caPem
  let clientCertPem ← require (.internal "TLS bundle missing client_cert_pem")
    bundle.clientCertPem
  let clientKeyPem ← require (.internal "TLS bundle missing client_key_pem") bundle.clientKeyPem
  return .agent endpoint caPem clientCertPem clientKeyPem

/-- A database with its DSN. -/
def postgresAdapter (dsn : String) : ControlProg Status (Backend × String) := do
  connectTo (fun _ => Status.backend) (.postgres dsn)
  return (.postgres dsn, dsn)

/-- The adapter for a row whose key has been verified. -/
def buildAdapter (apiKey : String) (row : ProjectAuthRow) :
    ControlProg Status (Backend × String) :=
  match row.backendMode with
  | .awsSecret => awsDsn services .internal row >>= postgresAdapter
  | .gcpSecret => gcpDsn services .internal row >>= postgresAdapter
  | .agent => do
    let backend ← agentBackend services apiKey row
    connectTo (fun _ => Status.backend) backend
    return (backend, "")
  | .directPg | .other _ => storedDsn services .internal apiKey row >>= postgresAdapter

/-- The status of a project that may be served. -/
def checkStatus : ProjectStatus → Except Status Unit
  | .suspended => .error ⟨.permissionDenied, "project is suspended"⟩
  | .deleted => .error ⟨.notFound, "project not found"⟩
  | .active | .other _ => .ok ()

/-- `authenticate`. -/
def authenticate (projectId apiKey : String) :
    ControlProg Status (Backend × ProjectStatus × String) :=
  match ProjectId.new projectId with
  | .error e => .error ⟨.invalidArgument, e.message⟩
  | .ok project => do
    let cacheKey : CredentialCacheKey := ⟨project, services.deriveCacheKey apiKey⟩
    match ← Prog.ask (ControlCall.cacheGet cacheKey) with
    | some entry =>
      .ofExcept (checkStatus entry.projectStatus)
      return (entry.adapter, entry.projectStatus, entry.dsn)
    | none =>
      let found ← systemSql (fun _ => Status.backend) (.projectForAuth projectId)
      let row ← require ⟨.unauthenticated, "project not found"⟩ found
      .ofExcept (checkStatus row.status)
      awaitOr .blocking .internal id
      if services.verified apiKey row then
        let (adapter, dsn) ← buildAdapter services apiKey row
        Prog.ask (ControlCall.cacheInsert cacheKey ⟨adapter, row.status, dsn⟩)
        return (adapter, row.status, dsn)
      else .error ⟨.unauthenticated, "invalid api key"⟩

end Grpc

/-! ## The gate of hosted identity -/

inductive ProjectAuthError where
  | projectNotFound
  | invalidApiKey
  | hostedIdentityUnavailable
  | internal (detail : String)

/-- The DSN of a row whose key has been verified. -/
def hostedDsn (services : Services) (apiKey : String) (row : ProjectAuthRow) :
    ControlProg ProjectAuthError String :=
  match row.backendMode with
  | .awsSecret => awsDsn services .internal row
  | .gcpSecret => gcpDsn services .internal row
  | .directPg => storedDsn services .internal apiKey row
  | .agent | .other _ => .error .hostedIdentityUnavailable

/-- `resolve_customer_db_adapter`; the result is the DSN of the adapter. -/
def resolveCustomerDbAdapter (services : Services) (projectId apiKey : String) :
    ControlProg ProjectAuthError String :=
  match ProjectId.new projectId with
  | .error _ => .error .projectNotFound
  | .ok project => do
    let cacheKey : CredentialCacheKey := ⟨project, services.deriveCacheKey apiKey⟩
    match ← Prog.ask (ControlCall.cacheGet cacheKey) with
    | some entry =>
      if entry.projectStatus.Revoked then .error .projectNotFound
      else do
        connectTo .internal (.postgres entry.dsn)
        return entry.dsn
    | none =>
      let found ← systemSql .internal (.projectForAuth projectId)
      let row ← require .projectNotFound found
      if row.status.Revoked then .error .projectNotFound
      else if services.verified apiKey row then
        let dsn ← hostedDsn services apiKey row
        connectTo .internal (.postgres dsn)
        Prog.ask (ControlCall.cacheInsert cacheKey ⟨.postgres dsn, row.status, dsn⟩)
        return dsn
      else .error .invalidApiKey

/-! ## Anonymous sign-in -/

/-- `AnonymousSignInSuccessResponse`. -/
structure AnonymousSignIn where
  localId : String
  idToken : String
  expiresIn : String

def tokenTtlSecs : ℤ := 3600

/-- `sign_in_anonymously`. -/
def signInAnonymously (services : Services) (showUuid : Uuid → String) (projectId : String)
    (key : Option String) : ControlProg HttpError AnonymousSignIn :=
  match key.filter fun k => !k.isEmpty with
  | none => .error ⟨401, some "INVALID_API_KEY"⟩
  | some apiKey => do
    let found ← systemSql (fun _ => ⟨500, none⟩) (.projectForAuth projectId)
    let row ← require ⟨401, some "INVALID_API_KEY"⟩ found
    match services.verifyApiKey apiKey row.apiKeyHashCurrent with
    | .error _ => .error ⟨500, none⟩
    | .ok false => .error ⟨401, some "INVALID_API_KEY"⟩
    | .ok true =>
      let stored ← systemSql (fun _ => ⟨500, none⟩) (.anonymousSigningKey projectId)
      let encrypted ← require ⟨400, some "ANONYMOUS_AUTH_NOT_ENABLED"⟩ stored
      let user ← Prog.ask ControlCall.freshUuid
      let seed ← .ofExcept ((services.decryptSigningKey encrypted).mapError fun _ => ⟨500, none⟩)
      if seed.length = 32 then
        let now ← Prog.ask ControlCall.now
        let token := services.mintClientIdentityToken seed (showUuid user) projectId
          (now + tokenTtlSecs)
        return ⟨showUuid user, token, toString tokenTtlSecs⟩
      else .error ⟨500, none⟩

/-! ## Lifecycle -/

/-- `set_project_status`. -/
def setProjectStatus {ε : Type} (newStatus : ProjectStatus) (projectId : String) :
    ControlProg ε ℕ :=
  .call (.sql (.setStatus projectId newStatus)) fun
    | .ok rows =>
      if 0 < rows then .call (.evictProject projectId) fun _ => .ok 200
      else .ok 404
    | .error _ => .ok 500

def suspendProject {ε : Type} (projectId : String) : ControlProg ε ℕ :=
  setProjectStatus .suspended projectId

def activateProject {ε : Type} (projectId : String) : ControlProg ε ℕ :=
  setProjectStatus .active projectId

/-- The transition for each project of a list, whatever comes of it; how many succeeded. -/
def setEachStatus {ε : Type} (newStatus : ProjectStatus) : List String → ControlProg ε ℕ
  | [] => .ok 0
  | projectId :: rest => do
    let status ← setProjectStatus newStatus projectId
    let count ← setEachStatus newStatus rest
    return if status = 200 then count + 1 else count

/-- The projects of an account that have one status are given another. -/
def moveAccountProjects (old new : ProjectStatus) (accountId : Uuid) : ControlProg ℕ ℕ := do
  let projectIds ← systemSql (fun _ => 500) (.projectsOf accountId old)
  setEachStatus new projectIds

def activateAccountProjects (accountId : Uuid) : ControlProg ℕ ℕ :=
  moveAccountProjects .suspended .active accountId

def suspendAccountProjects (accountId : Uuid) : ControlProg ℕ ℕ :=
  moveAccountProjects .active .suspended accountId

/-- `delete_project`. -/
def deleteProject {ε : Type} (projectId : String) : ControlProg ε ℕ :=
  .call (.sql (.revokeSdkKeys projectId)) fun _ =>
    .call (.sql (.markDeleted projectId)) fun
      | .ok rows =>
        if 0 < rows then .call (.evictProject projectId) fun _ => .ok 200
        else .ok 404
      | .error _ => .ok 500

end Embyr
