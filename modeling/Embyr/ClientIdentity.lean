import Embyr.FieldValue

/-!
# Client-identity tokens

`verify_client_identity_token` (`client_identity/mod.rs`) tries the current key of a project
and, where the signature fails, the previous one. Whatever goes wrong under the previous key
is `Malformed`, so while keys are rotated an expired token, or one for another project, is
told apart from a forged one only if it was signed with the current key.

The JWT library is `JwtLibrary.decode`: the algorithm, then the signature, then the claims,
their expiry and their audience. What it can read in a text, and which signatures a key
verifies, are its parameters.
-/

namespace Embyr

/-- The claims of a token (`ClientIdentityClaims`); `extra` has gone through
`from_json_value`. -/
structure ClientIdentityClaims where
  sub : String
  aud : String
  exp : ℤ
  extra : Fields

structure VerifiedEndUserIdentity where
  endUserId : String
  projectId : String
  expiresAtUnix : ℤ
  claims : Fields

def ClientIdentityClaims.toIdentity (claims : ClientIdentityClaims) : VerifiedEndUserIdentity :=
  ⟨claims.sub, claims.aud, claims.exp, claims.extra⟩

inductive ClientIdentityVerifyError where
  | missingToken
  | malformed
  | expired
  | projectMismatch
  deriving DecidableEq

/-! ## The library -/

/-- The kinds of error of the library (`ErrorKind`) that a token can meet. -/
inductive JwtErrorKind where
  | invalidToken
  | invalidAlgorithm
  | invalidSignature
  | json
  | expiredSignature
  | invalidAudience
  deriving DecidableEq

/-- A text that has the three parts of a token. -/
structure Jwt (Key : Type) where
  /-- the header names EdDSA -/
  edDsa : Bool
  verifies : Key → Bool
  /-- the payload, if it has the shape of claims -/
  claims : Option ClientIdentityClaims

/-- The library, at a time and for an audience. -/
structure JwtLibrary (Key : Type) where
  read : String → Option (Jwt Key)
  now : ℤ
  audience : String

variable {Key : Type}

/-- The validation of claims that are genuine. -/
def JwtLibrary.validate (library : JwtLibrary Key) :
    Option ClientIdentityClaims → Except JwtErrorKind ClientIdentityClaims
  | none => .error .json
  | some claims =>
    if claims.exp < library.now then .error .expiredSignature
    else if claims.aud ≠ library.audience then .error .invalidAudience
    else .ok claims

/-- `jsonwebtoken::decode`. -/
def JwtLibrary.decode (library : JwtLibrary Key) (token : String) (key : Key) :
    Except JwtErrorKind ClientIdentityClaims :=
  match library.read token with
  | none => .error .invalidToken
  | some jwt =>
    if !jwt.edDsa then .error .invalidAlgorithm
    else if !jwt.verifies key then .error .invalidSignature
    else library.validate jwt.claims

/-! ## Verification -/

structure ClientIdentityCredential (Key : Type) where
  publicKeyCurrent : Key
  publicKeyPrevious : Option Key

/-- `map_jwt_error_kind`. -/
def mapJwtErrorKind : JwtErrorKind → ClientIdentityVerifyError
  | .expiredSignature => .expired
  | .invalidAudience => .projectMismatch
  | _ => .malformed

/-- `verify_client_identity_token`. -/
def verifyClientIdentityToken (library : JwtLibrary Key)
    (credential : ClientIdentityCredential Key) :
    Option String → Except ClientIdentityVerifyError VerifiedEndUserIdentity
  | none => .error .missingToken
  | some token =>
    match library.decode token credential.publicKeyCurrent with
    | .ok claims => .ok claims.toIdentity
    | .error .invalidSignature =>
      match credential.publicKeyPrevious.map (library.decode token) with
      | some (.ok claims) => .ok claims.toIdentity
      | _ => .error .malformed
    | .error kind => .error (mapJwtErrorKind kind)

/-! ## Rotation -/

variable {library : JwtLibrary Key} {credential : ClientIdentityCredential Key}
  {key previous : Key} {claims : Option ClientIdentityClaims}

/-- The text is a token with these claims, correctly signed by the key. -/
def JwtLibrary.Signed (library : JwtLibrary Key) (key : Key)
    (claims : Option ClientIdentityClaims) (token : String) : Prop :=
  ∃ jwt, library.read token = some jwt ∧ jwt.edDsa = true ∧ jwt.verifies key = true ∧
    jwt.claims = claims

theorem decode_of_signed {token : String} (h : library.Signed key claims token) :
    library.decode token key = library.validate claims := by
  obtain ⟨jwt, hread, halg, hverifies, rfl⟩ := h
  simp [JwtLibrary.decode, hread, halg, hverifies]

/-- Under a key that did not sign a token, no claim is looked at. -/
theorem decode_of_not_signed {token : String} (h : ∀ claims, ¬ library.Signed key claims token) :
    ∃ kind, library.decode token key = .error kind ∧ mapJwtErrorKind kind = .malformed := by
  rcases hread : library.read token with _ | jwt
  · exact ⟨.invalidToken, by simp [JwtLibrary.decode, hread], rfl⟩
  · rcases halg : jwt.edDsa with _ | _
    · exact ⟨.invalidAlgorithm, by simp [JwtLibrary.decode, hread, halg], rfl⟩
    · rcases hverifies : jwt.verifies key with _ | _
      · exact ⟨.invalidSignature, by simp [JwtLibrary.decode, hread, halg, hverifies], rfl⟩
      · exact absurd ⟨jwt, hread, halg, hverifies, rfl⟩ (h jwt.claims)

theorem verify_of_current {token : String}
    (h : library.Signed credential.publicKeyCurrent claims token) :
    verifyClientIdentityToken library credential (some token) =
      ((library.validate claims).map ClientIdentityClaims.toIdentity).mapError
        mapJwtErrorKind := by
  rw [verifyClientIdentityToken, decode_of_signed h]
  rcases claims with _ | claims
  · rfl
  · -- the validation never reports a signature, so the previous key is not tried
    simp only [JwtLibrary.validate]
    split_ifs <;> rfl

theorem verify_of_previous {token : String} (hkey : credential.publicKeyPrevious = some previous)
    (h : library.Signed previous claims token)
    (hcurrent : ¬ library.Signed credential.publicKeyCurrent claims token) :
    verifyClientIdentityToken library credential (some token) =
      ((library.validate claims).map ClientIdentityClaims.toIdentity).mapError
        fun _ => .malformed := by
  have hprevious := decode_of_signed h
  obtain ⟨jwt, hread, halg, -, hclaims⟩ := h
  have hverifies : jwt.verifies credential.publicKeyCurrent = false := by
    by_contra hverifies
    exact hcurrent ⟨jwt, hread, halg, by simpa using hverifies, hclaims⟩
  have hfirst : library.decode token credential.publicKeyCurrent = .error .invalidSignature := by
    simp [JwtLibrary.decode, hread, halg, hverifies]
  simp only [verifyClientIdentityToken, hfirst, hkey, Option.map_some, hprevious]
  rcases library.validate claims with _ | _ <;> rfl

/-- A token signed by the previous key gets the verdict the current key would have got it
exactly if its claims are neither expired nor for another project, or if the current key
verifies it as well; a token that neither key signed is malformed. -/
theorem rotation_keeps_verdict_iff {token renewed : String}
    (hkey : credential.publicKeyPrevious = some previous)
    (hprevious : library.Signed previous claims token)
    (hcurrent : library.Signed credential.publicKeyCurrent claims renewed) :
    (verifyClientIdentityToken library credential (some token) =
        verifyClientIdentityToken library credential (some renewed) ↔
      library.Signed credential.publicKeyCurrent claims token ∨
        ∀ genuine, claims = some genuine →
          library.now ≤ genuine.exp ∧ genuine.aud = library.audience) ∧
    ∀ forged, (∀ claims, ¬ library.Signed credential.publicKeyCurrent claims forged) →
      (∀ claims, ¬ library.Signed previous claims forged) →
      verifyClientIdentityToken library credential (some forged) = .error .malformed := by
  constructor
  · rw [verify_of_current hcurrent]
    by_cases hboth : library.Signed credential.publicKeyCurrent claims token
    · simp [verify_of_current hboth, hboth]
    · rw [verify_of_previous hkey hprevious hboth]
      rcases claims with _ | claims
      · simp [JwtLibrary.validate, Except.map, Except.mapError, mapJwtErrorKind]
      · by_cases hexp : claims.exp < library.now <;>
          by_cases haud : claims.aud = library.audience <;>
          simp [JwtLibrary.validate, Except.map, Except.mapError, mapJwtErrorKind, hboth, hexp,
            haud, not_lt.mp]
  · intro forged hnew hold
    obtain ⟨kind, hdecode, hkind⟩ := decode_of_not_signed hnew
    obtain ⟨_, hretry, -⟩ := decode_of_not_signed hold
    cases kind <;> simp_all [verifyClientIdentityToken, mapJwtErrorKind]

/-- At time 100; a text is signed by the key it is equal to, and its claims have expired. -/
def rotatingLibrary : JwtLibrary String where
  read text := some ⟨true, fun key => key = text, some ⟨"ann", "demo", 50, ∅⟩⟩
  now := 100
  audience := "demo"

theorem rotation_keeps_verdict_forged :
    verifyClientIdentityToken rotatingLibrary ⟨"new", some "old"⟩ (some "forged") =
      .error .malformed := by
  have hsigned : ∀ key, rotatingLibrary.Signed key (some ⟨"ann", "demo", 50, ∅⟩) key :=
    fun key => by simp [JwtLibrary.Signed, rotatingLibrary]
  refine (rotation_keeps_verdict_iff rfl (hsigned _) (hsigned _)).2 "forged" ?_ ?_ <;>
    simp [JwtLibrary.Signed, rotatingLibrary]

/-- The same expired claims, signed by the old key and by the new one. -/
theorem expired_token_malformed :
    rotatingLibrary.Signed "old" (some ⟨"ann", "demo", 50, ∅⟩) "old" ∧
      rotatingLibrary.Signed "new" (some ⟨"ann", "demo", 50, ∅⟩) "new" ∧
      verifyClientIdentityToken rotatingLibrary ⟨"new", some "old"⟩ (some "old") =
        .error .malformed ∧
      verifyClientIdentityToken rotatingLibrary ⟨"new", some "old"⟩ (some "new") =
        .error .expired :=
  ⟨⟨_, rfl, rfl, rfl, rfl⟩, ⟨_, rfl, rfl, rfl, rfl⟩, rfl, rfl⟩

end Embyr
