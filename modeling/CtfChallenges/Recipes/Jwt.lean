import CtfChallenges.Framework.Ascii
import Mathlib.Data.List.Basic

/-!
# The token library of the recipe server

`ParseWithClaims` and what it uses of the packages `jwt`. Strings off the wire are bytes. The
JSON decoder, the hash functions linked in and the HMAC primitive are given by an `Env`, a public
key by what it verifies, and the errors of other packages by their kind.
-/

namespace CtfChallenges.Recipes
open Framework (ascii)

abbrev Bytes := List UInt8

inductive Hash
  | SHA256
  | SHA384
  | SHA512
deriving DecidableEq, Repr

def Hash.Size : Hash → Nat
  | .SHA256 => 32
  | .SHA384 => 48
  | .SHA512 => 64

/-- A decoded JSON value, as far as the library tells them apart. -/
inductive Value
  | string (s : String)
  | other

abbrev Header := String → Option Value

/-- The times are zero when the claims do not give them. -/
structure StandardClaims where
  Audience : String
  ExpiresAt : Int
  Id : String
  IssuedAt : Int
  Issuer : String
  NotBefore : Int
  Subject : String

structure Env where
  unmarshalHeader : Bytes → Option Header
  decodeClaims : Bytes → Option StandardClaims
  available : Hash → Bool
  hmac : Hash → Bytes → Bytes → Bytes
  length_hmac : ∀ h key msg, (hmac h key msg).length = h.Size

inductive Key
  | bytes (key : Bytes)
  | rsaPublicKey (verifyPKCS1v15 verifyPSS : Hash → Bytes → Bytes → Bool)
  | ecdsaPublicKey (verify : Hash → Bytes → Bytes → Bool)

inductive Cause
  | base64
  | json
  | invalidKey
  | invalidKeyType
  | hashUnavailable
  | signatureInvalid
  | rsaVerification
  | ecdsaVerification
  | noneWithSignature
  | expired
  | usedBeforeIssued
  | notValidYet
deriving DecidableEq, Repr

structure ValidationError where
  Inner : Option Cause
  Errors : UInt32
  text : String
deriving DecidableEq, Repr

def ValidationErrorMalformed : UInt32 := 1
def ValidationErrorUnverifiable : UInt32 := 2
def ValidationErrorSignatureInvalid : UInt32 := 4
def ValidationErrorExpired : UInt32 := 16
def ValidationErrorIssuedAt : UInt32 := 32
def ValidationErrorNotValidYet : UInt32 := 128

def NewValidationError (errorText : String) (errorFlags : UInt32) : ValidationError :=
  ⟨none, errorFlags, errorText⟩

def ValidationError.valid (e : ValidationError) : Bool := e.Errors == 0

def base64Value (c : UInt8) : Option Nat :=
  if 0x41 ≤ c ∧ c ≤ 0x5a then some (c.toNat - 0x41)
  else if 0x61 ≤ c ∧ c ≤ 0x7a then some (c.toNat - 0x61 + 26)
  else if 0x30 ≤ c ∧ c ≤ 0x39 then some (c.toNat - 0x30 + 52)
  else if c = 0x2d then some 62
  else if c = 0x5f then some 63
  else none

/-- Four characters at a time; only the last four may end in padding. -/
def decodeQuanta : Bytes → Option Bytes
  | [] => some []
  | a :: b :: c :: d :: rest => do
    let a ← base64Value a
    let b ← base64Value b
    let high := UInt8.ofNat (a * 4 + b / 16)
    if c = 0x3d ∧ d = 0x3d ∧ rest = [] then return [high]
    let c ← base64Value c
    let mid := UInt8.ofNat (b % 16 * 16 + c / 4)
    if d = 0x3d ∧ rest = [] then return [high, mid]
    let d ← base64Value d
    let more ← decodeQuanta rest
    return high :: mid :: UInt8.ofNat (c % 4 * 64 + d) :: more
  | _ => none

/-- `base64.URLEncoding.DecodeString`, which skips line ends. -/
def decodeString (s : Bytes) : Option Bytes :=
  decodeQuanta (s.filter fun c => c ≠ 0x0d ∧ c ≠ 0x0a)

def DecodeSegment (seg : Bytes) : Option Bytes :=
  let l := seg.length % 4
  decodeString (if 0 < l then seg ++ List.replicate (4 - l) 0x3d else seg)

def verifyExp (exp now : Int) (required : Bool) : Bool :=
  if exp = 0 then !required else now ≤ exp

def verifyIat (iat now : Int) (required : Bool) : Bool :=
  if iat = 0 then !required else now ≥ iat

def verifyNbf (nbf now : Int) (required : Bool) : Bool :=
  if nbf = 0 then !required else now ≥ nbf

def verifyIss (iss cmp : String) (required : Bool) : Bool :=
  if iss = "" then !required else iss = cmp

/-- The error of claims that are not valid at the time. -/
def StandardClaims.Valid (c : StandardClaims) (now : Int) : Option ValidationError :=
  let vErr : ValidationError := ⟨none, 0, ""⟩
  let vErr := if verifyExp c.ExpiresAt now false = false then
    { vErr with Inner := some .expired, Errors := vErr.Errors ||| ValidationErrorExpired }
    else vErr
  let vErr := if verifyIat c.IssuedAt now false = false then
    { vErr with Inner := some .usedBeforeIssued, Errors := vErr.Errors ||| ValidationErrorIssuedAt }
    else vErr
  let vErr := if verifyNbf c.NotBefore now false = false then
    { vErr with Inner := some .notValidYet, Errors := vErr.Errors ||| ValidationErrorNotValidYet }
    else vErr
  if vErr.valid then none else some vErr

inductive SigningMethod
  | none
  | HMAC (Name : String) (hash : Hash)
  | RSA (Name : String) (hash : Hash)
  | RSAPSS (Name : String) (hash : Hash)
  | ECDSA (Name : String) (hash : Hash) (KeySize : Nat)
deriving DecidableEq, Repr

def SigningMethod.Alg : SigningMethod → String
  | .none => "none"
  | .HMAC Name _ => Name
  | .RSA Name _ => Name
  | .RSAPSS Name _ => Name
  | .ECDSA Name _ _ => Name

/-- The methods that the package registers. -/
def signingMethods : List SigningMethod :=
  [.none, .HMAC "HS256" .SHA256, .HMAC "HS384" .SHA384, .HMAC "HS512" .SHA512,
    .RSA "RS256" .SHA256, .RSA "RS384" .SHA384, .RSA "RS512" .SHA512,
    .RSAPSS "PS256" .SHA256, .RSAPSS "PS384" .SHA384, .RSAPSS "PS512" .SHA512,
    .ECDSA "ES256" .SHA256 32, .ECDSA "ES384" .SHA384 48, .ECDSA "ES512" .SHA512 66]

def GetSigningMethod (alg : String) : Option SigningMethod :=
  signingMethods.find? fun m => m.Alg = alg

/-- The error of a signature that does not verify. -/
def SigningMethod.Verify (env : Env) (signingString signature : Bytes) (key : Key) :
    SigningMethod → Option Cause
  | .none => if signature ≠ [] then some .noneWithSignature else Option.none
  | .HMAC _ hash =>
    match key with
    | .bytes keyBytes =>
      match DecodeSegment signature with
      | Option.none => some .base64
      | some sig =>
        if !env.available hash then some .hashUnavailable
        else if sig ≠ env.hmac hash keyBytes signingString then some .signatureInvalid
        else Option.none
    | _ => some .invalidKeyType
  | .RSA _ hash =>
    match DecodeSegment signature with
    | Option.none => some .base64
    | some sig =>
      match key with
      | .rsaPublicKey verifyPKCS1v15 _ =>
        if !env.available hash then some .hashUnavailable
        else if verifyPKCS1v15 hash signingString sig then Option.none
        else some .rsaVerification
      | _ => some .invalidKeyType
  | .RSAPSS _ hash =>
    match DecodeSegment signature with
    | Option.none => some .base64
    | some sig =>
      match key with
      | .rsaPublicKey _ verifyPSS =>
        if !env.available hash then some .hashUnavailable
        else if verifyPSS hash signingString sig then Option.none
        else some .rsaVerification
      | _ => some .invalidKey
  | .ECDSA _ hash KeySize =>
    match DecodeSegment signature with
    | Option.none => some .base64
    | some sig =>
      match key with
      | .ecdsaPublicKey verify =>
        if sig.length ≠ 2 * KeySize then some .ecdsaVerification
        else if !env.available hash then some .hashUnavailable
        else if verify hash signingString sig then Option.none
        else some .ecdsaVerification
      | _ => some .invalidKeyType

structure Token where
  Raw : Bytes
  Method : SigningMethod
  Header : Header
  Claims : StandardClaims
  Signature : Bytes
  Valid : Bool

structure Parser where
  ValidMethods : Option (List String)
  SkipClaimsValidation : Bool

/-- What `new(Parser)` is. -/
def newParser : Parser := ⟨none, false⟩

def toLower (s : Bytes) : Bytes := s.map fun c => if 0x41 ≤ c ∧ c ≤ 0x5a then c + 0x20 else c

def ParseUnverified (env : Env) (tokenString : Bytes) :
    Except ValidationError (Token × List Bytes) :=
  let malformed (cause : Cause) : ValidationError := ⟨some cause, ValidationErrorMalformed, ""⟩
  match tokenString.splitOn 0x2e with
  | [part0, part1, part2] =>
    match DecodeSegment part0 with
    | none =>
      if (ascii "bearer ").isPrefixOf (toLower tokenString) then
        .error (NewValidationError "tokenstring should not contain 'bearer '"
          ValidationErrorMalformed)
      else .error (malformed .base64)
    | some headerBytes =>
      match env.unmarshalHeader headerBytes with
      | none => .error (malformed .json)
      | some header =>
        match DecodeSegment part1 with
        | none => .error (malformed .base64)
        | some claimBytes =>
          match env.decodeClaims claimBytes with
          | none => .error (malformed .json)
          | some claims =>
            match header "alg" with
            | some (.string method) =>
              match GetSigningMethod method with
              | none => .error (NewValidationError "signing method (alg) is unavailable."
                  ValidationErrorUnverifiable)
              | some method =>
                .ok (⟨tokenString, method, header, claims, [], false⟩, [part0, part1, part2])
            | _ => .error (NewValidationError "signing method (alg) is unspecified."
                ValidationErrorUnverifiable)
  | _ => .error (NewValidationError "token contains an invalid number of segments"
      ValidationErrorMalformed)

/-- The key function may fail with an error of this package or with another. -/
def ParseWithClaims (env : Env) (p : Parser) (tokenString : Bytes)
    (keyFunc : Option (Token → Except (ValidationError ⊕ Cause) Key)) (now : Int) :
    Except ValidationError Token := do
  let (token, parts) ← ParseUnverified env tokenString
  if let some methods := p.ValidMethods then
    if token.Method.Alg ∉ methods then
      throw (NewValidationError ("signing method " ++ token.Method.Alg ++ " is invalid")
        ValidationErrorSignatureInvalid)
  match keyFunc with
  | none => throw (NewValidationError "no Keyfunc was provided." ValidationErrorUnverifiable)
  | some keyFunc =>
    match keyFunc token with
    | .error (.inl ve) => throw ve
    | .error (.inr cause) => throw ⟨some cause, ValidationErrorUnverifiable, ""⟩
    | .ok key =>
      let vErr : ValidationError := ⟨none, 0, ""⟩
      let vErr := if p.SkipClaimsValidation then vErr else (token.Claims.Valid now).getD vErr
      let signature := parts.getD 2 []
      let signingString := [(0x2e : UInt8)].intercalate (parts.take 2)
      let vErr := match token.Method.Verify env signingString signature key with
        | none => vErr
        | some cause => { vErr with
            Inner := some cause, Errors := vErr.Errors ||| ValidationErrorSignatureInvalid }
      if vErr.valid then return { token with Signature := signature, Valid := true } else throw vErr

end CtfChallenges.Recipes
