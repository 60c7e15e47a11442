import MvcBackend.Authentication
import MvcBackend.Base64
import MvcBackend.PicoJson

/-!
What `verify_auth` does with jwt-cpp: decode a token, check its algorithm, its
signature, its dates and its issuer, and read its subject. An exception is the
text that it reports.
-/

namespace MvcBackend.TokenVerification

open MvcBackend.JsonValues
open MvcBackend.Authentication
open MvcBackend.Base64
open MvcBackend.PicoJson
open MvcBackend.Rendering (numeral)
open MvcBackend.Library.SortedMap

/-- A certificate as OpenSSL holds it, by its DER form. -/
structure X509 where
  der : Str

/-- A public key as OpenSSL holds it, by its DER form. -/
structure EvpPkey where
  der : Str

/-- The calls to OpenSSL: `bioWrite` is whether `BIO_write` takes a text whole,
`pemWritePubkey` what `BIO_get_mem_data` finds after `PEM_write_bio_PUBKEY`, and
`errorString` what `ERR_error_string` says after that `EVP_VerifyFinal`. -/
structure OpenSsl where
  bioWrite : Str → Bool
  pemReadX509 : Str → Option X509
  x509GetPubkey : X509 → Option EvpPkey
  pemWritePubkey : EvpPkey → Option Str
  pemReadPubkey : Str → Option EvpPkey
  mdCtxCreate : Bool
  verifyInit : Bool
  verifyUpdate : (data : Str) → Bool
  verifyFinal : EvpPkey → (data signature : Str) → Int
  errorString : EvpPkey → (data signature : Str) → Str

/-- What jwt-cpp calls: the C library, OpenSSL, and the system clock in ticks
since the epoch. Arithmetic on ticks that leaves 64 bits is undefined, and may
give anything. -/
structure Platform where
  strtod : Str → Strtod
  openSsl : OpenSsl
  now : Int
  overflow : Int → Int

abbrev Claims := List (Str × Value)

structure DecodedJwt where
  headerBase64 : Str
  payloadBase64 : Str
  signature : Str
  headerClaims : Claims
  payloadClaims : Claims

def verificationFailed (msg : Str) : Str := str "token verification failed: " ++ msg

def cutAtDot (s : Str) : Except Str (Str × Str) :=
  match s.dropWhile (· ≠ 0x2E) with
  | _ :: rest => .ok (s.takeWhile (· ≠ 0x2E), rest)
  | [] => .error (str "invalid token supplied")

def getClaim (claims : Claims) (name : Str) : Except Str Value :=
  match claims.lookup name with
  | some claim => .ok claim
  | none => .error (str "claim not found")

def asString : Value → Except Str Str
  | .string s => .ok s
  | _ => .error (str "std::bad_cast")

def asInt : Value → Except Str Int
  | .int64 n => .ok n
  | _ => .error (str "std::bad_cast")

/-- A verifier of `verify_auth` expects the claim `iss` alone, which is a string. -/
def assertIssuer (payload : Claims) (issuer : Str) : Except Str Unit :=
  match payload.lookup (str "iss") with
  | none => .error (verificationFailed (str "decoded_jwt is missing iss claim"))
  | some (.string s) =>
      if s = issuer then .ok ()
      else .error (verificationFailed (str "claim iss does not match expected"))
  | some _ => .error (verificationFailed (str "claim iss type mismatch"))

def tokenExpired : Str := verificationFailed (str "token expired")

namespace OpenSsl

variable (o : OpenSsl)

def extractPubkeyFromCert (certstr : Str) : Except Str Str :=
  match o.pemReadX509 certstr with
  | none => .error (str "Error loading cert into memory")
  | some cert =>
      match o.x509GetPubkey cert with
      | none => .error (str "Error getting public key from certificate")
      | some key =>
          match o.pemWritePubkey key with
          | none => .error (str "Error writing public key data in PEM format")
          | some [] => .error (str "Failed to convert pubkey to pem")
          | some res => .ok res

/-- A text in PEM is written to `pubkey_bio`, and the key read from there. -/
def readPubkey (pem : Str) : Except Str EvpPkey :=
  if !o.bioWrite pem then .error (str "failed to load public key: bio_write failed")
  else
    match o.pemReadPubkey pem with
    | none => .error (str "failed to load public key: PEM_read_bio_PUBKEY failed")
    | some pkey => .ok pkey

/-- The key is in PEM by itself, or in a certificate. -/
def loadPublicKeyFromString (key : Str) : Except Str EvpPkey :=
  if key.take 27 = str "-----BEGIN CERTIFICATE-----" then do
    o.readPubkey (← o.extractPubkeyFromCert key)
  else o.readPubkey key

/-- What is thrown where `EVP_VerifyFinal` does not return 1. -/
def verifyFinalFailed (pkey : EvpPkey) (data signature : Str) : Str :=
  str "evp verify final failed: " ++ numeral (o.verifyFinal pkey data signature) ++ str " " ++
    o.errorString pkey data signature

/-- `verify` of the base class of the RSA algorithms. -/
def rsaVerify (pkey : EvpPkey) (data signature : Str) : Except Str Unit :=
  if !o.mdCtxCreate then .error (str "failed to verify signature: could not create context")
  else if !o.verifyInit then .error (str "failed to verify signature: VerifyInit failed")
  else if !o.verifyUpdate data then .error (str "failed to verify signature: VerifyUpdate failed")
  else if o.verifyFinal pkey data signature = 1 then .ok ()
  else .error (o.verifyFinalFailed pkey data signature)

end OpenSsl

namespace Platform

variable (p : Platform)

def parseClaims (s : Str) : Except Str Claims :=
  match parse p.strtod s with
  | .ok (.object members) => .ok members
  | .ok _ =>
      .error (str "\"type mismatch! call is<type>() before get<type>()\" && is<object>()")
  | .error .syntaxError => .error (str "Invalid json")
  | .error .overflowError => .error []

/-- The constructor of `decoded_jwt`. -/
def decode (token : Str) : Except Str DecodedJwt := do
  let (headerBase64, rest) ← cutAtDot token
  let (payloadBase64, signatureBase64) ← cutAtDot rest
  let header ← decodePart headerBase64
  let payload ← decodePart payloadBase64
  let signature ← decodePart signatureBase64
  let headerClaims ← p.parseClaims header
  let payloadClaims ← p.parseClaims payload
  return ⟨headerBase64, payloadBase64, signature, headerClaims, payloadClaims⟩

/-- The constructor of `rs256`. -/
def rs256 (publicKey : Str) : Except Str EvpPkey :=
  if publicKey = [] then .error (str "at least one of public or private key need to be present")
  else p.openSsl.loadPublicKeyFromString publicKey

def ticks (n : Int) : Int := if IsInt64 n then n else p.overflow n

/-- Ticks are nanoseconds. -/
def fromSeconds (seconds : Int) : Int := p.ticks (seconds * 10 ^ 9)

/-- `std::chrono::seconds(leeway)` of a `size_t`. -/
def leewayTicks (leeway : Nat) : Int := p.fromSeconds ((leeway : Int).bmod (2 ^ 64))

def asDate (claim : Value) : Except Str Int := (asInt claim).map p.fromSeconds

def checkDate (payload : Claims) (name : Str) (late : Int → Bool) : Except Str Unit :=
  match payload.lookup name with
  | none => .ok ()
  | some claim => do
      let date ← p.asDate claim
      if late date then throw tokenExpired

def verify (leeway : Nat) (pkey : EvpPkey) (issuer : Str) (jwt : DecodedJwt) :
    Except Str Unit := do
  let algo ← asString (← getClaim jwt.headerClaims (str "alg"))
  if algo ≠ str "RS256" then throw (verificationFailed (str "wrong algorithm"))
  p.openSsl.rsaVerify pkey (jwt.headerBase64 ++ str "." ++ jwt.payloadBase64) jwt.signature
  p.checkDate jwt.payloadClaims (str "exp") fun exp => p.now > p.ticks (exp + p.leewayTicks leeway)
  p.checkDate jwt.payloadClaims (str "iat") fun iat => p.now < p.ticks (iat - p.leewayTicks leeway)
  p.checkDate jwt.payloadClaims (str "nbf") fun nbf => p.now < p.ticks (nbf - p.leewayTicks leeway)
  assertIssuer jwt.payloadClaims issuer

/-- The block that `verify_auth` tries; a failure to decode is a failure to verify. -/
def jwt : Jwt := fun leeway publicKey issuer token => do
  let decoded ← (p.decode token).mapError verificationFailed
  let pkey ← p.rs256 publicKey
  p.verify leeway pkey issuer decoded
  asString (← getClaim decoded.payloadClaims (str "sub"))

end Platform

/-- What the builder of tokens makes of claims, here with RS256; the maps of
claims are in the order of their keys. -/
def sign (algoSign : Str → Str) (headerClaims payloadClaims : Claims) : Str :=
  let header := Value.object (assign (str "alg") (.string (str "RS256")) headerClaims)
  let payload := Value.object payloadClaims
  let token := encodePart header.serialize ++ str "." ++ encodePart payload.serialize
  token ++ str "." ++ encodePart (algoSign token)

end MvcBackend.TokenVerification
