import MvcBackend.Library.Failures
import MvcBackend.BearerTokens
import MvcBackend.TokenVerification

/-!
What `handle` lets out: only the text of a rejected token can be an answer that
`dump` refuses, and of these only one that OpenSSL gives.
-/

namespace MvcBackend.EscapingExceptions

open MvcBackend.JsonValues
open MvcBackend.DataModel
open MvcBackend.Database
open MvcBackend.Authentication
open MvcBackend.Endpoints
open MvcBackend.EndpointSteps
open MvcBackend.HttpHandler
open MvcBackend.AuthenticatorRefinement
open MvcBackend.RouterRefinement
open MvcBackend.HandlerRefinement
open MvcBackend.BearerTokens
open MvcBackend.Base64
open MvcBackend.PicoJson
open MvcBackend.TokenVerification
open MvcBackend.Library.Failures
open MvcBackend.Library.Transaction

def internalError : HttpResponse := ⟨500, .json (.object [(str "Err", .null)]), [allowOrigin]⟩

/-- One of the catch clauses makes a response of it. -/
def Caught (e : Exc) : Prop := ∃ response, handleException e = .ok response

theorem caught_userError {what : Str} (h : isUtf8 what = true) : Caught (.userError what) := by
  have hok : isUtf8 (str "Err") = true := by decide
  refine ⟨⟨400, .json (.object [(str "Err", .array [.string what])]), [allowOrigin]⟩, ?_⟩
  simp [handleException, jsonResponseErr, jsonResponse, dump, Json.dumpable, membersDumpable,
    itemsDumpable, hok, h, bind, Except.bind, pure, Except.pure]

theorem caught_authError_iff {what : Str} : Caught (.authError what) ↔ isUtf8 what = true := by
  have hok : isUtf8 (str "Err") = true := by decide
  cases h : isUtf8 what with
  | true => exact iff_of_true (caught_userError h) rfl
  | false =>
      refine iff_of_false ?_ Bool.false_ne_true
      simp [Caught, handleException, jsonResponseErr, jsonResponse, dump, Json.dumpable,
        membersDumpable, itemsDumpable, hok, h, bind, Except.bind]

theorem failsIn_dump (j : Json) : FailsIn Caught (dump j) := by
  rw [dump]
  split
  · exact .ok ()
  · exact .error ⟨_, rfl⟩

theorem failsIn_field {α : Type} (x : Except JsonException α) :
    FailsIn (handleException · = .ok internalError) (x.mapError Exc.json) :=
  .mapError fun _ _ => rfl

/-- All that an endpoint throws becomes an internal error. -/
theorem failsIn_step (e : IEndpoint) (input : EndpointInput) (t : Tables) :
    FailsIn (handleException · = .ok internalError) (step e input t) := by
  cases e with
  | addProject | addWorker => exact (failsIn_field _).bind fun name _ => .ok _
  | addTask =>
      refine (failsIn_field _).bind fun name _ => (failsIn_field _).bind fun project _ => ?_
      split <;> exact .ok _
  | assignTask =>
      refine (failsIn_field _).bind fun id _ => (failsIn_field _).bind fun worker _ => ?_
      split <;> exact .ok _
  | unassignTask =>
      refine (failsIn_field _).bind fun id _ => ?_
      split <;> exact .ok _
  | delProject =>
      refine (failsIn_field _).bind fun id _ => ?_
      split
      · exact .ok _
      · exact .error rfl
  | _ => exact .ok _

theorem failsIn_routeStep (path : ApiParse.ApiPath) (input : EndpointInput) (t : Tables) :
    FailsIn Caught (routeStep path input t) := by
  rw [routeStep]
  split
  · exact .error (caught_userError (by decide))
  · split
    · exact (failsIn_step _ _ _).mono fun _ h => ⟨_, h⟩
    · exact .error (caught_authError_iff.mpr (by decide))

theorem failsIn_uriDecode (s : Str) : FailsIn Caught (uriDecode s) := by
  fun_induction uriDecode s with
  | case1 => exact .ok []
  | case2 hi lo rest _ _ _ _ ih => exact ih.map _
  | case3 => exact .error ⟨_, rfl⟩
  | case4 => exact .error ⟨_, rfl⟩
  | case5 c rest _ _ ih => exact ih.map _

variable {config : AuthConfig} {libraries : Libraries} {req : HttpRequest}

theorem failsIn_readPayload : FailsIn Caught (readPayload libraries req) := by
  rw [readPayload]
  split
  · refine FailsIn.bind ?_ fun payload _ => (failsIn_dump payload).bind fun _ _ => .ok _
    rw [extractReqJson]
    split
    · exact .ok _
    · exact .error (caught_userError (by decide))
    · exact .error ⟨_, rfl⟩
  · exact .ok _

theorem failsIn_respond (out : Option EndpointOutput) : FailsIn Caught (respond out) := by
  cases out with
  | none => exact (failsIn_dump _).bind fun _ _ => .ok _
  | some output => exact (failsIn_dump _).bind fun _ _ => .ok _

/-- What is done after the login fails in nothing that is not caught. -/
theorem failsIn_respondStep (actor : Option Actor) (t : Tables) :
    FailsIn Caught (respondStep libraries req actor t) := by
  refine FailsIn.bind ((failsIn_uriDecode _).map _) fun path _ => ?_
  refine FailsIn.bind failsIn_readPayload fun payload _ => ?_
  refine FailsIn.bind (failsIn_routeStep _ _ _) fun result _ => ?_
  exact (failsIn_respond _).map _

/-- The token of the request is rejected, with this text. -/
def Rejected (config : AuthConfig) (jwt : Jwt) (req : HttpRequest) (what : Str) : Prop :=
  ∃ token, getJwt req = some token ∧
    jwt config.jwtLeewaySecs config.publicKey config.issuer token = .error what

theorem failsIn_actorStep (t : Tables) :
    FailsIn (fun e => Caught e ∨ ∃ what, e = .authError what ∧
      Rejected config libraries.jwt req what) (actorStep config libraries req t) := by
  rw [actorStep]
  split
  · next token htoken =>
      refine FailsIn.bind ?_ fun actor _ => .ok _
      refine FailsIn.bind ?_ fun subject _ => FailsIn.bind ?_ fun perms _ => .ok _
      · rw [Authentication.verifyAuth]
        split
        · exact .ok _
        · next what hwhat => exact .error (.inr ⟨what, rfl, token, htoken, hwhat⟩)
      · rw [getPermsStep]
        split
        · exact .ok _
        · exact .error (.inl ⟨_, rfl⟩)
  · exact .ok _

theorem escapes_iff (db : Db) (faults : List (Option Str)) :
    (∃ e w, handle config libraries req (World.idle db faults) = .error e w) ↔
      req.method ≠ str "OPTIONS" ∧
        ∃ what, Rejected config libraries.jwt req what ∧ isUtf8 what = false := by
  have hatomic := handleRequest_atomic config libraries req
  constructor
  · rintro ⟨e, w, hrun⟩
    by_cases hmethod : req.method = str "OPTIONS"
    · simp [handle, hmethod] at hrun
    refine ⟨hmethod, ?_⟩
    rcases hrequest : handleRequest config libraries req (World.idle db faults) with
      ⟨response, w'⟩ | ⟨e', w'⟩
    · simp [handle_of_responded hmethod hrequest] at hrun
    · obtain ⟨-, -, hraised⟩ := hatomic.of_error (World.idle_current _ _) hrequest
      have hnot : ¬ Caught e' := by
        rintro ⟨response, hresponse⟩
        simp [handle_of_thrown hmethod hrequest, ofExcept_apply, hresponse] at hrun
      rcases hraised with hstep | ⟨fault, -, rfl⟩
      · have hfails : FailsIn _ (requestStep config libraries req db.val) :=
          (failsIn_actorStep db.val).bind fun actor _ =>
            (failsIn_respondStep actor db.val).mono fun _ => .inl
        rcases hfails e' hstep with hcaught | ⟨what, rfl, hrejected⟩
        · exact absurd hcaught hnot
        · refine ⟨what, hrejected, ?_⟩
          simpa [caught_authError_iff] using hnot
      · exact absurd ⟨_, rfl⟩ hnot
  · rintro ⟨hmethod, what, ⟨token, htoken, hwhat⟩, hutf8⟩
    have hrejected : Authentication.verifyAuth libraries.jwt config token =
        .error (.authError what) := by
      rw [Authentication.verifyAuth, hwhat]
    have hverify := verifyAuth_of_rejected config libraries htoken hrejected (World.idle db faults)
    have hnot : ¬ Caught (.authError what) := by
      simp [caught_authError_iff, hutf8]
    rw [handle_of_thrown hmethod (handleRequest_of_unverified hverify), ofExcept_apply]
    rcases hresponse : handleException (.authError what) with e | response
    · exact ⟨e, _, rfl⟩
    · exact absurd ⟨response, hresponse⟩ hnot

/-! ### The texts of jwt-cpp -/

theorem failsIn_getSextet (c : UInt8) : FailsIn (· = invalidInput) (getSextet c) := by
  rw [getSextet]
  split
  · exact .ok _
  · exact .error rfl

theorem failsIn_stripFill (left : Nat) (base : Str) :
    FailsIn (· = invalidInput) (stripFill left base) := by
  induction left generalizing base with
  | zero =>
      rw [stripFill]
      split
      · exact .error rfl
      · exact .ok _
  | succ left ih =>
      rw [stripFill]
      split
      · exact (ih _).bind fun core _ => .ok _
      · exact .ok _

theorem failsIn_decodeGroups (fillCnt : Nat) (core : Str) :
    FailsIn (· = invalidInput) (decodeGroups fillCnt core) := by
  fun_induction decodeGroups fillCnt core with
  | case1 a b c d rest ih =>
      refine (failsIn_getSextet a).bind fun _ _ => (failsIn_getSextet b).bind fun _ _ => ?_
      refine (failsIn_getSextet c).bind fun _ _ => (failsIn_getSextet d).bind fun _ _ => ?_
      exact ih.bind fun _ _ => .ok _
  | case2 a b c =>
      refine (failsIn_getSextet a).bind fun _ _ => (failsIn_getSextet b).bind fun _ _ => ?_
      exact (failsIn_getSextet c).bind fun _ _ => .ok _
  | case4 a b =>
      exact (failsIn_getSextet a).bind fun _ _ => (failsIn_getSextet b).bind fun _ _ => .ok _
  | _ => exact .ok _

theorem failsIn_decodePart (part : Str) : FailsIn (· = invalidInput) (decodePart part) := by
  refine (failsIn_stripFill 2 _).bind fun result _ => ?_
  obtain ⟨core, fillCnt⟩ := result
  simp only
  split
  · exact FailsIn.bind (.error rfl) fun _ _ => failsIn_decodeGroups _ _
  · exact failsIn_decodeGroups _ _

section

variable (p : Platform)

theorem failsIn_parseClaims (s : Str) :
    FailsIn (fun what => isUtf8 (verificationFailed what) = true) (p.parseClaims s) := by
  rw [Platform.parseClaims]
  split
  · exact .ok _
  · exact .error (by decide)
  · exact .error (by decide)
  · exact .error (by decide)

theorem failsIn_cutAtDot (s : Str) :
    FailsIn (fun what => isUtf8 (verificationFailed what) = true) (cutAtDot s) := by
  rw [cutAtDot]
  split
  · exact .ok _
  · exact .error (by decide)

theorem failsIn_decode (token : Str) :
    FailsIn (fun what => isUtf8 (verificationFailed what) = true) (p.decode token) := by
  have hpart : ∀ part,
      FailsIn (fun what => isUtf8 (verificationFailed what) = true) (decodePart part) := by
    intro part
    refine (failsIn_decodePart part).mono fun what hwhat => ?_
    rw [hwhat]
    decide
  refine (failsIn_cutAtDot token).bind fun _ _ => (failsIn_cutAtDot _).bind fun _ _ => ?_
  refine (hpart _).bind fun _ _ => (hpart _).bind fun _ _ => (hpart _).bind fun _ _ => ?_
  exact (failsIn_parseClaims p _).bind fun _ _ => (failsIn_parseClaims p _).bind fun _ _ => .ok _

/-- The text for a signature that does not verify under the key, which ends in
what OpenSSL says of it. -/
def OpenSslSays (publicKey what : Str) : Prop :=
  ∃ pkey data signature, p.rs256 publicKey = .ok pkey ∧
    what = p.openSsl.verifyFinalFailed pkey data signature

/-- A text of jwt-cpp itself, or one of OpenSSL that it passes on. -/
def Legible (publicKey what : Str) : Prop :=
  isUtf8 what = true ∨ OpenSslSays p publicKey what

variable (leeway : Nat) (publicKey issuer : Str)

theorem failsIn_asString (claims : Claims) (name : Str) :
    FailsIn (Legible p publicKey) (getClaim claims name >>= asString) := by
  refine FailsIn.bind ?_ fun claim _ => ?_
  · rw [getClaim]
    split
    · exact .ok _
    · exact .error (.inl (by decide))
  · cases claim with
    | string s => exact .ok s
    | _ => exact .error (.inl (by decide))

theorem failsIn_checkDate (payload : Claims) (name : Str) (late : Int → Bool) :
    FailsIn (Legible p publicKey) (p.checkDate payload name late) := by
  rw [Platform.checkDate]
  split
  · exact .ok _
  · next claim _ =>
      refine FailsIn.bind (FailsIn.map ?_ _) fun date _ => ?_
      · cases claim with
        | int64 n => exact .ok n
        | _ => exact .error (.inl (by decide))
      · split
        · exact .error (.inl (by decide))
        · exact .ok _

theorem failsIn_assertIssuer (payload : Claims) :
    FailsIn (Legible p publicKey) (assertIssuer payload issuer) := by
  rw [assertIssuer]
  split
  · exact .error (.inl (by decide))
  · split
    · exact .ok _
    · exact .error (.inl (by decide))
  · exact .error (.inl (by decide))

theorem failsIn_extractPubkeyFromCert (certstr : Str) :
    FailsIn (Legible p publicKey) (p.openSsl.extractPubkeyFromCert certstr) := by
  rw [OpenSsl.extractPubkeyFromCert]
  split
  · exact .error (.inl (by decide))
  · split
    · exact .error (.inl (by decide))
    · split
      · exact .error (.inl (by decide))
      · exact .error (.inl (by decide))
      · exact .ok _

theorem failsIn_readPubkey (pem : Str) :
    FailsIn (Legible p publicKey) (p.openSsl.readPubkey pem) := by
  rw [OpenSsl.readPubkey]
  split
  · exact .error (.inl (by decide))
  · split
    · exact .error (.inl (by decide))
    · exact .ok _

theorem failsIn_loadPublicKeyFromString (key : Str) :
    FailsIn (Legible p publicKey) (p.openSsl.loadPublicKeyFromString key) := by
  rw [OpenSsl.loadPublicKeyFromString]
  split
  · refine FailsIn.bind (failsIn_extractPubkeyFromCert p publicKey key) fun pem _ => ?_
    exact failsIn_readPubkey p publicKey pem
  · exact failsIn_readPubkey p publicKey key

theorem failsIn_rs256 : FailsIn (Legible p publicKey) (p.rs256 publicKey) := by
  rw [Platform.rs256]
  split
  · exact .error (.inl (by decide))
  · exact failsIn_loadPublicKeyFromString p publicKey publicKey

theorem failsIn_rsaVerify {pkey : EvpPkey} (hkey : p.rs256 publicKey = .ok pkey)
    (data signature : Str) :
    FailsIn (Legible p publicKey) (p.openSsl.rsaVerify pkey data signature) := by
  rw [OpenSsl.rsaVerify]
  split
  · exact .error (.inl (by decide))
  split
  · exact .error (.inl (by decide))
  split
  · exact .error (.inl (by decide))
  split
  · exact .ok _
  · exact .error (.inr ⟨pkey, data, signature, hkey, rfl⟩)

theorem failsIn_verify {pkey : EvpPkey} (hkey : p.rs256 publicKey = .ok pkey)
    (jwt : DecodedJwt) :
    FailsIn (Legible p publicKey) (p.verify leeway pkey issuer jwt) := by
  rw [Platform.verify, ← bind_assoc]
  refine (failsIn_asString p publicKey _ _).bind fun algo _ => ?_
  have hrest : FailsIn (Legible p publicKey) (do
      p.openSsl.rsaVerify pkey (jwt.headerBase64 ++ str "." ++ jwt.payloadBase64) jwt.signature
      p.checkDate jwt.payloadClaims (str "exp") fun exp =>
        p.now > p.ticks (exp + p.leewayTicks leeway)
      p.checkDate jwt.payloadClaims (str "iat") fun iat =>
        p.now < p.ticks (iat - p.leewayTicks leeway)
      p.checkDate jwt.payloadClaims (str "nbf") fun nbf =>
        p.now < p.ticks (nbf - p.leewayTicks leeway)
      assertIssuer jwt.payloadClaims issuer) := by
    refine (failsIn_rsaVerify p publicKey hkey _ _).bind fun _ _ => ?_
    refine (failsIn_checkDate p publicKey _ _ _).bind fun _ _ => ?_
    refine (failsIn_checkDate p publicKey _ _ _).bind fun _ _ => ?_
    refine (failsIn_checkDate p publicKey _ _ _).bind fun _ _ => ?_
    exact failsIn_assertIssuer p publicKey issuer _
  simp only
  split
  · exact FailsIn.bind (.error (.inl (by decide))) fun _ _ => hrest
  · exact hrest

theorem failsIn_jwt (token : Str) :
    FailsIn (Legible p publicKey) (p.jwt leeway publicKey issuer token) := by
  refine FailsIn.bind ?_ fun jwt _ => ?_
  · exact .mapError ((failsIn_decode p token).mono fun _ => .inl)
  · refine (failsIn_rs256 p publicKey).bind fun pkey hkey => ?_
    refine (failsIn_verify p leeway publicKey issuer hkey jwt).bind fun _ _ => ?_
    exact failsIn_asString p publicKey _ _

end

/-- An exception leaves `handle` if and only if the text of a rejected token is
not UTF-8, and then the text is that of a signature which ends in what OpenSSL
says: neither a client nor the database, whatever it does, can otherwise leave a
request without an answer. This takes `req.relative_uri()`, which `handle` logs
before it tries anything, not to throw: the address that is listened on has no path. -/
theorem exceptions_escape_iff (config : AuthConfig) (p : Platform)
    (extractJson : HttpRequest → Except BodyError Json) (req : HttpRequest) (db : Db)
    (faults : List (Option Str)) :
    ((∃ e w, handle config ⟨p.jwt, extractJson⟩ req (World.idle db faults) = .error e w) ↔
      req.method ≠ str "OPTIONS" ∧ ∃ what, Rejected config p.jwt req what ∧ isUtf8 what = false) ∧
    ∀ what, Rejected config p.jwt req what → isUtf8 what = false →
      OpenSslSays p config.publicKey what := by
  refine ⟨escapes_iff db faults, ?_⟩
  rintro what ⟨token, -, hwhat⟩ hutf8
  refine (failsIn_jwt p _ _ _ _ what hwhat).resolve_left ?_
  simp [hutf8]

end MvcBackend.EscapingExceptions
