import MvcBackend.PicoJsonRoundTrip
import MvcBackend.TokenDates

/-!
Which tokens are accepted, exactly: in three parts, signed over the first two
by the configured key under RS256, for the configured issuer, and in time.
-/

namespace MvcBackend.TokenAcceptance

open MvcBackend.JsonValues
open MvcBackend.Authentication
open MvcBackend.Base64
open MvcBackend.PicoJson
open MvcBackend.Library.SortedMap
open MvcBackend.PicoJsonRoundTrip
open MvcBackend.TokenVerification
open MvcBackend.TokenVerification.Platform
open MvcBackend.TokenDates
open MvcBackend.Configuration
open MvcBackend.Library.Transaction

variable {p : Platform} {leeway : Nat} {publicKey issuer token subject : Str} {pkey : EvpPkey}

/-- A part of a token holds a text of which picojson reads an object with these
claims; it takes more numbers than JSON has, and does not look at what follows. -/
def Holds (p : Platform) (part : Str) (claims : Claims) : Prop :=
  ∃ text, decodePart part = .ok text ∧ parse p.strtod text = .ok (.object claims)

structure Decodes (p : Platform) (token : Str) (jwt : DecodedJwt) : Prop where
  parts : ∃ signatureBase64, decodePart signatureBase64 = .ok jwt.signature ∧
    token = jwt.headerBase64 ++ 0x2E :: (jwt.payloadBase64 ++ 0x2E :: signatureBase64)
  header_dotless : 0x2E ∉ jwt.headerBase64
  payload_dotless : 0x2E ∉ jwt.payloadBase64
  header : Holds p jwt.headerBase64 jwt.headerClaims
  payload : Holds p jwt.payloadBase64 jwt.payloadClaims

/-- OpenSSL takes the signature of the data for one under this key. -/
structure SignedUnder (o : OpenSsl) (pkey : EvpPkey) (data signature : Str) : Prop where
  context : o.mdCtxCreate = true
  init : o.verifyInit = true
  update : o.verifyUpdate data = true
  final : o.verifyFinal pkey data signature = 1

structure Verifies (p : Platform) (leeway : Nat) (publicKey issuer : Str) (jwt : DecodedJwt) :
    Prop where
  algorithm : jwt.headerClaims.lookup (str "alg") = some (.string (str "RS256"))
  key_present : publicKey ≠ []
  signature : ∃ pkey, p.openSsl.loadPublicKeyFromString publicKey = .ok pkey ∧
    SignedUnder p.openSsl pkey (jwt.headerBase64 ++ str "." ++ jwt.payloadBase64) jwt.signature
  in_time : InTime p leeway jwt.payloadClaims
  issuer : jwt.payloadClaims.lookup (str "iss") = some (.string issuer)

/-! ### Decoding -/

theorem cutAtDot_eq_ok {s front rest : Str} :
    cutAtDot s = .ok (front, rest) ↔ s = front ++ 0x2E :: rest ∧ 0x2E ∉ front := by
  constructor
  · intro h
    rw [cutAtDot] at h
    have hsplit := List.takeWhile_append_dropWhile (p := (· ≠ (0x2E : UInt8))) (l := s)
    rcases hdrop : s.dropWhile (· ≠ 0x2E) with _ | ⟨c, rest'⟩
    · simp only [hdrop] at h
      cases h
    · simp only [hdrop, Except.ok.injEq, Prod.mk.injEq] at h
      obtain ⟨hfront, rfl⟩ := h
      have hhead := List.head?_dropWhile_not (· ≠ (0x2E : UInt8)) s
      rw [hdrop] at hhead
      obtain rfl : c = 0x2E := by simpa using hhead
      refine ⟨?_, ?_⟩
      · rw [← hfront, ← hdrop]
        exact hsplit.symm
      · rw [← hfront]
        intro hmem
        simpa using List.mem_takeWhile_imp hmem
  · rintro ⟨rfl, hfront⟩
    have hall : ∀ c ∈ front, decide (c ≠ 0x2E) = true := by
      intro c hc
      simpa using fun heq : c = 0x2E => hfront (heq ▸ hc)
    rw [cutAtDot, List.dropWhile_append_of_pos hall, List.takeWhile_append_of_pos hall]
    simp

theorem parseClaims_eq_ok {s : Str} {claims : Claims} :
    p.parseClaims s = .ok claims ↔ parse p.strtod s = .ok (.object claims) := by
  rw [parseClaims]
  rcases parse p.strtod s with (_ | _) | (_ | _ | _ | _ | _ | _ | members) <;> simp

theorem decode_eq_ok_iff {jwt : DecodedJwt} : p.decode token = .ok jwt ↔ Decodes p token jwt := by
  constructor
  · intro h
    obtain ⟨⟨headerBase64, rest⟩, hheader, h⟩ := bind_eq_ok.mp h
    obtain ⟨⟨payloadBase64, signatureBase64⟩, hpayload, h⟩ := bind_eq_ok.mp h
    obtain ⟨headerText, hheaderText, h⟩ := bind_eq_ok.mp h
    obtain ⟨payloadText, hpayloadText, h⟩ := bind_eq_ok.mp h
    obtain ⟨signature, hsignature, h⟩ := bind_eq_ok.mp h
    obtain ⟨headerClaims, hheaderClaims, h⟩ := bind_eq_ok.mp h
    obtain ⟨payloadClaims, hpayloadClaims, h⟩ := bind_eq_ok.mp h
    obtain rfl := Except.ok.inj h
    obtain ⟨rfl, hheaderDot⟩ := cutAtDot_eq_ok.mp hheader
    obtain ⟨rfl, hpayloadDot⟩ := cutAtDot_eq_ok.mp hpayload
    exact {
      parts := ⟨signatureBase64, hsignature, rfl⟩
      header_dotless := hheaderDot
      payload_dotless := hpayloadDot
      header := ⟨headerText, hheaderText, parseClaims_eq_ok.mp hheaderClaims⟩
      payload := ⟨payloadText, hpayloadText, parseClaims_eq_ok.mp hpayloadClaims⟩ }
  · rintro ⟨⟨signatureBase64, hsignature, rfl⟩, hheaderDot, hpayloadDot,
      ⟨headerText, hheaderText, hheaderClaims⟩, ⟨payloadText, hpayloadText, hpayloadClaims⟩⟩
    refine bind_eq_ok.mpr ⟨_, cutAtDot_eq_ok.mpr ⟨rfl, hheaderDot⟩, ?_⟩
    refine bind_eq_ok.mpr ⟨_, cutAtDot_eq_ok.mpr ⟨rfl, hpayloadDot⟩, ?_⟩
    refine bind_eq_ok.mpr ⟨_, hheaderText, ?_⟩
    refine bind_eq_ok.mpr ⟨_, hpayloadText, ?_⟩
    refine bind_eq_ok.mpr ⟨_, hsignature, ?_⟩
    refine bind_eq_ok.mpr ⟨_, parseClaims_eq_ok.mpr hheaderClaims, ?_⟩
    exact bind_eq_ok.mpr ⟨_, parseClaims_eq_ok.mpr hpayloadClaims, rfl⟩

/-! ### Verifying -/

theorem asString_claim_eq_ok {claims : Claims} {name s : Str} :
    (getClaim claims name >>= asString) = .ok s ↔ claims.lookup name = some (.string s) := by
  rw [getClaim]
  rcases claims.lookup name with _ | (_ | _ | _ | _ | _ | _ | _) <;>
    simp [asString, bind, Except.bind]

theorem assertIssuer_eq_ok {payload : Claims} {u : Unit} :
    assertIssuer payload issuer = .ok u ↔
      payload.lookup (str "iss") = some (.string issuer) := by
  rw [assertIssuer]
  rcases payload.lookup (str "iss") with _ | (_ | _ | _ | _ | s | _ | _) <;> simp

theorem rs256_eq_ok :
    p.rs256 publicKey = .ok pkey ↔
      publicKey ≠ [] ∧ p.openSsl.loadPublicKeyFromString publicKey = .ok pkey := by
  rw [rs256]
  by_cases h : publicKey = [] <;> simp [h]

theorem rsaVerify_eq_ok {o : OpenSsl} {data signature : Str} {u : Unit} :
    o.rsaVerify pkey data signature = .ok u ↔ SignedUnder o pkey data signature := by
  rw [OpenSsl.rsaVerify]
  constructor
  · intro h
    split at h
    · cases h
    split at h
    · cases h
    split at h
    · cases h
    split at h
    · next hcontext hinit hupdate hfinal =>
        exact ⟨by simpa using hcontext, by simpa using hinit, by simpa using hupdate, hfinal⟩
    · cases h
  · rintro ⟨hcontext, hinit, hupdate, hfinal⟩
    simp [hcontext, hinit, hupdate, hfinal]

theorem verify_eq_ok {jwt : DecodedJwt} :
    p.verify leeway pkey issuer jwt = .ok () ↔
      jwt.headerClaims.lookup (str "alg") = some (.string (str "RS256")) ∧
      SignedUnder p.openSsl pkey (jwt.headerBase64 ++ str "." ++ jwt.payloadBase64)
        jwt.signature ∧
      InTime p leeway jwt.payloadClaims ∧
      jwt.payloadClaims.lookup (str "iss") = some (.string issuer) := by
  rw [verify, ← bind_assoc, bind_eq_ok, inTime_iff]
  simp only [asString_claim_eq_ok, and_assoc]
  constructor
  · rintro ⟨algo, hlookup, h⟩
    by_cases halgo : algo = str "RS256"
    · subst halgo
      simp only [ne_eq, not_true_eq_false, if_false] at h
      obtain ⟨_, hsignature, h⟩ := bind_eq_ok.mp h
      obtain ⟨_, hexp, h⟩ := bind_eq_ok.mp h
      obtain ⟨_, hiat, h⟩ := bind_eq_ok.mp h
      obtain ⟨_, hnbf, hissuer⟩ := bind_eq_ok.mp h
      exact ⟨hlookup, rsaVerify_eq_ok.mp hsignature, hexp, hiat, hnbf,
        assertIssuer_eq_ok.mp hissuer⟩
    · rw [if_pos halgo] at h
      cases h
  · rintro ⟨hlookup, hsigned, hexp, hiat, hnbf, hissuer⟩
    have hsignature : p.openSsl.rsaVerify pkey _ jwt.signature = .ok () :=
      rsaVerify_eq_ok.mpr hsigned
    refine ⟨str "RS256", hlookup, ?_⟩
    simp only [ne_eq, not_true_eq_false, if_false, hsignature, hexp, hiat, hnbf]
    exact assertIssuer_eq_ok.mpr hissuer

theorem accepted_iff :
    p.jwt leeway publicKey issuer token = .ok subject ↔
      ∃ jwt, Decodes p token jwt ∧ Verifies p leeway publicKey issuer jwt ∧
        jwt.payloadClaims.lookup (str "sub") = some (.string subject) := by
  rw [Platform.jwt, bind_eq_ok]
  refine exists_congr fun jwt => ?_
  rw [mapError_eq_ok, decode_eq_ok_iff]
  refine and_congr_right fun _ => ?_
  constructor
  · intro h
    obtain ⟨pkey, hkey, h⟩ := bind_eq_ok.mp h
    obtain ⟨_, hverify, h⟩ := bind_eq_ok.mp h
    obtain ⟨hpresent, hloads⟩ := rs256_eq_ok.mp hkey
    obtain ⟨halg, hsigned, htime, hissuer⟩ := verify_eq_ok.mp hverify
    exact ⟨⟨halg, hpresent, ⟨pkey, hloads, hsigned⟩, htime, hissuer⟩, asString_claim_eq_ok.mp h⟩
  · rintro ⟨⟨halg, hpresent, ⟨pkey, hloads, hsigned⟩, htime, hissuer⟩, hsubject⟩
    refine bind_eq_ok.mpr ⟨pkey, rs256_eq_ok.mpr ⟨hpresent, hloads⟩, ?_⟩
    refine bind_eq_ok.mpr ⟨(), verify_eq_ok.mpr ⟨halg, hsigned, htime, hissuer⟩, ?_⟩
    exact asString_claim_eq_ok.mpr hsubject

theorem verifyAuth_eq_ok {config : AuthConfig} :
    verifyAuth p.jwt config token = .ok subject ↔
      p.jwt config.jwtLeewaySecs config.publicKey config.issuer token = .ok subject := by
  rw [verifyAuth]
  cases p.jwt config.jwtLeewaySecs config.publicKey config.issuer token <;> simp

/-- `verify_auth` accepts a token for a subject exactly where it is in three
parts, the first two without dots, of which picojson reads objects; its header
names RS256 and no other algorithm; its signature verifies over the first two
parts as they were sent; its dates hold; and its payload names the issuer and the
subject. Any other token is an `AuthError`. With a leeway that was an `int`, and
dates in range, the dates hold where now is within them in seconds. -/
theorem verify_auth_exact (p : Platform) (config : AuthConfig) (token : Str) :
    (∀ subject, verifyAuth p.jwt config token = .ok subject ↔
      ∃ jwt, Decodes p token jwt ∧
        Verifies p config.jwtLeewaySecs config.publicKey config.issuer jwt ∧
        jwt.payloadClaims.lookup (str "sub") = some (.string subject)) ∧
    (∀ e, verifyAuth p.jwt config token = .error e → ∃ what, e = .authError what) ∧
    ∀ leeway payload, IsInt leeway → config.jwtLeewaySecs = sizeOfInt leeway →
      DatesInRange leeway payload →
        (InTime p config.jwtLeewaySecs payload ↔
          DatesAreIntegers payload ∧ Within leeway payload p.now) := by
  refine ⟨fun subject => ?_, fun e h => ?_, fun leeway payload hleeway hconfig hrange => ?_⟩
  · rw [verifyAuth_eq_ok, accepted_iff]
  · rw [verifyAuth] at h
    cases hjwt : p.jwt config.jwtLeewaySecs config.publicKey config.issuer token with
    | ok subject => simp [hjwt] at h
    | error what =>
        simp only [hjwt, Except.error.injEq] at h
        exact ⟨what, h.symm⟩
  · rw [hconfig]
    exact inTime_iff_within hleeway hrange

/-! ### Tokens that jwt-cpp has signed -/

theorem plain_header {claims : Claims} (h : Value.Plain (.object claims)) :
    Value.Plain (.object (assign (str "alg") (.string (str "RS256")) claims)) :=
  ⟨sorted_assign h.1, membersPlain_iff.mpr (forall_assign (P := fun _ v => Value.Plain v) trivial (membersPlain_iff.mp h.2))⟩

theorem holds_encodePart {claims : Claims} (h : Value.Plain (.object claims)) :
    Holds p (encodePart (Value.object claims).serialize) claims := by
  refine ⟨_, decodePart_encodePart _, ?_⟩
  have hrest : Stops [] := by simp [Stops]
  simpa using parse_serialize p.strtod _ h hrest

theorem dot_not_mem_encodePart (data : Str) : 0x2E ∉ encodePart data := by
  rw [encodePart_eq]
  intro hdot
  have hletter : (0x2E : UInt8) ∉ base64url.letters := by decide
  exact hletter (base64url.mem_letters_of_mem_pack hdot)

theorem decodes_sign (algoSign : Str → Str) {headerClaims payloadClaims : Claims}
    (hheader : Value.Plain (.object headerClaims))
    (hpayload : Value.Plain (.object payloadClaims)) :
    ∃ jwt, Decodes p (sign algoSign headerClaims payloadClaims) jwt ∧
      jwt.signature = algoSign (jwt.headerBase64 ++ str "." ++ jwt.payloadBase64) ∧
      jwt.headerClaims = assign (str "alg") (.string (str "RS256")) headerClaims ∧
      jwt.payloadClaims = payloadClaims := by
  let claims := assign (str "alg") (.string (str "RS256")) headerClaims
  let header := encodePart (Value.object claims).serialize
  let payload := encodePart (Value.object payloadClaims).serialize
  let signature := algoSign (header ++ str "." ++ payload)
  refine ⟨⟨header, payload, signature, claims, payloadClaims⟩, ?_, rfl, rfl, rfl⟩
  refine ⟨⟨encodePart signature, decodePart_encodePart _, ?_⟩, dot_not_mem_encodePart _,
    dot_not_mem_encodePart _, holds_encodePart (plain_header hheader), holds_encodePart hpayload⟩
  show header ++ str "." ++ payload ++ str "." ++ encodePart signature = _
  have hdot : str "." = [0x2E] := by decide
  simp [hdot]

theorem accepted_sign_iff (algoSign : Str → Str) {headerClaims payloadClaims : Claims}
    (hkey : p.rs256 publicKey = .ok pkey)
    (hsign : ∀ data, p.openSsl.rsaVerify pkey data (algoSign data) = .ok ())
    (hheader : Value.Plain (.object headerClaims))
    (hpayload : Value.Plain (.object payloadClaims)) :
    p.jwt leeway publicKey issuer (sign algoSign headerClaims payloadClaims) = .ok subject ↔
      InTime p leeway payloadClaims ∧
      payloadClaims.lookup (str "iss") = some (.string issuer) ∧
      payloadClaims.lookup (str "sub") = some (.string subject) := by
  obtain ⟨jwt, hdecodes, hsignature, halg, rfl⟩ :=
    decodes_sign (p := p) algoSign hheader hpayload
  obtain ⟨hpresent, hloads⟩ := rs256_eq_ok.mp hkey
  rw [accepted_iff]
  constructor
  · rintro ⟨jwt', hdecodes', hverifies, hsubject⟩
    obtain rfl : jwt' = jwt :=
      Except.ok.inj ((decode_eq_ok_iff.mpr hdecodes').symm.trans (decode_eq_ok_iff.mpr hdecodes))
    exact ⟨hverifies.in_time, hverifies.issuer, hsubject⟩
  · rintro ⟨htime, hissuer, hsubject⟩
    refine ⟨jwt, hdecodes, ⟨?_, hpresent, ⟨pkey, hloads, ?_⟩, htime, hissuer⟩, hsubject⟩
    · rw [halg]
      exact lookup_assign _ _ _
    · rw [hsignature]
      exact rsaVerify_eq_ok.mp (hsign _)

/-- What jwt-cpp signs for a key that verifies it is accepted exactly where its
claims hold; the subject comes out as it was put in, whatever bytes it has. -/
theorem signed_token_round_trip (p : Platform) (config : AuthConfig) (subject : Str)
    (algoSign : Str → Str) (headerClaims payloadClaims : Claims)
    (hkey : p.rs256 config.publicKey = .ok pkey)
    (hsign : ∀ data, p.openSsl.rsaVerify pkey data (algoSign data) = .ok ())
    (hheader : Value.Plain (.object headerClaims))
    (hpayload : Value.Plain (.object payloadClaims)) :
    verifyAuth p.jwt config (sign algoSign headerClaims payloadClaims) = .ok subject ↔
      InTime p config.jwtLeewaySecs payloadClaims ∧
      payloadClaims.lookup (str "iss") = some (.string config.issuer) ∧
      payloadClaims.lookup (str "sub") = some (.string subject) := by
  rw [verifyAuth_eq_ok, accepted_sign_iff algoSign hkey hsign hheader hpayload]

/-- Keys in PEM are what they say, and signatures repeat what they sign. -/
def echoSsl : OpenSsl where
  bioWrite _ := true
  pemReadX509 _ := none
  x509GetPubkey _ := none
  pemWritePubkey _ := none
  pemReadPubkey pem := some ⟨pem⟩
  mdCtxCreate := true
  verifyInit := true
  verifyUpdate _ := true
  verifyFinal _ data signature := if signature = data then 1 else 0
  errorString _ _ _ := str "error:00000000:lib(0):func(0):reason(0)"

def echoPlatform : Platform where
  strtod _ := .incomplete
  openSsl := echoSsl
  now := 1700000000 * 10 ^ 9
  overflow n := n.bmod (2 ^ 64)

def echoConfig : AuthConfig := { AuthConfig.readme with publicKey := str "key" }

def echoClaims : Claims :=
  [(str "exp", .int64 1700000030), (str "iss", .string echoConfig.issuer),
    (str "sub", .string [0xFF, 0x22, 0x00])]

theorem plain_echoClaims : Value.Plain (.object echoClaims) := by
  have hexp : Value.Plain (.int64 1700000030) := by
    show IsInt64 1700000030
    decide
  exact ⟨by decide, hexp, trivial, trivial, trivial⟩

theorem rs256_echoConfig : echoPlatform.rs256 echoConfig.publicKey = .ok ⟨str "key"⟩ := rfl

theorem rsaVerify_echo (data : Str) :
    echoPlatform.openSsl.rsaVerify ⟨str "key"⟩ data (id data) = .ok () :=
  rsaVerify_eq_ok.mpr ⟨rfl, rfl, rfl, if_pos rfl⟩

theorem inTime_echoClaims : InTime echoPlatform echoConfig.jwtLeewaySecs echoClaims := by
  refine ⟨fun claim h => ?_, fun claim h => ?_, fun claim h => ?_⟩
  · exact ⟨1700000030, (Option.some.inj h).symm, by decide⟩
  · cases h
  · cases h

theorem signed_token_round_trip_bytes :
    verifyAuth echoPlatform.jwt echoConfig (sign id [] echoClaims) = .ok [0xFF, 0x22, 0x00] :=
  (signed_token_round_trip echoPlatform echoConfig _ id [] echoClaims rs256_echoConfig
    rsaVerify_echo ⟨List.Pairwise.nil, trivial⟩ plain_echoClaims).mpr
    ⟨inTime_echoClaims, rfl, rfl⟩

end MvcBackend.TokenAcceptance
