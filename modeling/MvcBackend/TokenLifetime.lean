import MvcBackend.TokenAcceptance

/-!
When a token is accepted: from its dates on and up to its expiry, with the
leeway that the configuration gives, which may be negative.
-/

namespace MvcBackend.TokenLifetime

open MvcBackend.JsonValues
open MvcBackend.Authentication
open MvcBackend.PicoJson
open MvcBackend.PicoJsonRoundTrip
open MvcBackend.TokenVerification
open MvcBackend.TokenVerification.Platform
open MvcBackend.TokenDates
open MvcBackend.TokenAcceptance
open MvcBackend.Configuration

/-- The platform when its clock shows `now`. -/
def clockAt (p : Platform) (now : Int) : Platform := { p with now := now }

/-- A token that is accepted at some moment is accepted, for the same subject,
at every moment from its dates less the leeway up to its expiry plus the leeway,
and at no other; where it has no expiry, for ever. No date may leave what the
clock can represent, neither by itself nor with the leeway. -/
theorem token_lifetime (p : Platform) (config : AuthConfig) (leeway : Int) (token subject : Str)
    (jwt : DecodedJwt) (moment : Int) (hleeway : IsInt leeway)
    (hconfig : config.jwtLeewaySecs = sizeOfInt leeway) (hjwt : p.decode token = .ok jwt)
    (hrange : DatesInRange leeway jwt.payloadClaims)
    (haccepted : verifyAuth (clockAt p moment).jwt config token = .ok subject) (now : Int) :
    verifyAuth (clockAt p now).jwt config token = .ok subject ↔
      Within leeway jwt.payloadClaims now := by
  have hdecodes : ∀ now jwt', Decodes (clockAt p now) token jwt' ↔ jwt' = jwt := by
    intro now jwt'
    rw [← decode_eq_ok_iff]
    show p.decode token = .ok jwt' ↔ _
    rw [hjwt, Except.ok.injEq, eq_comm]
  rw [verifyAuth_eq_ok, hconfig] at haccepted ⊢
  obtain ⟨jwt', hjwt', hverifies, hsubject⟩ := accepted_iff.mp haccepted
  obtain rfl := (hdecodes moment jwt').mp hjwt'
  have hintegers := ((inTime_iff_within hleeway hrange).mp hverifies.in_time).1
  rw [accepted_iff]
  constructor
  · rintro ⟨jwt', hjwt', hverifies', -⟩
    obtain rfl := (hdecodes now jwt').mp hjwt'
    exact ((inTime_iff_within hleeway hrange).mp hverifies'.in_time).2
  · intro hwithin
    refine ⟨jwt', (hdecodes now jwt').mpr rfl, ?_, hsubject⟩
    exact { hverifies with in_time := (inTime_iff_within hleeway hrange).mpr ⟨hintegers, hwithin⟩ }

def strictConfig : AuthConfig := { echoConfig with jwtLeewaySecs := sizeOfInt (-10) }

/-- Ten seconds before it expires the token is still accepted, and then no more. -/
theorem token_lifetime_negative_leeway :
    verifyAuth (clockAt echoPlatform (1700000020 * 10 ^ 9)).jwt strictConfig
        (sign id [] echoClaims) = .ok [0xFF, 0x22, 0x00] ∧
      verifyAuth (clockAt echoPlatform (1700000020 * 10 ^ 9 + 1)).jwt strictConfig
        (sign id [] echoClaims) ≠ .ok [0xFF, 0x22, 0x00] := by
  have hheader : Value.Plain (.object []) := ⟨List.Pairwise.nil, trivial⟩
  obtain ⟨jwt, hdecodes, -, -, hclaims⟩ :=
    decodes_sign (p := echoPlatform) id hheader plain_echoClaims
  have hrange : DatesInRange (-10) jwt.payloadClaims := by
    rw [hclaims]
    refine ⟨fun date hdate => ?_, fun date hdate => ?_, fun date hdate => ?_⟩
    · obtain rfl : 1700000030 = date := Value.int64.inj (Option.some.inj hdate)
      exact ⟨by show IsInt64 _; decide, by show IsInt64 _; decide⟩
    · cases hdate
    · cases hdate
  have htime : InTime (clockAt echoPlatform (1700000020 * 10 ^ 9)) strictConfig.jwtLeewaySecs
      echoClaims := by
    refine ⟨fun claim h => ?_, fun claim h => ?_, fun claim h => ?_⟩
    · exact ⟨1700000030, (Option.some.inj h).symm, by decide⟩
    · cases h
    · cases h
  have hkey : (clockAt echoPlatform (1700000020 * 10 ^ 9)).rs256 strictConfig.publicKey =
      .ok ⟨str "key"⟩ := rfl
  have haccepted : verifyAuth (clockAt echoPlatform (1700000020 * 10 ^ 9)).jwt strictConfig
      (sign id [] echoClaims) = .ok [0xFF, 0x22, 0x00] :=
    verifyAuth_eq_ok.mpr ((accepted_sign_iff id hkey rsaVerify_echo hheader
      plain_echoClaims).mpr ⟨htime, rfl, rfl⟩)
  refine ⟨haccepted, fun hlate => ?_⟩
  have hwithin := (token_lifetime echoPlatform strictConfig (-10) _ _ jwt _
    (by decide) rfl (decode_eq_ok_iff.mpr hdecodes) hrange haccepted _).mp hlate
  have hexp := hwithin.1 1700000030 (by rw [hclaims]; rfl)
  revert hexp
  decide

end MvcBackend.TokenLifetime
