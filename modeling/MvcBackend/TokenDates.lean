import MvcBackend.Configuration
import MvcBackend.TokenVerification

/-!
The dates of a token: whether now is between them is a matter of ticks, of which
a `size_t` of seconds makes a leeway that may be negative.
-/

namespace MvcBackend.TokenDates

open MvcBackend.JsonValues
open MvcBackend.PicoJson
open MvcBackend.TokenVerification
open MvcBackend.TokenVerification.Platform
open MvcBackend.Configuration

/-- What the verifier computes, tick by tick. -/
def InTime (p : Platform) (leeway : Nat) (payload : Claims) : Prop :=
  (∀ claim, payload.lookup (str "exp") = some claim →
    ∃ exp, claim = .int64 exp ∧ p.now ≤ p.ticks (p.fromSeconds exp + p.leewayTicks leeway)) ∧
  (∀ claim, payload.lookup (str "iat") = some claim →
    ∃ iat, claim = .int64 iat ∧ p.ticks (p.fromSeconds iat - p.leewayTicks leeway) ≤ p.now) ∧
  (∀ claim, payload.lookup (str "nbf") = some claim →
    ∃ nbf, claim = .int64 nbf ∧ p.ticks (p.fromSeconds nbf - p.leewayTicks leeway) ≤ p.now)

section

variable {p : Platform} {leeway : Nat}

theorem checkDate_eq_ok {payload : Claims} {name : Str} {late : Int → Bool} {u : Unit} :
    p.checkDate payload name late = .ok u ↔
      ∀ claim, payload.lookup name = some claim →
        ∃ n, claim = .int64 n ∧ late (p.fromSeconds n) = false := by
  rw [checkDate]
  rcases payload.lookup name with _ | claim
  · simp
  · rcases claim with _ | _ | n | _ | _ | _ | _ <;>
      simp [asDate, asInt, Except.map, bind, Except.bind]
    split <;> simp_all [pure, Except.pure, throw, throwThe, MonadExceptOf.throw]

theorem inTime_iff {payload : Claims} :
    InTime p leeway payload ↔
      p.checkDate payload (str "exp") (fun exp => p.now > p.ticks (exp + p.leewayTicks leeway)) =
        .ok () ∧
      p.checkDate payload (str "iat") (fun iat => p.now < p.ticks (iat - p.leewayTicks leeway)) =
        .ok () ∧
      p.checkDate payload (str "nbf") (fun nbf => p.now < p.ticks (nbf - p.leewayTicks leeway)) =
        .ok () := by
  simp only [InTime, checkDate_eq_ok, decide_eq_false_iff_not, gt_iff_lt, not_lt]

end

/-! ### Dates that the clock can represent -/

/-- So many seconds are a number of ticks. -/
def Representable (seconds : Int) : Prop := IsInt64 (seconds * 10 ^ 9)

/-- No date leaves what the clock can represent, neither as it is nor with the leeway. -/
structure DatesInRange (leeway : Int) (payload : Claims) : Prop where
  exp : ∀ exp, payload.lookup (str "exp") = some (.int64 exp) →
    Representable exp ∧ Representable (exp + leeway)
  iat : ∀ iat, payload.lookup (str "iat") = some (.int64 iat) →
    Representable iat ∧ Representable (iat - leeway)
  nbf : ∀ nbf, payload.lookup (str "nbf") = some (.int64 nbf) →
    Representable nbf ∧ Representable (nbf - leeway)

section

variable (p : Platform)

theorem ticks_of_isInt64 {n : Int} (h : IsInt64 n) : p.ticks n = n := if_pos h

/-- The `size_t` that an `int` is cast to is cast back to the same number. -/
theorem leewayTicks_sizeOfInt {leeway : Int} (h : IsInt leeway) :
    p.leewayTicks (sizeOfInt leeway) = leeway * 10 ^ 9 := by
  obtain ⟨hlo, hhi⟩ := h
  have hcast : ((sizeOfInt leeway : Nat) : Int).bmod (2 ^ 64) = leeway := by
    rw [sizeOfInt, Int.toNat_of_nonneg (Int.emod_nonneg _ (by decide))]
    have hmod : (leeway % 2 ^ 64).bmod (2 ^ 64) = leeway.bmod (2 ^ 64) := Int.emod_bmod leeway _
    rw [hmod]
    exact Int.bmod_eq_of_le (by omega) (by omega)
  rw [leewayTicks, hcast, fromSeconds]
  exact ticks_of_isInt64 p ⟨by omega, by omega⟩

variable {leeway date : Int}

theorem fromSeconds_eq (h : Representable date) : p.fromSeconds date = date * 10 ^ 9 :=
  ticks_of_isInt64 p h

theorem latest_eq (hleeway : IsInt leeway) (hdate : Representable date)
    (hlatest : Representable (date + leeway)) :
    p.ticks (p.fromSeconds date + p.leewayTicks (sizeOfInt leeway)) = (date + leeway) * 10 ^ 9 := by
  rw [fromSeconds_eq p hdate, leewayTicks_sizeOfInt p hleeway, ← Int.add_mul]
  exact ticks_of_isInt64 p hlatest

theorem earliest_eq (hleeway : IsInt leeway) (hdate : Representable date)
    (hearliest : Representable (date - leeway)) :
    p.ticks (p.fromSeconds date - p.leewayTicks (sizeOfInt leeway)) = (date - leeway) * 10 ^ 9 := by
  rw [fromSeconds_eq p hdate, leewayTicks_sizeOfInt p hleeway, ← Int.sub_mul]
  exact ticks_of_isInt64 p hearliest

end

/-- The dates of a payload are integers, and `now` is within them and the leeway. -/
def Within (leeway : Int) (payload : Claims) (now : Int) : Prop :=
  (∀ exp, payload.lookup (str "exp") = some (.int64 exp) → now ≤ (exp + leeway) * 10 ^ 9) ∧
  (∀ iat, payload.lookup (str "iat") = some (.int64 iat) → (iat - leeway) * 10 ^ 9 ≤ now) ∧
  (∀ nbf, payload.lookup (str "nbf") = some (.int64 nbf) → (nbf - leeway) * 10 ^ 9 ≤ now)

def DatesAreIntegers (payload : Claims) : Prop :=
  ∀ name ∈ [str "exp", str "iat", str "nbf"], ∀ claim,
    payload.lookup name = some claim → ∃ date, claim = .int64 date

theorem date_iff {payload : Claims} {name : Str} (holds holds' : Int → Prop)
    (h : ∀ date, payload.lookup name = some (.int64 date) → (holds date ↔ holds' date)) :
    (∀ claim, payload.lookup name = some claim → ∃ date, claim = .int64 date ∧ holds date) ↔
      (∀ claim, payload.lookup name = some claim → ∃ date, claim = .int64 date) ∧
      ∀ date, payload.lookup name = some (.int64 date) → holds' date := by
  constructor
  · intro hall
    constructor
    · intro claim hclaim
      obtain ⟨date, hdate, -⟩ := hall claim hclaim
      exact ⟨date, hdate⟩
    · intro date hdate
      obtain ⟨date', heq, hholds⟩ := hall _ hdate
      obtain rfl := Value.int64.inj heq
      exact (h date hdate).mp hholds
  · rintro ⟨hinteger, hall⟩ claim hclaim
    obtain ⟨date, rfl⟩ := hinteger claim hclaim
    exact ⟨date, rfl, (h date hclaim).mpr (hall date hclaim)⟩

/-- Where the dates are in range, the ticks are seconds of the usual kind. -/
theorem inTime_iff_within {p : Platform} {leeway : Int} {payload : Claims}
    (hleeway : IsInt leeway) (hrange : DatesInRange leeway payload) :
    InTime p (sizeOfInt leeway) payload ↔
      DatesAreIntegers payload ∧ Within leeway payload p.now := by
  have hexp := date_iff
    (fun exp => p.now ≤ p.ticks (p.fromSeconds exp + p.leewayTicks (sizeOfInt leeway)))
    (fun exp => p.now ≤ (exp + leeway) * 10 ^ 9)
    (fun exp (h : payload.lookup (str "exp") = some (.int64 exp)) => by
      rw [latest_eq p hleeway (hrange.exp exp h).1 (hrange.exp exp h).2])
  have hfrom : ∀ name, (∀ date, payload.lookup name = some (.int64 date) →
      Representable date ∧ Representable (date - leeway)) → _ := fun name hname =>
    date_iff
      (fun date => p.ticks (p.fromSeconds date - p.leewayTicks (sizeOfInt leeway)) ≤ p.now)
      (fun date => (date - leeway) * 10 ^ 9 ≤ p.now)
      (fun date (h : payload.lookup name = some (.int64 date)) => by
        rw [earliest_eq p hleeway (hname date h).1 (hname date h).2])
  rw [InTime, hexp, hfrom (str "iat") hrange.iat, hfrom (str "nbf") hrange.nbf, DatesAreIntegers,
    Within]
  simp only [List.forall_mem_cons, List.not_mem_nil, false_implies, implies_true, and_true]
  constructor
  · rintro ⟨⟨hexp, hexp'⟩, ⟨hiat, hiat'⟩, hnbf, hnbf'⟩
    exact ⟨⟨hexp, hiat, hnbf⟩, hexp', hiat', hnbf'⟩
  · rintro ⟨⟨hexp, hiat, hnbf⟩, hexp', hiat', hnbf'⟩
    exact ⟨⟨hexp, hexp'⟩, ⟨hiat, hiat'⟩, hnbf, hnbf'⟩

end MvcBackend.TokenDates
