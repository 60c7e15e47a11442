import MvcBackend.Library.Transaction

/-!
Which errors a computation can end in, by its parts.
-/

namespace MvcBackend.Library.Failures

open MvcBackend.Library.Transaction

variable {ε ε' α β : Type}

/-- If the computation ends in an error, it is one of these. -/
def FailsIn (P : ε → Prop) (x : Except ε α) : Prop := ∀ e, x = .error e → P e

namespace FailsIn

variable {P Q : ε → Prop}

theorem ok (a : α) : FailsIn P (.ok a) := by
  intro e h
  cases h

theorem error {e : ε} (he : P e) : FailsIn P (.error e : Except ε α) := by
  intro e' h
  exact Except.error.inj h ▸ he

theorem mono {x : Except ε α} (hx : FailsIn P x) (h : ∀ e, P e → Q e) : FailsIn Q x :=
  fun e he => h e (hx e he)

theorem bind {x : Except ε α} {f : α → Except ε β} (hx : FailsIn P x)
    (hf : ∀ a, x = .ok a → FailsIn P (f a)) : FailsIn P (x >>= f) := by
  intro e h
  rcases bind_eq_error.mp h with hleft | ⟨a, ha, hright⟩
  · exact hx e hleft
  · exact hf a ha e hright

theorem map {x : Except ε α} (hx : FailsIn P x) (f : α → β) : FailsIn P (x.map f) := by
  rcases x with e | a
  · exact error (hx e rfl)
  · exact ok (f a)

theorem mapError {f : ε' → ε} {x : Except ε' α} (hx : FailsIn (fun e => P (f e)) x) :
    FailsIn P (x.mapError f) := by
  rcases x with e | a
  · exact error (hx e rfl)
  · exact ok a

end FailsIn

end MvcBackend.Library.Failures
