import Mathlib.Data.List.Basic

/-!
Computations that keep a log of what they do, also where they throw. What such a
computation comes out as does not depend on the log, and what holds of every
event of the log is proved along the computation.
-/

namespace MvcBackend.Library.Tracing

abbrev Traced (η ε α : Type) := EStateM ε (List η) α

variable {η ε α β γ δ : Type}

def record (event : η) : Traced η ε Unit := fun log => .ok () (log ++ [event])

/-- How a run came out, without its log. -/
def value : EStateM.Result ε (List η) α → Except ε α
  | .ok a _ => .ok a
  | .error e _ => .error e

theorem bind_apply (m : Traced η ε α) (k : α → Traced η ε β) (log : List η) :
    (m >>= k) log = match m log with
      | .ok a log' => k a log'
      | .error e log' => .error e log' := by
  cases h : m log <;> simp [bind, EStateM.bind, h]

/-- Whatever the log, `m` comes out as `x`, seen through `view`. -/
def Erases (view : α → γ) (m : Traced η ε α) (x : Except ε γ) : Prop :=
  ∀ log, (value (m log)).map view = x

namespace Erases

variable {view : α → γ} {view' : β → δ}

theorem pure (a : α) : Erases view (pure a : Traced η ε α) (.ok (view a)) := by
  intro log
  rfl

theorem ofExcept (x : Except ε α) : Erases id (MonadExcept.ofExcept x : Traced η ε α) x := by
  intro log
  cases x <;> rfl

theorem bind {m : Traced η ε α} {k : α → Traced η ε β} {x : Except ε γ} {f : γ → Except ε δ}
    (hm : Erases view m x) (hk : ∀ a, Erases view' (k a) (f (view a))) :
    Erases view' (m >>= k) (x >>= f) := by
  intro log
  rw [bind_apply, ← hm log]
  rcases m log with ⟨a, log'⟩ | ⟨e, log'⟩
  · exact hk a log'
  · rfl

/-- To record an event is nothing to the rest. -/
theorem after_record {m : Traced η ε α} {x : Except ε γ} (h : Erases view m x) (event : η) :
    Erases view (do record event; m) x := by
  intro log
  exact h (log ++ [event])

end Erases

/-- From a log of such events `m` returns, with a value that satisfies `Q` and a
log of such events. -/
def Keeps (P : η → Prop) (m : Traced η ε α) (Q : α → Prop) : Prop :=
  ∀ log, (∀ event ∈ log, P event) →
    ∃ a log', m log = .ok a log' ∧ (∀ event ∈ log', P event) ∧ Q a

namespace Keeps

variable {P : η → Prop} {Q : α → Prop} {R : β → Prop}

theorem pure {a : α} (h : Q a) : Keeps P (pure a : Traced η ε α) Q := by
  intro log hlog
  exact ⟨a, log, rfl, hlog, h⟩

theorem record {event : η} (h : P event) :
    Keeps P (record event : Traced η ε Unit) fun _ => True := by
  intro log hlog
  refine ⟨(), log ++ [event], rfl, ?_, trivial⟩
  intro other hother
  rcases List.mem_append.mp hother with hold | hnew
  · exact hlog other hold
  · obtain rfl : other = event := by simpa using hnew
    exact h

theorem bind {m : Traced η ε α} {k : α → Traced η ε β} (hm : Keeps P m Q)
    (hk : ∀ a, Q a → Keeps P (k a) R) : Keeps P (m >>= k) R := by
  intro log hlog
  obtain ⟨a, log', hrun, hlog', ha⟩ := hm log hlog
  obtain ⟨b, log'', hrun', hlog'', hb⟩ := hk a ha log' hlog'
  refine ⟨b, log'', ?_, hlog'', hb⟩
  rw [bind_apply, hrun]
  exact hrun'

theorem after_record {m : Traced η ε α} {event : η} (h : P event) (hm : Keeps P m Q) :
    Keeps P (do Tracing.record event; m) Q :=
  (Keeps.record h).bind fun _ _ => hm

theorem mono {Q' : α → Prop} {m : Traced η ε α} (h : Keeps P m Q) (hQ : ∀ a, Q a → Q' a) :
    Keeps P m Q' := by
  intro log hlog
  obtain ⟨a, log', hrun, hlog', ha⟩ := h log hlog
  exact ⟨a, log', hrun, hlog', hQ a ha⟩

end Keeps

end MvcBackend.Library.Tracing
