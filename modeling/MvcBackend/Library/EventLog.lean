import Mathlib.Data.List.Induction

/-!
Statements about the past of a system, over a log of its events with the
oldest first: an event happened and nothing undid it since.
-/

namespace MvcBackend.Library.EventLog

variable {ε : Type}

/-- Some event of the log satisfies `start`, and none after it satisfies `stop`. -/
def Since (start stop : ε → Prop) (log : List ε) : Prop :=
  ∃ before event after, log = before ++ event :: after ∧ start event ∧
    ∀ later ∈ after, ¬ stop later

variable {start stop : ε → Prop}

@[simp] theorem not_since_nil : ¬ Since start stop [] := by
  rintro ⟨before, event, after, hlog, -⟩
  simp at hlog

theorem since_append_singleton (log : List ε) (event : ε) :
    Since start stop (log ++ [event]) ↔
      start event ∨ (Since start stop log ∧ ¬ stop event) := by
  constructor
  · rintro ⟨before, first, after, hlog, hstart, hafter⟩
    rcases List.eq_nil_or_concat after with rfl | ⟨kept, last, rfl⟩
    · obtain ⟨-, rfl⟩ : log = before ∧ event = first := by simpa using hlog
      exact .inl hstart
    · have hsplit : log ++ [event] = (before ++ first :: kept) ++ [last] := by simpa using hlog
      obtain ⟨rfl, hlast⟩ := List.append_inj' hsplit rfl
      obtain rfl : event = last := by simpa using hlast
      refine .inr ⟨⟨before, first, kept, rfl, hstart, ?_⟩, ?_⟩
      · intro later hlater
        exact hafter later (by simp [hlater])
      · exact hafter event (by simp)
  · rintro (hstart | ⟨⟨before, first, after, rfl, hstart, hafter⟩, hstop⟩)
    · exact ⟨log, event, [], rfl, hstart, by simp⟩
    · refine ⟨before, first, after ++ [event], by simp, hstart, ?_⟩
      intro later hlater
      rcases List.mem_append.mp hlater with h | h
      · exact hafter later h
      · obtain rfl : later = event := by simpa using h
        exact hstop

/-- Where every event that counts stops the others, the last of them decides. -/
theorem last_cases (stop : ε → Prop) (log : List ε) :
    (∀ event ∈ log, ¬ stop event) ∨ ∃ event, stop event ∧ Since (· = event) stop log := by
  induction log using List.reverseRecOn with
  | nil => simp
  | append_singleton log last ih =>
      by_cases hlast : stop last
      · exact .inr ⟨last, hlast, (since_append_singleton log last).mpr (.inl rfl)⟩
      · rcases ih with hnone | ⟨event, hevent, hsince⟩
        · left
          intro event hmem
          rcases List.mem_append.mp hmem with h | h
          · exact hnone event h
          · obtain rfl : event = last := by simpa using h
            exact hlast
        · exact .inr ⟨event, hevent, (since_append_singleton log last).mpr (.inr ⟨hsince, hlast⟩)⟩

/-- At most one event is the last that counts. -/
theorem Since.unique {stop : ε → Prop} {log : List ε} {a b : ε} (ha : Since (· = a) stop log)
    (hb : Since (· = b) stop log) (hstopA : stop a) (hstopB : stop b) : a = b := by
  induction log using List.reverseRecOn with
  | nil => simp at ha
  | append_singleton log last ih =>
      rcases (since_append_singleton log last).mp ha with rfl | ⟨ha, hlast⟩
      · rcases (since_append_singleton log last).mp hb with rfl | ⟨-, hlast⟩
        · rfl
        · exact absurd hstopA hlast
      · rcases (since_append_singleton log last).mp hb with rfl | ⟨hb, -⟩
        · exact absurd hstopB hlast
        · exact ih ha hb

theorem Since.exists_mem {log : List ε} (h : Since start stop log) :
    ∃ event ∈ log, start event := by
  obtain ⟨before, event, after, rfl, hstart, -⟩ := h
  exact ⟨event, by simp, hstart⟩

end MvcBackend.Library.EventLog
