import Mathlib.Data.List.Basic

/-!
Machines that answer what they are given: which inputs of a run may be left
out, and how what a run did is rebuilt from a record of its answers.
-/

namespace MvcBackend.Library.Machines

structure Machine (σ ι ω : Type) where
  next : σ → ι → σ
  answer : σ → ι → ω

variable {σ ι ω κ ρ : Type}

/-- The entries at the positions that are kept. -/
def keepAt (keep : Nat → Bool) : List κ → List κ
  | [] => []
  | k :: list =>
      let rest := keepAt (fun n => keep (n + 1)) list
      if keep 0 then k :: rest else rest

namespace Machine

variable (m : Machine σ ι ω)

def run (s : σ) (inputs : List ι) : σ := inputs.foldl m.next s

/-- Every input of a run, with its answer. -/
def transcript : σ → List ι → List (ι × ω)
  | _, [] => []
  | s, i :: inputs => (i, m.answer s i) :: transcript (m.next s i) inputs

@[simp] theorem run_nil (s : σ) : m.run s [] = s := rfl

@[simp] theorem run_cons (s : σ) (i : ι) (inputs : List ι) :
    m.run s (i :: inputs) = m.run (m.next s i) inputs := rfl

theorem run_append (s : σ) (inputs inputs' : List ι) :
    m.run s (inputs ++ inputs') = m.run (m.run s inputs) inputs' := List.foldl_append

theorem transcript_append (s : σ) (inputs inputs' : List ι) :
    m.transcript s (inputs ++ inputs') =
      m.transcript s inputs ++ m.transcript (m.run s inputs) inputs' := by
  induction inputs generalizing s with
  | nil => rfl
  | cons i inputs ih => simp [transcript, ih]

theorem length_transcript (s : σ) (inputs : List ι) :
    (m.transcript s inputs).length = inputs.length := by
  induction inputs generalizing s with
  | nil => rfl
  | cons i inputs ih => simp [transcript, ih]

/-- Every input is answered from where the inputs before it led to. -/
theorem mem_transcript {s : σ} {inputs : List ι} {entry : ι × ω} :
    entry ∈ m.transcript s inputs ↔
      ∃ before i after, inputs = before ++ i :: after ∧
        entry = (i, m.answer (m.run s before) i) := by
  constructor
  · intro h
    induction inputs generalizing s with
    | nil => cases h
    | cons i inputs ih =>
        rcases List.mem_cons.mp h with rfl | h
        · exact ⟨[], i, inputs, rfl, rfl⟩
        · obtain ⟨before, j, after, rfl, rfl⟩ := ih h
          exact ⟨i :: before, j, after, rfl, rfl⟩
  · rintro ⟨before, i, after, rfl, rfl⟩
    rw [transcript_append]
    exact List.mem_append_right _ List.mem_cons_self

/-- What the steps keep holds at the end of the run. -/
theorem run_invariant {P : σ → Prop} {inputs : List ι}
    (hnext : ∀ s, ∀ i ∈ inputs, P s → P (m.next s i)) {s : σ} (hs : P s) :
    P (m.run s inputs) := by
  induction inputs generalizing s with
  | nil => exact hs
  | cons i inputs ih =>
      have hi := hnext s i List.mem_cons_self hs
      exact ih (fun s j hj => hnext s j (List.mem_cons_of_mem i hj)) hi

/-- The same for what depends on the number of steps. -/
theorem run_counted {P : Nat → σ → Prop} (hnext : ∀ n s i, P n s → P (n + 1) (m.next s i))
    {n : Nat} {s : σ} (hs : P n s) (inputs : List ι) : P (n + inputs.length) (m.run s inputs) := by
  induction inputs generalizing n s with
  | nil => exact hs
  | cons i inputs ih =>
      have hrest := ih (hnext n s i hs)
      rwa [Nat.add_assoc, Nat.add_comm 1, ← List.length_cons (a := i)] at hrest

/-- Inputs that change no state may be left out, at whichever positions: the run
ends as it did, and whoever gave the others is answered as before. -/
theorem run_keepAt {P : σ → Prop} {inputs : List ι} {keep : Nat → Bool}
    (hnext : ∀ s, ∀ i ∈ inputs, P s → P (m.next s i))
    (hsilent : ∀ s n i, inputs[n]? = some i → keep n = false → P s → m.next s i = s) {s : σ}
    (hs : P s) :
    m.run s (keepAt keep inputs) = m.run s inputs ∧
      m.transcript s (keepAt keep inputs) = keepAt keep (m.transcript s inputs) := by
  induction inputs generalizing s keep with
  | nil => exact ⟨rfl, rfl⟩
  | cons i inputs ih =>
      have hsilent' : ∀ s n j, inputs[n]? = some j → keep (n + 1) = false → P s → m.next s j = s :=
        fun s n j hj => hsilent s (n + 1) j hj
      have hrest := ih (fun s j hj => hnext s j (List.mem_cons_of_mem i hj)) hsilent'
        (hnext s i List.mem_cons_self hs)
      cases hkeep : keep 0 with
      | true => simpa [keepAt, hkeep, transcript] using hrest
      | false =>
          have hsame : m.next s i = s := hsilent s 0 i rfl hkeep hs
          rw [hsame] at hrest
          simpa [keepAt, hkeep, transcript, hsame] using hrest

/-- What a run leaves behind agrees with the log of all its answers, if every
step adds to the log what it does to the state. -/
theorem log_invariant (m : Machine σ ι (List κ)) {P : List κ → σ → Prop}
    (hnext : ∀ log s i, P log s → P (log ++ m.answer s i) (m.next s i)) {log : List κ} {s : σ}
    (hs : P log s) (inputs : List ι) :
    P (log ++ (m.transcript s inputs).flatMap Prod.snd) (m.run s inputs) := by
  induction inputs generalizing log s with
  | nil => simpa [transcript] using hs
  | cons i inputs ih => simpa [transcript] using ih (hnext log s i hs)

/-- What the transcript of a run puts on record. -/
def recorded (record : ι → ω → Option κ) (s : σ) (inputs : List ι) : List κ :=
  (m.transcript s inputs).filterMap fun entry => record entry.1 entry.2

theorem recorded_cons (record : ι → ω → Option κ) (s : σ) (i : ι) (inputs : List ι) :
    m.recorded record s (i :: inputs) =
      (record i (m.answer s i)).toList ++ m.recorded record (m.next s i) inputs := by
  rcases hrecord : record i (m.answer s i) with _ | k <;> simp [recorded, transcript, hrecord]

theorem length_recorded_le (record : ι → ω → Option κ) (s : σ) (inputs : List ι) :
    (m.recorded record s inputs).length ≤ inputs.length := by
  rw [← m.length_transcript s inputs]
  exact List.length_filterMap_le _ _

end Machine

/-- The entries of a record, done again one after the other. -/
inductive Replays (redo : ρ → κ → ρ → Prop) : ρ → List κ → ρ → Prop where
  | nil (r : ρ) : Replays redo r [] r
  | cons {r r' r'' : ρ} {k : κ} {record : List κ} (hredo : redo r k r')
      (hreplays : Replays redo r' record r'') : Replays redo r (k :: record) r''

theorem Replays.unique {redo : ρ → κ → ρ → Prop}
    (hredo : ∀ r k r' r'', redo r k r' → redo r k r'' → r' = r'') {r r' r'' : ρ} {record : List κ}
    (h : Replays redo r record r') (h' : Replays redo r record r'') : r' = r'' := by
  induction h with
  | nil r =>
      cases h'
      rfl
  | cons hfirst _ ih =>
      cases h' with
      | cons hfirst' hrest =>
          obtain rfl := hredo _ _ _ _ hfirst hfirst'
          exact ih hrest

/-- A record rebuilds what the run did, as far as `R` sees it, where every step
either goes on record and is done again alike, or is not seen. -/
theorem Machine.replays_recorded (m : Machine σ ι ω) {record : ι → ω → Option κ}
    {redo : ρ → κ → ρ → Prop} {R : ρ → σ → Prop}
    (hstep : ∀ r s i, R r s →
      (record i (m.answer s i) = none ∧ R r (m.next s i)) ∨
        ∃ k r', record i (m.answer s i) = some k ∧ redo r k r' ∧ R r' (m.next s i))
    {r : ρ} {s : σ} (hrelated : R r s) (inputs : List ι) :
    ∃ r', Replays redo r (m.recorded record s inputs) r' ∧ R r' (m.run s inputs) := by
  induction inputs generalizing r s with
  | nil => exact ⟨r, .nil r, hrelated⟩
  | cons i inputs ih =>
      rcases hstep r s i hrelated with ⟨hnone, hsame⟩ | ⟨k, r', hsome, hredo, hnext⟩
      · obtain ⟨r'', hreplays, hend⟩ := ih hsame
        refine ⟨r'', ?_, hend⟩
        rwa [m.recorded_cons, hnone]
      · obtain ⟨r'', hreplays, hend⟩ := ih hnext
        refine ⟨r'', ?_, hend⟩
        rw [m.recorded_cons, hsome]
        exact .cons hredo hreplays

end MvcBackend.Library.Machines
