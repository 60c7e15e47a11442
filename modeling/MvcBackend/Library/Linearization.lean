import MvcBackend.Library.Serialization

/-!
Interleavings that end anywhere, some clients being without an answer. What
has happened is what serving those that have one does, in the order in which
they got it; and that order agrees with the times at which answers are sent.
-/

namespace MvcBackend.Library.Serialization

variable {ι σ ρ α : Type}

def Progress.isDone : Progress ρ α → Bool
  | .done _ => true
  | _ => false

namespace Protocol

variable [DecidableEq ι] (p : Protocol ι σ ρ α) (reaches : ι → ρ → Bool)

/-- The client, if its next step gives it its answer. -/
def completingStep (i : ι) (c : Snapshot ι σ ρ α) : List ι :=
  if !(c.progress i).isDone && ((p.advance i c).progress i).isDone then [i] else []

/-- The clients in the order of their answers. -/
def completing : List ι → Snapshot ι σ ρ α → List ι
  | [], _ => []
  | i :: schedule, c => p.completingStep i c ++ completing schedule (p.advance i c)

variable {p reaches}

theorem completing_append (schedule schedule' : List ι) (c : Snapshot ι σ ρ α) :
    p.completing (schedule ++ schedule') c =
      p.completing schedule c ++ p.completing schedule' (p.run schedule c) := by
  induction schedule generalizing c with
  | nil => rfl
  | cons i schedule ih =>
      simp only [List.cons_append, completing, ih, List.append_assoc]
      rfl

theorem completing_concat (schedule : List ι) (i : ι) (c : Snapshot ι σ ρ α) :
    p.completing (schedule ++ [i]) c =
      p.completing schedule c ++ p.completingStep i (p.run schedule c) := by
  rw [completing_append, completing, completing, List.append_nil]

theorem advance_progress_of_ne {i j : ι} (hne : j ≠ i) (c : Snapshot ι σ ρ α) :
    (p.advance i c).progress j = c.progress j := by
  rw [advance]
  split <;> simp [Snapshot.put, hne]

theorem progress_run_of_not_mem {schedule : List ι} {i : ι} (hi : i ∉ schedule)
    (c : Snapshot ι σ ρ α) : (p.run schedule c).progress i = c.progress i := by
  induction schedule generalizing c with
  | nil => rfl
  | cons j schedule ih =>
      obtain ⟨hne, hi⟩ := not_or.mp (mt List.mem_cons.mpr hi)
      exact (ih hi (p.advance j c)).trans (advance_progress_of_ne hne c)

/-- An answer does not change any more. -/
theorem advance_progress_of_done {i j : ι} {a : α} {c : Snapshot ι σ ρ α}
    (h : c.progress j = .done a) : (p.advance i c).progress j = .done a := by
  by_cases hij : j = i
  · subst hij
    simp only [advance, h]
  · rw [advance_progress_of_ne hij, h]

theorem isDone_advance {i j : ι} {c : Snapshot ι σ ρ α} (h : (c.progress j).isDone = true) :
    ((p.advance i c).progress j).isDone = true := by
  rcases hprogress : c.progress j with _ | seen | a
  · simp [hprogress, Progress.isDone] at h
  · simp [hprogress, Progress.isDone] at h
  · rw [advance_progress_of_done hprogress]
    rfl

/-- Each client is answered once, and is on the list from then on. -/
theorem completing_spec (schedule : List ι) (s : σ) :
    (p.completing schedule (.start s)).Nodup ∧
      ∀ i, i ∈ p.completing schedule (.start s) ↔
        ((p.run schedule (.start s)).progress i).isDone = true := by
  induction schedule using List.reverseRecOn with
  | nil => simp [completing, run, Snapshot.start, Progress.isDone]
  | append_singleton schedule j ih =>
      obtain ⟨hnodup, hmem⟩ := ih
      rw [completing_concat, run_concat, completingStep]
      split
      · next hstep =>
          simp only [Bool.and_eq_true, Bool.not_eq_true'] at hstep
          have hfresh : j ∉ p.completing schedule (.start s) := by
            simp [hmem, hstep.1]
          refine ⟨?_, fun i => ?_⟩
          · rw [List.nodup_append]
            refine ⟨hnodup, by simp, ?_⟩
            intro i hi k hk
            obtain rfl : k = j := by simpa using hk
            exact ne_of_mem_of_not_mem hi hfresh
          · by_cases hi : i = j
            · simp [hi, hstep.2]
            · simp [hi, hmem, advance_progress_of_ne hi]
      · next hstep =>
          rw [List.append_nil]
          refine ⟨hnodup, fun i => ?_⟩
          rw [hmem]
          by_cases hi : i = j
          · subst hi
            refine ⟨isDone_advance, fun hdone => ?_⟩
            simpa [hdone] using hstep
          · rw [advance_progress_of_ne hi]

/-- An act that reaches the store gives its client the answer. -/
theorem reaching_sublist_completing (schedule : List ι) (c : Snapshot ι σ ρ α) :
    (p.reaching reaches schedule c).Sublist (p.completing schedule c) := by
  induction schedule generalizing c with
  | nil => exact List.nil_sublist _
  | cons i schedule ih =>
      refine List.Sublist.append ?_ (ih _)
      rcases hprogress : c.progress i with _ | seen | a
      · simp [Snapshot.reachingStep, hprogress]
      · have hstep : p.completingStep i c = [i] := by
          simp [completingStep, advance, hprogress, Snapshot.put, Progress.isDone]
        rw [hstep]
        exact c.reachingStep_sublist reaches i
      · simp [Snapshot.reachingStep, hprogress]

theorem count_turns (order : List ι) (i : ι) : (turns order).count i = 2 * order.count i := by
  induction order with
  | nil => rfl
  | cons j order ih =>
      show (j :: j :: turns order).count i = _
      by_cases hj : j = i
      · simp [hj, ih]
        omega
      · simp [hj, ih]

section

variable {s₀ : σ} {schedule acts : List ι}

/-- The acts that reach the store are those of the clients that are answered. -/
theorem Serial.reaching_eq_filter (h : p.Serial reaches) {order : List ι} (hnodup : order.Nodup)
    (hsublist : (p.reaching reaches schedule (.start s₀)).Sublist order)
    (hmem : ∀ i, p.reachesStore reaches s₀ i = true → (2 ≤ schedule.count i ↔ i ∈ order)) :
    p.reaching reaches schedule (.start s₀) = order.filter (p.reachesStore reaches s₀) := by
  refine eq_filter_of_sublist hsublist hnodup fun i => ?_
  rw [(h.tracks schedule).mem_iff, and_comm]
  exact and_congr_left (hmem i)

/-- A client is answered by its second step, or by its first where it fails to
look; what it is answered does not change any more. -/
theorem progressAfter_of_isDone {n : Nat} {i : ι}
    (h : (p.progressAfter s₀ n acts i).isDone = true) :
    p.progressAfter s₀ n acts i = p.progressAfter s₀ 2 acts i := by
  rcases n with _ | _ | n
  · simp [progressAfter, Progress.isDone] at h
  · simp only [progressAfter] at h ⊢
    rcases hlook : (p.look i s₀).1 with a | seen
    · simp [Progress.ofLook, answer, hlook]
    · simp [Progress.ofLook, Progress.isDone, hlook] at h
  · rfl

theorem isDone_progressAfter_iff {n : Nat} {i : ι} (hi : p.reachesStore reaches s₀ i = true) :
    (p.progressAfter s₀ n acts i).isDone = true ↔ 2 ≤ n := by
  rcases n with _ | _ | n
  · simp [progressAfter, Progress.isDone]
  · rcases hlook : (p.look i s₀).1 with a | seen
    · simp [reachesStore, hlook] at hi
    · simp [progressAfter, Progress.ofLook, Progress.isDone, hlook]
  · simp [progressAfter, Progress.isDone]

end

/-- Wherever an interleaving ends, the store and every answer so far are those
of serving the answered clients one after another, in the order of their
answers; the others have done nothing. -/
theorem Serial.linearizes (h : p.Serial reaches) (s₀ : σ) (schedule : List ι) :
    let order := p.completing schedule (.start s₀)
    let end_ := p.run schedule (.start s₀)
    let serial := p.inTurn order (.start s₀)
    order.Nodup ∧ end_.store = serial.store ∧
      (∀ i, i ∈ order ↔ (end_.progress i).isDone = true) ∧
      ∀ i ∈ order, end_.progress i = serial.progress i := by
  intro order end_ serial
  obtain ⟨hnodup, hmem⟩ := completing_spec (p := p) schedule s₀
  have ht : p.Tracks reaches s₀ schedule _ _ := h.tracks schedule
  have ht' : p.Tracks reaches s₀ (turns order) _ _ := h.tracks (turns order)
  have hserial : p.run (turns order) (.start s₀) = serial := run_turns hnodup _ fun _ _ => rfl
  have hacts : p.reaching reaches schedule (.start s₀) =
      order.filter (p.reachesStore reaches s₀) := by
    apply h.reaching_eq_filter hnodup (reaching_sublist_completing schedule _)
    intro i hi
    rw [hmem, ht.progress, isDone_progressAfter_iff hi]
  have hacts' : p.reaching reaches (turns order) (.start s₀) =
      order.filter (p.reachesStore reaches s₀) := by
    apply h.reaching_eq_filter hnodup (reaching_turns_sublist order _)
    intro i _
    have hcount : 0 < order.count i ↔ i ∈ order := List.count_pos_iff
    rw [count_turns, ← hcount]
    omega
  rw [hacts', ← hacts, hserial] at ht'
  refine ⟨hnodup, ht.store.trans ht'.store.symm, hmem, fun i hi => ?_⟩
  have hdone := (hmem i).mp hi
  have hcount : (turns order).count i = 2 := by
    rw [count_turns, List.count_eq_one_of_mem hnodup hi]
  rw [ht.progress] at hdone
  rw [ht.progress, ht'.progress, hcount]
  exact progressAfter_of_isDone hdone

end Protocol

/-! ### Answers on their way -/

/-- A client makes its next step, or the answer that it has is sent. -/
inductive Turn (ι : Type) where
  | step (i : ι)
  | reply (i : ι)

/-- The clients of the steps. -/
def steps (turns : List (Turn ι)) : List ι :=
  turns.filterMap fun
    | .step i => some i
    | .reply _ => none

/-- The store and the clients, with the answers that have been sent so far. -/
structure Delivery (ι σ ρ α : Type) where
  now : Snapshot ι σ ρ α
  sent : List (ι × α)

def Delivery.start (s : σ) : Delivery ι σ ρ α := ⟨.start s, []⟩

theorem steps_append (turns turns' : List (Turn ι)) :
    steps (turns ++ turns') = steps turns ++ steps turns' := List.filterMap_append

theorem mem_steps_iff {turns : List (Turn ι)} {i : ι} : i ∈ steps turns ↔ .step i ∈ turns := by
  simp only [steps, List.mem_filterMap]
  constructor
  · rintro ⟨_ | _, hturn, h⟩
    · cases h
      exact hturn
    · cases h
  · intro hturn
    exact ⟨.step i, hturn, rfl⟩

namespace Protocol

variable [DecidableEq ι] (p : Protocol ι σ ρ α)

/-- Nothing is sent before there is an answer, and nothing twice. -/
def turn (d : Delivery ι σ ρ α) : Turn ι → Delivery ι σ ρ α
  | .step i => { d with now := p.advance i d.now }
  | .reply i =>
      match d.now.progress i with
      | .done a => if i ∈ d.sent.map Prod.fst then d else { d with sent := d.sent ++ [(i, a)] }
      | _ => d

def deliver (turns : List (Turn ι)) (d : Delivery ι σ ρ α) : Delivery ι σ ρ α :=
  turns.foldl p.turn d

/-- What is sent is what the steps have led to. -/
structure Delivered (s : σ) (turns : List (Turn ι)) (d : Delivery ι σ ρ α) : Prop where
  now : d.now = p.run (steps turns) (.start s)
  sent : ∀ i a, (i, a) ∈ d.sent → d.now.progress i = .done a
  once : (d.sent.map Prod.fst).Nodup

variable {p} {s : σ} {turns : List (Turn ι)} {d : Delivery ι σ ρ α}

theorem Delivered.step (h : p.Delivered s turns d) (i : ι) :
    p.Delivered s (turns ++ [.step i]) { d with now := p.advance i d.now } where
  now := by
    rw [steps_append, h.now]
    exact (run_concat (steps turns) i _).symm
  sent j a hsent := advance_progress_of_done (h.sent j a hsent)
  once := h.once

theorem Delivered.send (h : p.Delivered s turns d) {i : ι} {a : α}
    (hdone : d.now.progress i = .done a) (hnew : i ∉ d.sent.map Prod.fst) :
    p.Delivered s turns { d with sent := d.sent ++ [(i, a)] } where
  now := h.now
  sent j b hsent := by
    rcases List.mem_append.mp hsent with hsent | hsent
    · exact h.sent j b hsent
    · obtain ⟨rfl, rfl⟩ := Prod.mk.inj (List.mem_singleton.mp hsent)
      exact hdone
  once := by
    rw [List.map_append, List.nodup_append]
    refine ⟨h.once, List.nodup_singleton _, ?_⟩
    intro j hj k hk
    obtain rfl : k = i := by simpa using hk
    exact ne_of_mem_of_not_mem hj hnew

theorem Delivered.reply (h : p.Delivered s turns d) (i : ι) :
    p.Delivered s (turns ++ [.reply i]) (p.turn d (.reply i)) := by
  have hsteps : steps (turns ++ [.reply i]) = steps turns := by
    rw [steps_append]
    exact List.append_nil _
  have hsame : p.Delivered s (turns ++ [.reply i]) d := ⟨hsteps ▸ h.now, h.sent, h.once⟩
  rw [turn]
  split
  · next a hdone =>
      split
      · exact hsame
      · next hnew => exact hsame.send hdone hnew
  · exact hsame

theorem delivered (p : Protocol ι σ ρ α) (s : σ) (turns : List (Turn ι)) :
    p.Delivered s turns (p.deliver turns (.start s)) := by
  induction turns using List.reverseRecOn with
  | nil => exact ⟨rfl, by simp [deliver, Delivery.start], List.nodup_nil⟩
  | append_singleton turns turn ih =>
      rw [deliver, List.foldl_append]
      cases turn with
      | step i => exact ih.step i
      | reply i => exact ih.reply i

theorem mem_completing_of_sent {i : ι} {a : α}
    (h : (i, a) ∈ (p.deliver turns (.start s)).sent) :
    i ∈ p.completing (steps turns) (.start s) := by
  have hdelivered := delivered p s turns
  rw [(completing_spec _ _).2, ← hdelivered.now, hdelivered.sent i a h]
  rfl

/-- Who is sent an answer before another makes a step comes before the other. -/
theorem precedes_of_sent {before after : List (Turn ι)} {i j : ι} {a : α}
    (hsent : (i, a) ∈ (p.deliver before (.start s)).sent) (hlater : .step j ∉ before)
    (hj : j ∈ p.completing (steps (before ++ after)) (.start s)) :
    [i, j].Sublist (p.completing (steps (before ++ after)) (.start s)) := by
  rw [steps_append, completing_append] at hj ⊢
  have hout : j ∉ p.completing (steps before) (.start s) := by
    rw [(completing_spec _ _).2, progress_run_of_not_mem (mt mem_steps_iff.mp hlater)]
    exact Bool.false_ne_true
  have hi := mem_completing_of_sent hsent
  have hj' := (List.mem_append.mp hj).resolve_left hout
  exact (List.singleton_sublist.mpr hi).append (List.singleton_sublist.mpr hj')

end Protocol

end MvcBackend.Library.Serialization
