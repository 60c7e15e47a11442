import Mathlib.Data.List.Dedup
import Mathlib.Data.List.Induction
import Mathlib.Data.List.Nodup
import Mathlib.Data.List.Perm.Subperm
import Mathlib.Data.List.TakeWhile
import Mathlib.Logic.Function.Basic

/-!
Clients of one store that each take two steps, in any interleaving: a client
looks at the store, and either has its answer then or acts on the store with
what it saw. Where no act changes what any client sees, the outcome is that of
serving the clients in turn, in the order of the acts that reach the store.
-/

namespace MvcBackend.Library.Serialization

/-- What each client does in its two steps, on the store as it is at each step. -/
structure Protocol (ι σ ρ α : Type) where
  look : ι → σ → Except α ρ × σ
  act : ι → ρ → σ → α × σ

variable {ι σ ρ α : Type}

namespace Protocol

variable (p : Protocol ι σ ρ α) (reaches : ι → ρ → Bool)

/-- Both steps at once. -/
def serve (i : ι) (s : σ) : α × σ :=
  match p.look i s with
  | (.ok seen, s') => p.act i seen s'
  | (.error answer, s') => (answer, s')

/-- A look changes nothing, and what it sees no act changes; an act that does
not reach the store neither depends on it nor changes it. -/
structure Serial : Prop where
  look_store : ∀ i s, (p.look i s).2 = s
  look_act : ∀ i j seen s, (p.look i (p.act j seen s).2).1 = (p.look i s).1
  quiet : ∀ i seen, reaches i seen = false → ∃ answer, ∀ s, p.act i seen s = (answer, s)

/-! ### What a client does, given what it sees at the start -/

variable (s₀ : σ)

def effect (i : ι) (s : σ) : σ :=
  match (p.look i s₀).1 with
  | .ok seen => (p.act i seen s).2
  | .error _ => s

def answer (i : ι) (s : σ) : α :=
  match (p.look i s₀).1 with
  | .ok seen => (p.act i seen s).1
  | .error answer => answer

def reachesStore (i : ι) : Bool :=
  match (p.look i s₀).1 with
  | .ok seen => reaches i seen
  | .error _ => false

def storeAfter (acts : List ι) : σ := acts.foldl (fun s i => p.effect s₀ i s) s₀

variable {p reaches s₀}

theorem storeAfter_concat (acts : List ι) (i : ι) :
    p.storeAfter s₀ (acts ++ [i]) = p.effect s₀ i (p.storeAfter s₀ acts) := by
  simp [storeAfter]

theorem Serial.look_storeAfter (h : p.Serial reaches) (i : ι) (acts : List ι) :
    (p.look i (p.storeAfter s₀ acts)).1 = (p.look i s₀).1 := by
  induction acts using List.reverseRecOn with
  | nil => rfl
  | append_singleton acts j ih =>
      rw [storeAfter_concat, effect]
      split
      · rw [h.look_act, ih]
      · exact ih

/-- Only those that reach the store are answered by what is in it. -/
theorem Serial.answer_eq (h : p.Serial reaches) {i : ι} (hi : p.reachesStore reaches s₀ i = false)
    (s s' : σ) : p.answer s₀ i s = p.answer s₀ i s' := by
  rw [reachesStore] at hi
  rw [answer, answer]
  split
  · next seen hlook =>
      rw [hlook] at hi
      obtain ⟨a, ha⟩ := h.quiet i seen hi
      rw [ha, ha]
  · rfl

end Protocol

/-! ### Interleavings -/

inductive Progress (ρ α : Type) where
  | waiting
  | between (seen : ρ)
  | done (answer : α)

def Progress.ofLook : Except α ρ → Progress ρ α
  | .ok seen => .between seen
  | .error answer => .done answer

@[ext] structure Snapshot (ι σ ρ α : Type) where
  store : σ
  progress : ι → Progress ρ α

def Snapshot.start (s : σ) : Snapshot ι σ ρ α := ⟨s, fun _ => .waiting⟩

/-- The client, if its next step is an act that reaches the store. -/
def Snapshot.reachingStep (c : Snapshot ι σ ρ α) (reaches : ι → ρ → Bool) (i : ι) : List ι :=
  match c.progress i with
  | .between seen => if reaches i seen then [i] else []
  | _ => []

theorem Snapshot.reachingStep_sublist (c : Snapshot ι σ ρ α) (reaches : ι → ρ → Bool) (i : ι) :
    (c.reachingStep reaches i).Sublist [i] := by
  rw [reachingStep]
  split
  · split
    · exact List.Sublist.refl _
    · exact List.nil_sublist _
  · exact List.nil_sublist _

/-- In an order without repetitions there is one way to list what is kept. -/
theorem eq_filter_of_sublist {l order : List ι} {keep : ι → Bool} (hsublist : l.Sublist order)
    (hnodup : order.Nodup) (hmem : ∀ i, i ∈ l ↔ i ∈ order ∧ keep i = true) :
    l = order.filter keep := by
  have hfilter : l.filter keep = l := List.filter_eq_self.mpr fun i hi => ((hmem i).mp hi).2
  have hsub : l.Sublist (order.filter keep) := hfilter ▸ hsublist.filter keep
  have hsubset : order.filter keep ⊆ l := fun i hi => (hmem i).mpr (by simpa using hi)
  exact hsub.eq_of_length_le (List.subperm_of_subset (hnodup.filter keep) hsubset).length_le

variable [DecidableEq ι]

def Snapshot.put (c : Snapshot ι σ ρ α) (i : ι) (s : σ) (progress : Progress ρ α) :
    Snapshot ι σ ρ α :=
  ⟨s, Function.update c.progress i progress⟩

theorem Snapshot.put_self (c : Snapshot ι σ ρ α) (i : ι) : c.put i c.store (c.progress i) = c := by
  simp [put]

namespace Protocol

variable (p : Protocol ι σ ρ α) (reaches : ι → ρ → Bool)

/-- One step of a client; one that has its answer makes no more. -/
def advance (i : ι) (c : Snapshot ι σ ρ α) : Snapshot ι σ ρ α :=
  match c.progress i with
  | .waiting => c.put i (p.look i c.store).2 (.ofLook (p.look i c.store).1)
  | .between seen => c.put i (p.act i seen c.store).2 (.done (p.act i seen c.store).1)
  | .done _ => c

/-- An interleaving names the client of each step. -/
def run (schedule : List ι) (c : Snapshot ι σ ρ α) : Snapshot ι σ ρ α :=
  schedule.foldl (fun c i => p.advance i c) c

def inTurn (order : List ι) (c : Snapshot ι σ ρ α) : Snapshot ι σ ρ α :=
  order.foldl (fun c i => c.put i (p.serve i c.store).2 (.done (p.serve i c.store).1)) c

/-- The clients whose acts reach the store, in the order of these acts. -/
def reaching : List ι → Snapshot ι σ ρ α → List ι
  | [], _ => []
  | i :: schedule, c => c.reachingStep reaches i ++ reaching schedule (p.advance i c)

variable {p reaches}

theorem run_concat (schedule : List ι) (i : ι) (c : Snapshot ι σ ρ α) :
    p.run (schedule ++ [i]) c = p.advance i (p.run schedule c) := by
  simp [run]

theorem reaching_concat (schedule : List ι) (i : ι) (c : Snapshot ι σ ρ α) :
    p.reaching reaches (schedule ++ [i]) c =
      p.reaching reaches schedule c ++ (p.run schedule c).reachingStep reaches i := by
  induction schedule generalizing c with
  | nil => exact List.append_nil _
  | cons j schedule ih =>
      simp only [List.cons_append, reaching, ih, List.append_assoc]
      rfl

section Tracks

variable (p reaches) (s₀ : σ)

/-- How far a client is after so many steps of its own, where these acts reach
the store. Its answer comes from the acts before its own. -/
def progressAfter : Nat → List ι → ι → Progress ρ α
  | 0, _, _ => .waiting
  | 1, _, i => .ofLook (p.look i s₀).1
  | _ + 2, acts, i => .done (p.answer s₀ i (p.storeAfter s₀ (acts.takeWhile (· ≠ i))))

structure Tracks (schedule acts : List ι) (c : Snapshot ι σ ρ α) : Prop where
  store : c.store = p.storeAfter s₀ acts
  progress : ∀ i, c.progress i = p.progressAfter s₀ (schedule.count i) acts i
  mem_iff : ∀ i, i ∈ acts ↔ p.reachesStore reaches s₀ i = true ∧ 2 ≤ schedule.count i
  nodup : acts.Nodup

variable {p reaches s₀} {schedule acts tail : List ι} {c : Snapshot ι σ ρ α}

theorem tracks_nil : p.Tracks reaches s₀ [] [] (.start s₀) where
  store := rfl
  progress := fun _ => rfl
  mem_iff := by simp
  nodup := List.nodup_nil

theorem takeWhile_append_of_mem {i : ι} (hi : i ∈ acts) (tail : List ι) :
    (acts ++ tail).takeWhile (· ≠ i) = acts.takeWhile (· ≠ i) := by
  induction acts with
  | nil => simp at hi
  | cons j acts ih =>
      by_cases hj : j = i
      · simp [hj]
      · have hmem : i ∈ acts := by simpa [Ne.symm hj] using hi
        simpa [hj] using ih hmem

/-- Later acts do not matter to a client. -/
theorem Tracks.progressAfter_append (h : p.Serial reaches)
    (ht : p.Tracks reaches s₀ schedule acts c) (i : ι) (tail : List ι) :
    p.progressAfter s₀ (schedule.count i) (acts ++ tail) i =
      p.progressAfter s₀ (schedule.count i) acts i := by
  rcases hcount : schedule.count i with _ | _ | n
  · rfl
  · rfl
  · simp only [progressAfter]
    by_cases hi : i ∈ acts
    · rw [takeWhile_append_of_mem hi]
    · have hreaches : p.reachesStore reaches s₀ i = false := by
        by_contra hne
        exact hi ((ht.mem_iff i).mpr ⟨by simpa using hne, by omega⟩)
      rw [h.answer_eq hreaches]

/-- A step of `j` leaves the other clients where they are. -/
theorem Tracks.put (h : p.Serial reaches) (ht : p.Tracks reaches s₀ schedule acts c) {j : ι}
    {s : σ} {x : Progress ρ α} (htail : ∀ i ∈ tail, i = j)
    (hstore : s = p.storeAfter s₀ (acts ++ tail))
    (hprogress : x = p.progressAfter s₀ (schedule.count j + 1) (acts ++ tail) j)
    (hmem : j ∈ acts ++ tail ↔ p.reachesStore reaches s₀ j = true ∧ 2 ≤ schedule.count j + 1)
    (hnodup : (acts ++ tail).Nodup) :
    p.Tracks reaches s₀ (schedule ++ [j]) (acts ++ tail) (c.put j s x) where
  store := hstore
  progress := by
    intro i
    by_cases hi : i = j
    · subst hi
      simpa [Snapshot.put] using hprogress
    · have hcount : (schedule ++ [j]).count i = schedule.count i := by
        simp [List.count_append, Ne.symm hi]
      rw [hcount, ht.progressAfter_append h, ← ht.progress]
      simp [Snapshot.put, hi]
  mem_iff := by
    intro i
    by_cases hi : i = j
    · subst hi
      simpa using hmem
    · have hout : i ∉ tail := fun hin => hi (htail i hin)
      have hcount : (schedule ++ [j]).count i = schedule.count i := by
        simp [List.count_append, Ne.symm hi]
      rw [hcount, ← ht.mem_iff]
      simp [hout]
  nodup := hnodup

/-- A client that has its answer makes no more steps. -/
theorem Tracks.stay (h : p.Serial reaches) (ht : p.Tracks reaches s₀ schedule acts c) {j : ι}
    {a : α} (hdone : c.progress j = .done a)
    (hprogress : c.progress j = p.progressAfter s₀ (schedule.count j + 1) acts j)
    (hmem : j ∈ acts ↔ p.reachesStore reaches s₀ j = true ∧ 2 ≤ schedule.count j + 1) :
    p.Tracks reaches s₀ (schedule ++ [j]) (acts ++ c.reachingStep reaches j) (p.advance j c) := by
  simp only [advance, Snapshot.reachingStep, hdone]
  have hput : p.Tracks reaches s₀ (schedule ++ [j]) (acts ++ []) (c.put j c.store (c.progress j)) :=
    ht.put h (by simp) (by simpa using ht.store) (by simpa using hprogress) (by simpa using hmem)
      (by simpa using ht.nodup)
  rwa [c.put_self] at hput

/-- The second step of a client that has no answer from its first one. -/
theorem Tracks.act (h : p.Serial reaches) (ht : p.Tracks reaches s₀ schedule acts c) {j : ι}
    {seen : ρ} (hcount : schedule.count j = 1) (hlook : (p.look j s₀).1 = .ok seen)
    (hbetween : c.progress j = .between seen) :
    p.Tracks reaches s₀ (schedule ++ [j]) (acts ++ c.reachingStep reaches j) (p.advance j c) := by
  have hfresh : j ∉ acts := by
    intro hj
    have := ((ht.mem_iff j).mp hj).2
    omega
  simp only [advance, Snapshot.reachingStep, hbetween]
  rcases hreaches : reaches j seen with _ | _
  · obtain ⟨a, ha⟩ := h.quiet j seen hreaches
    simp only [Bool.false_eq_true, ↓reduceIte, ha]
    refine ht.put h (by simp) (by simpa using ht.store) ?_ ?_ (by simpa using ht.nodup)
    · simp [hcount, progressAfter, answer, hlook, ha]
    · simp [hfresh, reachesStore, hlook, hreaches]
  · simp only [↓reduceIte]
    refine ht.put h (by simp) ?_ ?_ ?_ ?_
    · rw [storeAfter_concat, effect, hlook, ht.store]
    · have htake : (acts ++ [j]).takeWhile (· ≠ j) = acts := by
        have hall : ∀ i ∈ acts, decide (i ≠ j) = true :=
          fun i hi => decide_eq_true (ne_of_mem_of_not_mem hi hfresh)
        rw [List.takeWhile_append_of_pos hall]
        simp
      simp only [hcount, progressAfter, htake, answer, hlook, ht.store]
    · simp [reachesStore, hlook, hreaches, hcount]
    · rw [List.nodup_append]
      refine ⟨ht.nodup, by simp, ?_⟩
      intro i hi k hk
      obtain rfl : k = j := by simpa using hk
      exact ne_of_mem_of_not_mem hi hfresh

theorem Tracks.concat (h : p.Serial reaches) (ht : p.Tracks reaches s₀ schedule acts c) (j : ι) :
    p.Tracks reaches s₀ (schedule ++ [j]) (acts ++ c.reachingStep reaches j) (p.advance j c) := by
  have hprogress := ht.progress j
  have hmem := ht.mem_iff j
  rcases hcount : schedule.count j with _ | _ | n
  · have hwaiting : c.progress j = .waiting := by rw [hprogress, hcount, progressAfter]
    simp only [advance, Snapshot.reachingStep, hwaiting]
    refine ht.put h (by simp) ?_ ?_ ?_ (by simpa using ht.nodup)
    · rw [h.look_store, ht.store, List.append_nil]
    · rw [hcount, progressAfter, ht.store, h.look_storeAfter]
    · simp [hmem, hcount]
  · rw [hcount, progressAfter] at hprogress
    rcases hlook : (p.look j s₀).1 with a | seen
    · rw [hlook] at hprogress
      refine ht.stay h hprogress ?_ ?_
      · rw [hprogress, hcount, progressAfter, answer, hlook]
        rfl
      · simp [hmem, hcount, reachesStore, hlook]
    · rw [hlook] at hprogress
      exact ht.act h hcount hlook hprogress
  · rw [hcount, progressAfter] at hprogress
    refine ht.stay h hprogress ?_ ?_
    · rw [hprogress, hcount, progressAfter]
    · rw [hmem, hcount]
      simp

theorem Serial.tracks (h : p.Serial reaches) (schedule : List ι) :
    p.Tracks reaches s₀ schedule (p.reaching reaches schedule (.start s₀))
      (p.run schedule (.start s₀)) := by
  induction schedule using List.reverseRecOn with
  | nil => exact tracks_nil
  | append_singleton schedule j ih =>
      rw [reaching_concat, run_concat]
      exact ih.concat h j

end Tracks

/-! ### Serving in turn -/

variable {s₀ : σ}

/-- The order of the acts that reach the store decides everything. -/
theorem Serial.run_eq_of_reaching_eq (h : p.Serial reaches) {schedule schedule' : List ι}
    (hcomplete : ∀ i, 2 ≤ schedule.count i) (hcomplete' : ∀ i, 2 ≤ schedule'.count i)
    (heq : p.reaching reaches schedule (.start s₀) = p.reaching reaches schedule' (.start s₀)) :
    p.run schedule (.start s₀) = p.run schedule' (.start s₀) := by
  have ht : p.Tracks reaches s₀ schedule _ _ := h.tracks schedule
  have ht' : p.Tracks reaches s₀ schedule' _ _ := h.tracks schedule'
  rw [← heq] at ht'
  apply Snapshot.ext
  · rw [ht.store, ht'.store]
  · funext i
    obtain ⟨n, hn⟩ := Nat.exists_eq_add_of_le' (hcomplete i)
    obtain ⟨n', hn'⟩ := Nat.exists_eq_add_of_le' (hcomplete' i)
    rw [ht.progress, ht'.progress, hn, hn', progressAfter, progressAfter]

theorem Serial.answered (h : p.Serial reaches) {schedule : List ι}
    (hcomplete : ∀ i, 2 ≤ schedule.count i) (i : ι) :
    ∃ answer, (p.run schedule (.start s₀)).progress i = .done answer := by
  obtain ⟨n, hn⟩ := Nat.exists_eq_add_of_le' (hcomplete i)
  exact ⟨_, by rw [(h.tracks schedule).progress, hn, progressAfter]⟩

/-- The interleaving in which each client makes both steps in its turn. -/
def turns (order : List ι) : List ι := order.flatMap fun i => [i, i]

theorem two_le_count_turns {order : List ι} {i : ι} (hi : i ∈ order) : 2 ≤ (turns order).count i := by
  induction order with
  | nil => simp at hi
  | cons j order ih =>
      show 2 ≤ (j :: j :: turns order).count i
      by_cases hj : j = i
      · simp [hj]
      · have hmem : i ∈ order := by simpa [Ne.symm hj] using hi
        simpa [hj] using ih hmem

theorem run_turns {order : List ι} (hnodup : order.Nodup) (c : Snapshot ι σ ρ α)
    (hwaiting : ∀ i ∈ order, c.progress i = .waiting) :
    p.run (turns order) c = p.inTurn order c := by
  induction order generalizing c with
  | nil => rfl
  | cons i order ih =>
      obtain ⟨hi, hnodup⟩ := List.nodup_cons.mp hnodup
      have hserve : p.advance i (p.advance i c) =
          c.put i (p.serve i c.store).2 (.done (p.serve i c.store).1) := by
        have hfirst : p.advance i c =
            c.put i (p.look i c.store).2 (.ofLook (p.look i c.store).1) := by
          simp only [advance, hwaiting i (by simp)]
        rw [hfirst, serve]
        rcases p.look i c.store with ⟨a | seen, s⟩
        · simp [advance, Snapshot.put, Progress.ofLook]
        · simp [advance, Snapshot.put, Progress.ofLook]
      show p.run (turns order) (p.advance i (p.advance i c)) = _
      rw [hserve]
      refine ih hnodup _ fun j hj => ?_
      have hne : j ≠ i := ne_of_mem_of_not_mem hj hi
      simp [Snapshot.put, hne, hwaiting j (by simp [hj])]

/-- A client acts once at most. -/
theorem reachingStep_twice_sublist (i : ι) (c : Snapshot ι σ ρ α) :
    (c.reachingStep reaches i ++ (p.advance i c).reachingStep reaches i).Sublist [i] := by
  rcases hprogress : c.progress i with _ | seen | a
  · have hnone : c.reachingStep reaches i = [] := by rw [Snapshot.reachingStep, hprogress]
    rw [hnone]
    exact Snapshot.reachingStep_sublist _ reaches i
  · have hnone : (p.advance i c).reachingStep reaches i = [] := by
      simp [Snapshot.reachingStep, advance, hprogress, Snapshot.put]
    rw [hnone, List.append_nil]
    exact c.reachingStep_sublist reaches i
  · have hnone : c.reachingStep reaches i = [] := by rw [Snapshot.reachingStep, hprogress]
    rw [hnone]
    exact Snapshot.reachingStep_sublist _ reaches i

theorem reaching_turns_sublist (order : List ι) (c : Snapshot ι σ ρ α) :
    (p.reaching reaches (turns order) c).Sublist order := by
  induction order generalizing c with
  | nil => exact List.nil_sublist _
  | cons i order ih =>
      show (c.reachingStep reaches i ++ ((p.advance i c).reachingStep reaches i ++
        p.reaching reaches (turns order) (p.advance i (p.advance i c)))).Sublist ([i] ++ order)
      rw [← List.append_assoc]
      exact (reachingStep_twice_sublist i c).append (ih _)

theorem Serial.reaching_eq (h : p.Serial reaches) {schedule order : List ι}
    (hcomplete : ∀ i, 2 ≤ schedule.count i) (hnodup : order.Nodup) (hall : ∀ i, i ∈ order)
    (horder : (p.reaching reaches schedule (.start s₀)).Sublist order) :
    p.reaching reaches schedule (.start s₀) = order.filter (p.reachesStore reaches s₀) := by
  refine eq_filter_of_sublist horder hnodup fun i => ?_
  rw [(h.tracks schedule).mem_iff]
  simp [hall, hcomplete]

theorem Serial.run_eq_inTurn (h : p.Serial reaches) {schedule order : List ι}
    (hcomplete : ∀ i, 2 ≤ schedule.count i) (hnodup : order.Nodup) (hall : ∀ i, i ∈ order)
    (horder : (p.reaching reaches schedule (.start s₀)).Sublist order) :
    p.run schedule (.start s₀) = p.inTurn order (.start s₀) := by
  have hturns : ∀ i, 2 ≤ (turns order).count i := fun i => two_le_count_turns (hall i)
  have hreaching := h.reaching_eq hturns hnodup hall (reaching_turns_sublist order (.start s₀))
  calc
    p.run schedule (.start s₀) = p.run (turns order) (.start s₀) := by
      apply h.run_eq_of_reaching_eq hcomplete hturns
      rw [hreaching, h.reaching_eq hcomplete hnodup hall horder]
    _ = p.inTurn order (.start s₀) := run_turns hnodup _ fun _ _ => rfl

/-- There is always such an order. -/
theorem Serial.exists_order (h : p.Serial reaches) {schedule : List ι}
    (hcomplete : ∀ i, 2 ≤ schedule.count i) :
    ∃ order : List ι, order.Nodup ∧ (∀ i, i ∈ order) ∧
      (p.reaching reaches schedule (.start s₀)).Sublist order := by
  have hreaching : (p.reaching reaches schedule (.start s₀)).Nodup := (h.tracks schedule).nodup
  refine ⟨p.reaching reaches schedule (.start s₀) ++
    schedule.dedup.filter (· ∉ p.reaching reaches schedule (.start s₀)), ?_, ?_,
    List.sublist_append_left _ _⟩
  · rw [List.nodup_append]
    refine ⟨hreaching, schedule.nodup_dedup.filter _, ?_⟩
    intro i hi j hj
    have hout : j ∉ p.reaching reaches schedule (.start s₀) := by
      simpa using (List.mem_filter.mp hj).2
    exact ne_of_mem_of_not_mem hi hout
  · intro i
    have hmem : i ∈ schedule := List.count_pos_iff.mp (by have := hcomplete i; omega)
    by_cases hi : i ∈ p.reaching reaches schedule (.start s₀)
    · exact List.mem_append_left _ hi
    · exact List.mem_append_right _ (List.mem_filter.mpr ⟨List.mem_dedup.mpr hmem, by simpa using hi⟩)

end Protocol

end MvcBackend.Library.Serialization
