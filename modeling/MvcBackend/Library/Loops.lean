import Mathlib.Logic.Relation

/-!
Loops that end because a measure of their state goes down with every turn.
-/

namespace MvcBackend.Library.Loops

/-- One turn goes on with another state or ends with a result. -/
structure Loop (σ ρ : Type) where
  turn : σ → σ ⊕ ρ
  measure : σ → Nat
  decreases : ∀ s s', turn s = .inl s' → measure s' < measure s

namespace Loop

variable {σ ρ : Type} (l : Loop σ ρ)

/-- The turns from a state whose measure is bounded, by recursion on the bound. -/
def runFrom : (bound : Nat) → (s : σ) → l.measure s < bound → ρ
  | 0, _, h => absurd h (Nat.not_lt_zero _)
  | bound + 1, s, h =>
      match hturn : l.turn s with
      | .inl s' =>
          runFrom bound s' (Nat.lt_of_lt_of_le (l.decreases s s' hturn) (Nat.le_of_lt_succ h))
      | .inr r => r

def run (s : σ) : ρ := l.runFrom (l.measure s + 1) s (Nat.lt_succ_self _)

variable {l} {s s' : σ} {r : ρ}

theorem runFrom_of_inr {bound : Nat} (hturn : l.turn s = .inr r) (h : l.measure s < bound) :
    l.runFrom bound s h = r := by
  cases bound with
  | zero => exact absurd h (Nat.not_lt_zero _)
  | succ bound =>
      rw [runFrom]
      split
      · next hturn' => cases hturn.symm.trans hturn'
      · next hturn' => exact (Sum.inr.inj (hturn.symm.trans hturn')).symm

theorem runFrom_of_inl {bound : Nat} (hturn : l.turn s = .inl s') (h : l.measure s < bound + 1) :
    l.runFrom (bound + 1) s h =
      l.runFrom bound s' (Nat.lt_of_lt_of_le (l.decreases s s' hturn) (Nat.le_of_lt_succ h)) := by
  rw [runFrom]
  split
  · next hturn' =>
      obtain rfl := Sum.inl.inj (hturn.symm.trans hturn')
      rfl
  · next hturn' => cases hturn.symm.trans hturn'

/-- The bound does not matter. -/
theorem runFrom_eq_run {bound : Nat} (h : l.measure s < bound) : l.runFrom bound s h = l.run s := by
  have hany : ∀ {bound bound' : Nat} {s : σ} (h : l.measure s < bound) (h' : l.measure s < bound'),
      l.runFrom bound s h = l.runFrom bound' s h' := by
    intro bound
    induction bound with
    | zero => exact fun h => absurd h (Nat.not_lt_zero _)
    | succ bound ih =>
        intro bound' s h h'
        rcases hturn : l.turn s with s' | r
        · cases bound' with
          | zero => exact absurd h' (Nat.not_lt_zero _)
          | succ bound' => rw [runFrom_of_inl hturn, runFrom_of_inl hturn, ih]
        · rw [runFrom_of_inr hturn, runFrom_of_inr hturn]
  exact hany h _

theorem run_of_inr (hturn : l.turn s = .inr r) : l.run s = r := runFrom_of_inr hturn _

theorem run_of_inl (hturn : l.turn s = .inl s') : l.run s = l.run s' := by
  rw [run, runFrom_of_inl hturn, runFrom_eq_run]

/-- What every turn keeps and what then holds of a result, holds of the loop's. -/
theorem run_invariant (I : σ → Prop) (Q : ρ → Prop)
    (hturn : ∀ s s', I s → l.turn s = .inl s' → I s')
    (hend : ∀ s r, I s → l.turn s = .inr r → Q r) {s : σ} (h : I s) : Q (l.run s) := by
  generalize hmeasure : l.measure s = n
  induction n using Nat.strongRecOn generalizing s with
  | ind n ih =>
      rcases hs : l.turn s with s' | r
      · rw [run_of_inl hs]
        exact ih _ (hmeasure ▸ l.decreases s s' hs) (hturn s s' h hs) rfl
      · rw [run_of_inr hs]
        exact hend s r h hs

/-- A state that some turns lead to. -/
def Leads (l : Loop σ ρ) : σ → σ → Prop := Relation.ReflTransGen fun s s' => l.turn s = .inl s'

theorem Leads.refl (s : σ) : l.Leads s s := Relation.ReflTransGen.refl

theorem Leads.trans {s'' : σ} (h : l.Leads s s') (h' : l.Leads s' s'') : l.Leads s s'' :=
  Relation.ReflTransGen.trans h h'

theorem Leads.turn {s'' : σ} (hturn : l.turn s = .inl s') (h : l.Leads s' s'') : l.Leads s s'' :=
  Relation.ReflTransGen.head hturn h

theorem Leads.run_eq (h : l.Leads s s') : l.run s = l.run s' := by
  induction h with
  | refl => rfl
  | tail _ hturn ih => exact ih.trans (run_of_inl hturn)

end Loop

end MvcBackend.Library.Loops
