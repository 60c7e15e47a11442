import Mathlib.Data.List.Perm.Basic

/-!
Ordered choice without backtracking, between recognisers that read a prefix of
their input. The first recogniser that accepts a prefix commits, and only then
is the end of the input checked. Where no recogniser hides another one, this
accepts what some recogniser accepts in full, whatever the order.
-/

namespace MvcBackend.Library.OrderedChoice

variable {σ β γ : Type}

/-- A function that reads a prefix of its input, returns what is left, and
depends on nothing but what it has read. -/
structure Recogniser (σ β : Type) where
  run : List σ → Option (β × List σ)
  reads : ∀ {input b rest}, run input = some (b, rest) →
    ∃ read, input = read ++ rest ∧ ∀ rest', run (read ++ rest') = some (b, rest')

namespace Recogniser

def Full (r : Recogniser σ β) (input : List σ) (b : β) : Prop := r.run input = some (b, [])

/-- `r` accepts a part, or all, of an input that `s` accepts in full. -/
def Hides (r s : Recogniser σ β) : Prop :=
  ∃ read rest b b', r.Full read b ∧ s.Full (read ++ rest) b'

theorem hides_of_run {r s : Recogniser σ β} {input rest : List σ} {b b' : β}
    (hr : r.run input = some (b, rest)) (hs : s.Full input b') : r.Hides s := by
  obtain ⟨read, rfl, hread⟩ := r.reads hr
  refine ⟨read, rest, b, b', ?_, hs⟩
  simpa [Full] using hread []

end Recogniser

/-- One reader for each symbol of a prefix; what they read is put together. -/
def readAll : List (σ → Option (List γ)) → List σ → Option (List γ × List σ)
  | [], input => some ([], input)
  | _ :: _, [] => none
  | reader :: readers, x :: input =>
      (reader x).bind fun items =>
        (readAll readers input).map fun result => (items ++ result.1, result.2)

theorem readAll_eq_some_iff {readers : List (σ → Option (List γ))} {input : List σ}
    {items : List γ} {rest : List σ} :
    readAll readers input = some (items, rest) ↔
      ∃ read, input = read ++ rest ∧ readAll readers read = some (items, []) := by
  induction readers generalizing input items with
  | nil =>
      simp only [readAll, Option.some.injEq, Prod.mk.injEq]
      constructor
      · rintro ⟨rfl, rfl⟩
        exact ⟨[], rfl, rfl, rfl⟩
      · rintro ⟨read, rfl, rfl, rfl⟩
        exact ⟨rfl, rfl⟩
  | cons reader readers ih =>
      cases input with
      | nil =>
          simp only [readAll, reduceCtorEq, false_iff]
          rintro ⟨read, hread, h⟩
          obtain rfl : read = [] := by simpa using (List.append_eq_nil_iff.mp hread.symm).1
          simp [readAll] at h
      | cons x input =>
          simp only [readAll, Option.bind_eq_some_iff, Option.map_eq_some_iff, Prod.exists,
            Prod.mk.injEq]
          constructor
          · rintro ⟨head, hhead, tail, rest', htail, rfl, rfl⟩
            obtain ⟨read, rfl, hread⟩ := ih.mp htail
            refine ⟨x :: read, rfl, ?_⟩
            simp [readAll, hhead, hread]
          · rintro ⟨read, hsplit, hread⟩
            cases read with
            | nil => simp [readAll] at hread
            | cons y read =>
                obtain ⟨rfl, rfl⟩ : x = y ∧ input = read ++ rest := by simpa using hsplit
                simp only [readAll, Option.bind_eq_some_iff, Option.map_eq_some_iff, Prod.exists,
                  Prod.mk.injEq] at hread
                obtain ⟨head, hhead, tail, rest', htail, rfl, rfl⟩ := hread
                exact ⟨head, hhead, tail, rest, ih.mpr ⟨read, rfl, htail⟩, rfl, rfl⟩

theorem length_of_readAll {readers : List (σ → Option (List γ))} {input rest : List σ}
    {items : List γ} (h : readAll readers input = some (items, rest)) :
    input.length = readers.length + rest.length := by
  induction readers generalizing input items with
  | nil =>
      obtain ⟨-, rfl⟩ : [] = items ∧ input = rest := by simpa [readAll] using h
      simp
  | cons reader readers ih =>
      cases input with
      | nil => simp [readAll] at h
      | cons x input =>
          simp only [readAll, Option.bind_eq_some_iff, Option.map_eq_some_iff, Prod.exists,
            Prod.mk.injEq] at h
          obtain ⟨head, -, tail, rest', htail, -, rfl⟩ := h
          have hlength := ih htail
          simp only [List.length_cons]
          omega

def inSequence (make : List γ → β) (readers : List (σ → Option (List γ))) : Recogniser σ β where
  run input := (readAll readers input).map fun result => (make result.1, result.2)
  reads := by
    intro input b rest h
    simp only [Option.map_eq_some_iff, Prod.exists, Prod.mk.injEq] at h
    obtain ⟨items, rest', hrun, rfl, rfl⟩ := h
    obtain ⟨read, rfl, hread⟩ := readAll_eq_some_iff.mp hrun
    refine ⟨read, rfl, ?_⟩
    intro rest'
    rw [readAll_eq_some_iff.mpr ⟨read, rfl, hread⟩]
    rfl

variable {rs rs' : List (Recogniser σ β)}

def choose (rs : List (Recogniser σ β)) (input : List σ) : Option (β × List σ) :=
  rs.findSome? fun r => r.run input

/-- The end of the input is checked once the choice is made. -/
def chooseFull (rs : List (Recogniser σ β)) (input : List σ) : Option β :=
  (choose rs input).bind fun result => if result.2.isEmpty then some result.1 else none

def Unambiguous (rs : List (Recogniser σ β)) : Prop :=
  rs.Pairwise fun r s => ¬ r.Hides s ∧ ¬ s.Hides r

theorem Unambiguous.perm (h : Unambiguous rs) (hperm : rs.Perm rs') : Unambiguous rs' :=
  hperm.pairwise h fun hrs => And.symm hrs

theorem chooseFull_eq_some_iff (h : Unambiguous rs) {input : List σ} {b : β} :
    chooseFull rs input = some b ↔ ∃ r ∈ rs, r.Full input b := by
  induction rs with
  | nil => simp [chooseFull, choose]
  | cons r rs ih =>
      obtain ⟨hr, hrest⟩ := List.pairwise_cons.mp h
      cases hrun : r.run input with
      | none =>
          have hskip : chooseFull (r :: rs) input = chooseFull rs input := by
            simp [chooseFull, choose, hrun]
          simp [hskip, ih hrest, Recogniser.Full, hrun]
      | some result =>
          obtain ⟨b', rest⟩ := result
          -- `r` has committed, so an entry after it that accepts the input would be hidden
          have hothers : ¬ ∃ s ∈ rs, s.Full input b := by
            rintro ⟨s, hs, hfull⟩
            exact (hr s hs).1 (r.hides_of_run hrun hfull)
          simp only [List.exists_mem_cons_iff, hothers, or_false]
          cases rest with
          | nil => simp [chooseFull, choose, hrun, Recogniser.Full]
          | cons x rest => simp [chooseFull, choose, hrun, Recogniser.Full]

theorem chooseFull_perm (h : Unambiguous rs) (hperm : rs.Perm rs') (input : List σ) :
    chooseFull rs input = chooseFull rs' input := by
  apply Option.ext
  intro b
  rw [chooseFull_eq_some_iff h, chooseFull_eq_some_iff (h.perm hperm)]
  simp only [hperm.mem_iff]

end MvcBackend.Library.OrderedChoice
