import Mathlib.Order.Basic
import Mathlib.Data.List.Lex

/-!
Maps as the lists of their entries in the order of the keys.
-/

namespace MvcBackend.Library.SortedMap

variable {κ β : Type} [LT κ] [DecidableLT κ] [DecidableEq κ]

/-- The entry of a key is replaced, or put where it belongs. -/
def assign (key : κ) (value : β) : List (κ × β) → List (κ × β)
  | [] => [(key, value)]
  | (k, v) :: entries =>
      if key < k then (key, value) :: (k, v) :: entries
      else if key = k then (key, value) :: entries
      else (k, v) :: assign key value entries

/-- The entries are assigned one after the other. -/
def assignAll (added entries : List (κ × β)) : List (κ × β) :=
  added.foldl (fun entries entry => assign entry.1 entry.2 entries) entries

def Sorted (entries : List (κ × β)) : Prop := (entries.map Prod.fst).Pairwise (· < ·)

omit [DecidableLT κ] [DecidableEq κ] in
@[simp] theorem sorted_nil : Sorted ([] : List (κ × β)) := List.Pairwise.nil

theorem forall_assign {P : κ → β → Prop} {key : κ} {value : β} {entries : List (κ × β)}
    (hvalue : P key value) (h : ∀ entry ∈ entries, P entry.1 entry.2) :
    ∀ entry ∈ assign key value entries, P entry.1 entry.2 := by
  fun_induction assign key value entries with
  | case1 => simpa using hvalue
  | case2 k v entries hlt => exact List.forall_mem_cons.mpr ⟨hvalue, h⟩
  | case3 v entries hlt =>
      exact List.forall_mem_cons.mpr ⟨hvalue, (List.forall_mem_cons.mp h).2⟩
  | case4 k v entries hlt hne ih =>
      obtain ⟨hhead, htail⟩ := List.forall_mem_cons.mp h
      exact List.forall_mem_cons.mpr ⟨hhead, ih htail⟩

theorem forall_assignAll {P : κ → β → Prop} {added entries : List (κ × β)}
    (hadded : ∀ entry ∈ added, P entry.1 entry.2) (h : ∀ entry ∈ entries, P entry.1 entry.2) :
    ∀ entry ∈ assignAll added entries, P entry.1 entry.2 := by
  induction added generalizing entries with
  | nil => exact h
  | cons entry added ih =>
      obtain ⟨hentry, hadded⟩ := List.forall_mem_cons.mp hadded
      exact ih hadded (forall_assign hentry h)

theorem map_assign {γ : Type} (f : β → γ) (key : κ) (value : β) (entries : List (κ × β)) :
    (assign key value entries).map (Prod.map id f) =
      assign key (f value) (entries.map (Prod.map id f)) := by
  fun_induction assign key value entries with
  | case1 => rfl
  | case2 k v entries hlt => simp [assign, hlt]
  | case3 v entries hlt => simp [assign, hlt]
  | case4 k v entries hlt hne ih => simp [assign, hlt, hne, ih]

theorem map_assignAll {γ : Type} (f : β → γ) (added entries : List (κ × β)) :
    (assignAll added entries).map (Prod.map id f) =
      assignAll (added.map (Prod.map id f)) (entries.map (Prod.map id f)) := by
  induction added generalizing entries with
  | nil => rfl
  | cons entry added ih =>
      rw [assignAll, List.foldl_cons, ← assignAll, ih, map_assign]
      rfl

theorem lookup_assign [BEq κ] [LawfulBEq κ] (key : κ) (value : β) (entries : List (κ × β)) :
    (assign key value entries).lookup key = some value := by
  fun_induction assign key value entries with
  | case1 => simp
  | case2 k v entries hlt => simp
  | case3 v entries hlt => simp
  | case4 k v entries hlt hne ih =>
      rw [List.lookup_cons, beq_false_of_ne hne]
      exact ih

omit [LT κ] [DecidableLT κ] [DecidableEq κ] in
theorem lookup_map [BEq κ] {γ : Type} (f : β → γ) (key : κ) (entries : List (κ × β)) :
    (entries.map (Prod.map id f)).lookup key = (entries.lookup key).map f := by
  induction entries with
  | nil => rfl
  | cons entry entries ih =>
      obtain ⟨k, v⟩ := entry
      simp only [List.map_cons, Prod.map_apply, id, List.lookup_cons]
      split
      · rfl
      · exact ih

section

variable [LE κ] [Std.IsLinearOrder κ] [Std.LawfulOrderLT κ]

theorem sorted_assign {key : κ} {value : β} {entries : List (κ × β)} (h : Sorted entries) :
    Sorted (assign key value entries) := by
  fun_induction assign key value entries with
  | case1 => simp [Sorted]
  | case2 k v entries hlt =>
      refine List.pairwise_cons.mpr ⟨fun k' hk' => ?_, h⟩
      rcases List.mem_cons.mp hk' with rfl | hk'
      · exact hlt
      · exact Std.lt_trans hlt (List.rel_of_pairwise_cons h hk')
  | case3 v entries hlt => exact h
  | case4 k v entries hlt hne ih =>
      obtain ⟨hhead, htail⟩ := List.pairwise_cons.mp h
      have hkey : k < key := Std.lt_of_le_of_ne (Std.not_lt.mp hlt) fun heq => hne heq.symm
      have hall : ∀ entry ∈ assign key value entries, k < entry.1 :=
        forall_assign (P := fun k' _ => k < k') hkey fun entry hentry =>
          hhead entry.1 (List.mem_map_of_mem hentry)
      exact List.pairwise_cons.mpr ⟨List.forall_mem_map.mpr hall, ih htail⟩

theorem sorted_assignAll {added entries : List (κ × β)} (h : Sorted entries) :
    Sorted (assignAll added entries) := by
  induction added generalizing entries with
  | nil => exact h
  | cons entry added ih => exact ih (sorted_assign h)

/-- What belongs behind everything else is put there. -/
theorem assign_append {key : κ} {value : β} {entries : List (κ × β)}
    (h : ∀ entry ∈ entries, entry.1 < key) :
    assign key value entries = entries ++ [(key, value)] := by
  induction entries with
  | nil => rfl
  | cons entry entries ih =>
      obtain ⟨k, v⟩ := entry
      obtain ⟨hk, hentries⟩ := List.forall_mem_cons.mp h
      have hlt : ¬ key < k := Std.not_lt.mpr (Std.le_of_lt hk)
      have hne : key ≠ k := by
        rintro rfl
        exact Std.lt_irrefl hk
      rw [assign, if_neg hlt, if_neg hne, ih hentries]
      rfl

/-- Nothing changes where the entries are in order as they are. -/
theorem assignAll_of_sorted {added entries : List (κ × β)} (h : Sorted (entries ++ added)) :
    assignAll added entries = entries ++ added := by
  induction added generalizing entries with
  | nil => exact (List.append_nil entries).symm
  | cons entry added ih =>
      obtain ⟨key, value⟩ := entry
      have hlast : assign key value entries = entries ++ [(key, value)] := by
        rw [Sorted, List.map_append, List.pairwise_append] at h
        exact assign_append fun entry hentry =>
          h.2.2 entry.1 (List.mem_map_of_mem hentry) key (by simp)
      rw [List.append_cons] at h
      rw [assignAll, List.foldl_cons, hlast, ← assignAll, ih h, List.append_assoc]
      rfl

theorem assignAll_assignAll (added : List (κ × β)) :
    assignAll (assignAll added []) [] = assignAll added [] := by
  have hsorted : Sorted ([] ++ assignAll added []) := sorted_assignAll sorted_nil
  exact assignAll_of_sorted hsorted

end

end MvcBackend.Library.SortedMap
