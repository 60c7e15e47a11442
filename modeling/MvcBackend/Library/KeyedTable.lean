import Mathlib.Data.List.Basic
import Mathlib.Data.List.Induction
import Mathlib.Data.List.Nodup

/-!
Tables of rows stored under pairwise distinct keys, and tables that hand out
their own keys from a counter that never goes back. Rows stay in insertion
order, which is the order a scan returns them in.
-/

namespace MvcBackend.Library.KeyedTable

/-- Rows under pairwise distinct keys, oldest first. -/
@[ext] structure Table (κ α : Type) where
  rows : List (κ × α)
  nodup : (rows.map Prod.fst).Nodup
  deriving DecidableEq

variable {κ α : Type}

namespace Table

def empty : Table κ α := ⟨[], List.nodup_nil⟩

def restrict (t : Table κ α) (keep : κ → α → Bool) : Table κ α where
  rows := t.rows.filter fun row => keep row.1 row.2
  nodup := t.nodup.sublist (List.filter_sublist.map Prod.fst)

def mapRows (t : Table κ α) (f : κ → α → α) : Table κ α where
  rows := t.rows.map fun row => (row.1, f row.1 row.2)
  nodup := by simpa [List.map_map, Function.comp_def] using t.nodup

variable [DecidableEq κ]

def find (t : Table κ α) (k : κ) : Option α := t.rows.lookup k

def erase (t : Table κ α) (k : κ) : Table κ α := t.restrict fun k' _ => k' ≠ k

def set (t : Table κ α) (k : κ) (a : α) : Table κ α :=
  t.mapRows fun k' old => if k' = k then a else old

theorem mem_rows_iff (t : Table κ α) (k : κ) (a : α) :
    (k, a) ∈ t.rows ↔ t.find k = some a := by
  obtain ⟨rows, nodup⟩ := t
  simp only [find]
  induction rows with
  | nil => simp
  | cons row rows ih =>
      obtain ⟨k', a'⟩ := row
      obtain ⟨hfresh, hrest⟩ := List.nodup_cons.mp nodup
      by_cases hk : k = k'
      · subst hk
        have habsent : (k, a) ∉ rows := fun h =>
          hfresh (List.mem_map.mpr ⟨(k, a), h, rfl⟩)
        simp [habsent, eq_comm]
      · have hbeq : (k == k') = false := by simpa using hk
        simp [List.lookup_cons, hbeq, hk, ih hrest]

theorem find_eq_none_iff (t : Table κ α) (k : κ) :
    t.find k = none ↔ k ∉ t.rows.map Prod.fst := by
  rw [Option.eq_none_iff_forall_ne_some]
  constructor
  · intro h hk
    obtain ⟨⟨k', a⟩, hmem, rfl⟩ := List.mem_map.mp hk
    exact h a ((t.mem_rows_iff k' a).mp hmem)
  · intro h a hfind
    exact h (List.mem_map_of_mem ((t.mem_rows_iff k a).mpr hfind))

/-- A key selects its row alone. -/
theorem filter_key (t : Table κ α) (k : κ) :
    (t.rows.filter fun row => row.1 = k) = ((t.find k).map fun a => (k, a)).toList := by
  obtain ⟨rows, nodup⟩ := t
  simp only [find]
  induction rows with
  | nil => simp
  | cons row rows ih =>
      obtain ⟨k', a⟩ := row
      obtain ⟨hfresh, hrest⟩ := List.nodup_cons.mp nodup
      by_cases hk : k' = k
      · subst hk
        have hnone : rows.filter (fun row => decide (row.1 = k')) = [] := by
          rw [List.filter_eq_nil_iff]
          intro row hrow heq
          exact hfresh (List.mem_map.mpr ⟨row, hrow, by simpa using heq⟩)
        simp [hnone]
      · have hbeq : (k == k') = false := by simpa using Ne.symm hk
        simp [List.lookup_cons, hbeq, hk, ih hrest]

/-- Append a row under a key the table does not hold yet. -/
def insert (t : Table κ α) (k : κ) (a : α) (fresh : t.find k = none) : Table κ α where
  rows := t.rows ++ [(k, a)]
  nodup := by
    rw [List.map_append, List.nodup_append]
    refine ⟨t.nodup, by simp, ?_⟩
    rintro k' hk' _ hk rfl
    obtain rfl : k' = k := by simpa using hk
    exact (t.find_eq_none_iff k').mp fresh hk'

@[simp] theorem find_empty (k : κ) : (empty : Table κ α).find k = none := rfl

theorem find_insert (t : Table κ α) (k k' : κ) (a : α) (fresh : t.find k = none) :
    (t.insert k a fresh).find k' = if k' = k then some a else t.find k' := by
  simp only [find] at fresh ⊢
  simp only [insert, List.lookup_append]
  by_cases h : k' = k
  · simp [h, fresh]
  · have hbeq : (k' == k) = false := by simpa using h
    simp [List.lookup_cons, hbeq, h]

def insertNew (t : Table κ α) (k : κ) (a : α) : Table κ α :=
  if fresh : t.find k = none then t.insert k a fresh else t

theorem insertNew_of_none (t : Table κ α) {k : κ} (a : α) (fresh : t.find k = none) :
    t.insertNew k a = t.insert k a fresh := dif_pos fresh

theorem insertNew_of_some (t : Table κ α) {k : κ} (a : α) {b : α} (h : t.find k = some b) :
    t.insertNew k a = t := dif_neg (by simp [h])

theorem find_insertNew (t : Table κ α) (k k' : κ) (a : α) :
    (t.insertNew k a).find k' = if k' = k then some ((t.find k).getD a) else t.find k' := by
  rw [insertNew]
  split
  · next fresh => simp [fresh, find_insert]
  · next h =>
      obtain ⟨b, hb⟩ := Option.ne_none_iff_exists'.mp h
      split
      · next hk => simp [hk, hb]
      · rfl

theorem find_insertNew_of_some {t : Table κ α} {k k' : κ} {a b : α} (h : t.find k' = some b) :
    (t.insertNew k a).find k' = some b := by
  rw [find_insertNew]
  split
  · next hk => simp [← hk, h]
  · exact h

theorem of_find_insertNew {t : Table κ α} {k k' : κ} {a b : α}
    (h : (t.insertNew k a).find k' = some b) : t.find k' = some b ∨ (k' = k ∧ b = a) := by
  rw [find_insertNew] at h
  split at h
  · next hk =>
      subst hk
      cases hfind : t.find k' with
      | none => exact .inr ⟨rfl, by simpa [hfind, eq_comm] using h⟩
      | some c => exact .inl (by simpa [hfind] using h)
  · exact .inl h

theorem isSome_find_insertNew {t : Table κ α} {k k' : κ} {a : α} :
    ((t.insertNew k a).find k').isSome ↔ k' = k ∨ (t.find k').isSome := by
  rw [find_insertNew]
  split
  · next hk => simp [hk]
  · next hk => simp [hk]

theorem insertNew_of_isSome {t : Table κ α} {k : κ} (a : α) (h : (t.find k).isSome) :
    t.insertNew k a = t := by
  obtain ⟨b, hb⟩ := Option.isSome_iff_exists.mp h
  exact t.insertNew_of_some a hb

/-- The table that is given these rows one after the other. -/
def gather (rows : List (κ × α)) : Table κ α :=
  rows.foldl (fun t row => t.insertNew row.1 row.2) empty

theorem gather_append (rows rows' : List (κ × α)) :
    gather (rows ++ rows') = rows'.foldl (fun t row => t.insertNew row.1 row.2) (gather rows) :=
  List.foldl_append

/-- The first row under a key decides. -/
theorem find_gather (rows : List (κ × α)) (k : κ) :
    (gather rows).find k = (rows.find? fun row => row.1 = k).map Prod.snd := by
  induction rows using List.reverseRecOn with
  | nil => rfl
  | append_singleton rows row ih =>
      obtain ⟨k', a⟩ := row
      rw [gather_append, List.foldl_cons, List.foldl_nil, find_insertNew, List.find?_append]
      by_cases hk : k = k'
      · subst hk
        cases hfind : rows.find? fun row => row.1 = k <;> simp [ih, hfind]
      · simp [hk, ih, Ne.symm hk]

/-- `t'` goes on from the rows of `t` with at most these new ones, under keys
that `t` does not hold. -/
def Extends (t t' : Table κ α) (new : List (κ × α)) : Prop :=
  ∃ added, t'.rows = t.rows ++ added ∧ added.Sublist new ∧ ∀ row ∈ added, t.find row.1 = none

theorem Extends.refl (t : Table κ α) (new : List (κ × α)) : t.Extends t new :=
  ⟨[], by simp, List.nil_sublist new, by simp⟩

theorem Extends.mono {t t' : Table κ α} {new new' : List (κ × α)} (h : t.Extends t' new)
    (hnew : new.Sublist new') : t.Extends t' new' := by
  obtain ⟨added, hrows, hsublist, hmissing⟩ := h
  exact ⟨added, hrows, hsublist.trans hnew, hmissing⟩

theorem Extends.find {t t' : Table κ α} {new : List (κ × α)} (h : t.Extends t' new) {k : κ} {a : α}
    (hfind : t.find k = some a) : t'.find k = some a := by
  obtain ⟨added, hrows, -⟩ := h
  rw [← mem_rows_iff] at hfind ⊢
  rw [hrows]
  exact List.mem_append_left added hfind

theorem Extends.insertNew {t t' : Table κ α} {new : List (κ × α)} (h : t.Extends t' new) (k : κ)
    (a : α) : t.Extends (t'.insertNew k a) (new ++ [(k, a)]) := by
  rw [Table.insertNew]
  split
  · next fresh =>
      have habsent : t.find k = none := by
        rw [Option.eq_none_iff_forall_ne_some]
        intro b hb
        rw [h.find hb] at fresh
        cases fresh
      obtain ⟨added, hrows, hsublist, hmissing⟩ := h
      refine ⟨added ++ [(k, a)], ?_, hsublist.append (List.Sublist.refl _), ?_⟩
      · simp [insert, hrows]
      · intro row hrow
        rcases List.mem_append.mp hrow with hold | hnew
        · exact hmissing row hold
        · obtain rfl : row = (k, a) := by simpa using hnew
          exact habsent
  · exact h.mono (List.sublist_append_left new [(k, a)])

theorem find_restrict (t : Table κ α) (keep : κ → α → Bool) (k : κ) :
    (t.restrict keep).find k = (t.find k).filter (keep k) := by
  ext a
  rw [← mem_rows_iff, Option.filter_eq_some_iff, ← mem_rows_iff]
  simp [restrict]

theorem find_mapRows (t : Table κ α) (f : κ → α → α) (k : κ) :
    (t.mapRows f).find k = (t.find k).map (f k) := by
  ext a
  rw [← mem_rows_iff, Option.map_eq_some_iff]
  simp only [← mem_rows_iff, mapRows, List.mem_map, Prod.mk.injEq, Prod.exists]
  constructor
  · rintro ⟨k', b, hmem, rfl, rfl⟩
    exact ⟨b, hmem, rfl⟩
  · rintro ⟨b, hmem, rfl⟩
    exact ⟨k, b, hmem, rfl, rfl⟩

theorem find_erase (t : Table κ α) (k k' : κ) :
    (t.erase k).find k' = if k' = k then none else t.find k' := by
  rw [erase, find_restrict]
  by_cases h : k' = k
  · cases t.find k' <;> simp [h]
  · cases t.find k' <;> simp [h]

theorem find_set (t : Table κ α) (k k' : κ) (a : α) :
    (t.set k a).find k' = if k' = k then (t.find k').map fun _ => a else t.find k' := by
  rw [set, find_mapRows]
  by_cases h : k' = k
  · simp [h]
  · simp [h]

end Table

/-- A table whose keys come from a counter: `seq` is the largest key ever
given out, whether or not its row is still there. -/
@[ext] structure SequencedTable (α : Type) extends Table Int α where
  seq : Nat
  key_le_seq : ∀ row ∈ rows, row.1 ≤ (seq : Int)
  deriving DecidableEq

namespace SequencedTable

def empty : SequencedTable α := { Table.empty with seq := 0, key_le_seq := by simp [Table.empty] }

def nextKey (t : SequencedTable α) : Int := t.seq + 1

theorem nextKey_pos (t : SequencedTable α) : 0 < t.nextKey := by
  simp only [nextKey]
  omega

theorem key_lt_nextKey (t : SequencedTable α) {k : Int} {a : α}
    (h : t.find k = some a) : k < t.nextKey := by
  have := t.key_le_seq (k, a) ((t.mem_rows_iff k a).mpr h)
  simp only [nextKey]
  omega

theorem find_nextKey (t : SequencedTable α) : t.find t.nextKey = none := by
  cases h : t.find t.nextKey with
  | none => rfl
  | some a => exact absurd (t.key_lt_nextKey h) (Int.lt_irrefl _)

def push (t : SequencedTable α) (a : α) : SequencedTable α :=
  { t.toTable.insert t.nextKey a t.find_nextKey with
    seq := t.seq + 1
    key_le_seq := by
      intro row hrow
      rcases List.mem_append.mp hrow with h | h
      · have := t.key_le_seq row h
        omega
      · obtain rfl : row = (t.nextKey, a) := by simpa using h
        simp [nextKey] }

/-- The rows that satisfy `keep`; the counter stays. -/
def restrict (t : SequencedTable α) (keep : Int → α → Bool) : SequencedTable α :=
  { t.toTable.restrict keep with
    seq := t.seq
    key_le_seq := fun row hrow => t.key_le_seq row (List.mem_filter.mp hrow).1 }

/-- The row under `k` is gone; its key will not be given out again. -/
def erase (t : SequencedTable α) (k : Int) : SequencedTable α := t.restrict fun k' _ => k' ≠ k

def set (t : SequencedTable α) (k : Int) (a : α) : SequencedTable α :=
  { t.toTable.set k a with
    seq := t.seq
    key_le_seq := by
      intro row hrow
      obtain ⟨source, hsource, rfl⟩ := List.mem_map.mp hrow
      exact t.key_le_seq source hsource }

@[simp] theorem find_empty (k : Int) : (empty : SequencedTable α).find k = none := rfl

@[simp] theorem nextKey_push (t : SequencedTable α) (a : α) :
    (t.push a).nextKey = t.nextKey + 1 := by
  simp [push, nextKey]

@[simp] theorem nextKey_restrict (t : SequencedTable α) (keep : Int → α → Bool) :
    (t.restrict keep).nextKey = t.nextKey := rfl

@[simp] theorem nextKey_erase (t : SequencedTable α) (k : Int) :
    (t.erase k).nextKey = t.nextKey := rfl

@[simp] theorem nextKey_set (t : SequencedTable α) (k : Int) (a : α) :
    (t.set k a).nextKey = t.nextKey := rfl

theorem find_push (t : SequencedTable α) (a : α) (k : Int) :
    (t.push a).find k = if k = t.nextKey then some a else t.find k :=
  t.toTable.find_insert t.nextKey k a t.find_nextKey

theorem isSome_find_push {t : SequencedTable α} {a : α} {k : Int} (h : (t.find k).isSome) :
    ((t.push a).find k).isSome := by
  rw [find_push]
  split
  · rfl
  · exact h

theorem find_restrict (t : SequencedTable α) (keep : Int → α → Bool) (k : Int) :
    (t.restrict keep).find k = (t.find k).filter (keep k) :=
  t.toTable.find_restrict keep k

theorem find_erase (t : SequencedTable α) (k k' : Int) :
    (t.erase k).find k' = if k' = k then none else t.find k' :=
  t.toTable.find_erase k k'

theorem find_set (t : SequencedTable α) (k k' : Int) (a : α) :
    (t.set k a).find k' = if k' = k then (t.find k').map fun _ => a else t.find k' :=
  t.toTable.find_set k k' a

end SequencedTable

end MvcBackend.Library.KeyedTable
