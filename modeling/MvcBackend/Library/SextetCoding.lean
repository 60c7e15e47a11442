import Mathlib.Algebra.Group.Nat.Defs
import Mathlib.Data.List.Nodup

/-!
Bytes written as symbols of six bits each, four symbols for every three bytes.
One or two last bytes take two or three symbols, whose spare bits are zero when
written and ignored when read.
-/

namespace MvcBackend.Library.SextetCoding

variable {σ : Type}

/-- Sixty-four different symbols, each standing for its position. -/
structure Alphabet (σ : Type) where
  letters : List σ
  length_letters : letters.length = 64
  nodup_letters : letters.Nodup

namespace Alphabet

variable (A : Alphabet σ)

/-- The symbol for the low six bits of a number. -/
def letter (n : Nat) : σ :=
  A.letters.get ⟨n % 64, by rw [A.length_letters]; exact Nat.mod_lt n (by decide)⟩

def sextet [DecidableEq σ] (c : σ) : Option Nat := A.letters.findIdx? (· = c)

theorem letter_congr {m n : Nat} (h : m % 64 = n % 64) : A.letter m = A.letter n := by
  simp only [letter, h]

theorem letter_mem (n : Nat) : A.letter n ∈ A.letters := List.get_mem _ _

section

variable [DecidableEq σ]

theorem sextet_eq_some_iff {c : σ} {n : Nat} : A.sextet c = some n ↔ n < 64 ∧ A.letter n = c := by
  simp only [sextet, List.findIdx?_eq_some_iff_getElem, A.length_letters, decide_eq_true_eq]
  constructor
  · rintro ⟨hn, hc, -⟩
    refine ⟨hn, ?_⟩
    simpa [letter, Nat.mod_eq_of_lt hn] using hc
  · rintro ⟨hn, hc⟩
    have hlt : n < A.letters.length := by rwa [A.length_letters]
    have hget : A.letters[n] = c := by
      simpa [letter, Nat.mod_eq_of_lt hn] using hc
    refine ⟨hn, hget, fun m hm heq => ?_⟩
    exact absurd (A.nodup_letters.getElem_inj_iff.mp (heq.trans hget.symm)) (by omega)

@[simp] theorem sextet_letter (n : Nat) : A.sextet (A.letter n) = some (n % 64) := by
  rw [sextet_eq_some_iff]
  refine ⟨Nat.mod_lt n (by decide), ?_⟩
  simp [letter]

theorem exists_sextet_iff {c : σ} : (∃ n, A.sextet c = some n) ↔ c ∈ A.letters := by
  constructor
  · rintro ⟨n, hn⟩
    obtain ⟨-, rfl⟩ := A.sextet_eq_some_iff.mp hn
    exact A.letter_mem n
  · intro hc
    obtain ⟨n, hn, rfl⟩ := List.mem_iff_getElem.mp hc
    rw [A.length_letters] at hn
    refine ⟨n, A.sextet_eq_some_iff.mpr ⟨hn, ?_⟩⟩
    simp [letter, Nat.mod_eq_of_lt hn]

end

end Alphabet

/-- Three bytes as one number. -/
def triple (a b c : UInt8) : Nat := a.toNat * 2 ^ 16 + b.toNat * 2 ^ 8 + c.toNat

theorem triple_lt (a b c : UInt8) : triple a b c < 2 ^ 24 := by
  have ha := a.toNat_lt
  have hb := b.toNat_lt
  have hc := c.toNat_lt
  simp only [triple]
  omega

/-- Four sextets as one number. -/
def joined (a b c d : Nat) : Nat := a * 2 ^ 18 + b * 2 ^ 12 + c * 2 ^ 6 + d

theorem joined_split {n : Nat} (hn : n < 2 ^ 24) :
    joined (n / 2 ^ 18 % 64) (n / 2 ^ 12 % 64) (n / 2 ^ 6 % 64) (n % 64) = n := by
  simp only [joined]
  omega

/-- Sextets in front are not affected by those behind them being cleared. -/
theorem joined_split_two {n : Nat} (hn : n < 2 ^ 24) (hlow : n % 2 ^ 12 = 0) :
    joined (n / 2 ^ 18 % 64) (n / 2 ^ 12 % 64) 0 0 = n := by
  simp only [joined]
  omega

theorem joined_split_three {n : Nat} (hn : n < 2 ^ 24) (hlow : n % 2 ^ 6 = 0) :
    joined (n / 2 ^ 18 % 64) (n / 2 ^ 12 % 64) (n / 2 ^ 6 % 64) 0 = n := by
  simp only [joined]
  omega

def byteHigh (n : Nat) : UInt8 := UInt8.ofNat (n / 2 ^ 16 % 256)

def byteMid (n : Nat) : UInt8 := UInt8.ofNat (n / 2 ^ 8 % 256)

def byteLow (n : Nat) : UInt8 := UInt8.ofNat (n % 256)

section

variable (a b c : UInt8)

@[simp] theorem byteHigh_triple : byteHigh (triple a b c) = a := by
  have ha := a.toNat_lt
  have hb := b.toNat_lt
  have hc := c.toNat_lt
  have h : triple a b c / 2 ^ 16 % 256 = a.toNat := by
    simp only [triple]
    omega
  rw [byteHigh, h, UInt8.ofNat_toNat]

@[simp] theorem byteMid_triple : byteMid (triple a b c) = b := by
  have hb := b.toNat_lt
  have hc := c.toNat_lt
  have h : triple a b c / 2 ^ 8 % 256 = b.toNat := by
    simp only [triple]
    omega
  rw [byteMid, h, UInt8.ofNat_toNat]

@[simp] theorem byteLow_triple : byteLow (triple a b c) = c := by
  have hc := c.toNat_lt
  have h : triple a b c % 256 = c.toNat := by
    simp only [triple]
    omega
  rw [byteLow, h, UInt8.ofNat_toNat]

end

/-- The bytes of a number, put together again with those behind them cleared. -/
theorem triple_bytes {n : Nat} (hn : n < 2 ^ 24) :
    triple (byteHigh n) 0 0 = n / 2 ^ 16 * 2 ^ 16 ∧
      triple (byteHigh n) (byteMid n) 0 = n / 2 ^ 8 * 2 ^ 8 ∧
      triple (byteHigh n) (byteMid n) (byteLow n) = n := by
  simp only [triple, byteHigh, byteMid, byteLow, UInt8.toNat_ofNat', UInt8.toNat_zero]
  omega

namespace Alphabet

variable (A : Alphabet σ)

def pack : List UInt8 → List σ
  | [] => []
  | [a] =>
      let n := triple a 0 0
      [A.letter (n / 2 ^ 18), A.letter (n / 2 ^ 12)]
  | [a, b] =>
      let n := triple a b 0
      [A.letter (n / 2 ^ 18), A.letter (n / 2 ^ 12), A.letter (n / 2 ^ 6)]
  | a :: b :: c :: rest =>
      let n := triple a b c
      A.letter (n / 2 ^ 18) :: A.letter (n / 2 ^ 12) :: A.letter (n / 2 ^ 6) :: A.letter n ::
        pack rest

theorem length_pack (bytes : List UInt8) : (A.pack bytes).length = (4 * bytes.length + 2) / 3 := by
  induction bytes using pack.induct with
  | case1 => rfl
  | case2 a => simp [pack]
  | case3 a b => simp [pack]
  | case4 a b c rest ih =>
      simp only [pack, List.length_cons, ih]
      omega

theorem mem_letters_of_mem_pack {bytes : List UInt8} {c : σ} (hc : c ∈ A.pack bytes) :
    c ∈ A.letters := by
  induction bytes using pack.induct with
  | case1 => simp [pack] at hc
  | case2 a =>
      simp only [pack, List.mem_cons, List.not_mem_nil, or_false] at hc
      rcases hc with rfl | rfl <;> exact A.letter_mem _
  | case3 a b =>
      simp only [pack, List.mem_cons, List.not_mem_nil, or_false] at hc
      rcases hc with rfl | rfl | rfl <;> exact A.letter_mem _
  | case4 a b c rest ih =>
      simp only [pack, List.mem_cons] at hc
      rcases hc with rfl | rfl | rfl | rfl | hc
      · exact A.letter_mem _
      · exact A.letter_mem _
      · exact A.letter_mem _
      · exact A.letter_mem _
      · exact ih hc

section

variable [DecidableEq σ]

def unpack : List σ → Option (List UInt8)
  | [] => some []
  | [_] => none
  | [a, b] => do
      let n := joined (← A.sextet a) (← A.sextet b) 0 0
      return [byteHigh n]
  | [a, b, c] => do
      let n := joined (← A.sextet a) (← A.sextet b) (← A.sextet c) 0
      return [byteHigh n, byteMid n]
  | a :: b :: c :: d :: rest => do
      let n := joined (← A.sextet a) (← A.sextet b) (← A.sextet c) (← A.sextet d)
      return byteHigh n :: byteMid n :: byteLow n :: (← unpack rest)

theorem unpack_pack (bytes : List UInt8) : A.unpack (A.pack bytes) = some bytes := by
  induction bytes using pack.induct with
  | case1 => rfl
  | case2 a =>
      have hlow : triple a 0 0 % 2 ^ 12 = 0 := by
        simp only [triple, UInt8.toNat_zero]
        omega
      simp only [pack, unpack, sextet_letter, Option.bind_eq_bind, Option.bind_some, Option.pure_def,
        joined_split_two (triple_lt a 0 0) hlow, byteHigh_triple]
  | case3 a b =>
      have hlow : triple a b 0 % 2 ^ 6 = 0 := by
        simp only [triple, UInt8.toNat_zero]
        omega
      simp only [pack, unpack, sextet_letter, Option.bind_eq_bind, Option.bind_some, Option.pure_def,
        joined_split_three (triple_lt a b 0) hlow, byteHigh_triple, byteMid_triple]
  | case4 a b c rest ih =>
      simp only [pack, unpack, sextet_letter, Option.bind_eq_bind, Option.bind_some, Option.pure_def,
        joined_split (triple_lt a b c), byteHigh_triple, byteMid_triple, byteLow_triple, ih]

/-- What can be read: any symbols, unless one is left over alone. -/
theorem exists_unpack_iff {symbols : List σ} :
    (∃ bytes, A.unpack symbols = some bytes) ↔
      symbols.length % 4 ≠ 1 ∧ ∀ c ∈ symbols, c ∈ A.letters := by
  induction symbols using unpack.induct with
  | case1 => simp [unpack]
  | case2 a => simp [unpack]
  | case3 a b => simp [unpack, Option.bind_eq_some_iff, A.exists_sextet_iff]
  | case4 a b c => simp [unpack, Option.bind_eq_some_iff, A.exists_sextet_iff]
  | case5 a b c d rest ih =>
      have hlength : (a :: b :: c :: d :: rest).length % 4 = rest.length % 4 := by
        simp only [List.length_cons]
        omega
      have hread : (∃ bytes, A.unpack (a :: b :: c :: d :: rest) = some bytes) ↔
          (a ∈ A.letters ∧ b ∈ A.letters ∧ c ∈ A.letters ∧ d ∈ A.letters) ∧
            ∃ bytes, A.unpack rest = some bytes := by
        simp [unpack, Option.bind_eq_some_iff, A.exists_sextet_iff, and_assoc]
      rw [hread, hlength, ih]
      simp only [List.forall_mem_cons]
      tauto

/-- Of what is read every symbol is written again but for the last one, whose
spare bits may have been set; where there are none it is written again too. -/
theorem pack_of_unpack {symbols : List σ} {bytes : List UInt8}
    (h : A.unpack symbols = some bytes) :
    symbols.length = (A.pack bytes).length ∧ symbols.dropLast = (A.pack bytes).dropLast ∧
      (bytes.length % 3 = 0 → symbols = A.pack bytes) := by
  induction symbols using unpack.induct generalizing bytes with
  | case1 =>
      obtain rfl := Option.some.inj h
      simp [pack]
  | case2 a => simp [unpack] at h
  | case3 a b =>
      simp only [unpack, Option.bind_eq_bind, Option.bind_eq_some_iff, Option.pure_def,
        Option.some.injEq] at h
      obtain ⟨m, hm, n, hn, rfl⟩ := h
      obtain ⟨hm, rfl⟩ := A.sextet_eq_some_iff.mp hm
      obtain ⟨hn, rfl⟩ := A.sextet_eq_some_iff.mp hn
      have hlt : joined m n 0 0 < 2 ^ 24 := by
        simp only [joined]
        omega
      have hletter : A.letter (triple (byteHigh (joined m n 0 0)) 0 0 / 2 ^ 18) = A.letter m := by
        apply A.letter_congr
        rw [(triple_bytes hlt).1]
        simp only [joined]
        omega
      simp only [pack, hletter]
      refine ⟨by simp, by simp, fun hbytes => ?_⟩
      simp at hbytes
  | case4 a b c =>
      simp only [unpack, Option.bind_eq_bind, Option.bind_eq_some_iff, Option.pure_def,
        Option.some.injEq] at h
      obtain ⟨m, hm, n, hn, k, hk, rfl⟩ := h
      obtain ⟨hm, rfl⟩ := A.sextet_eq_some_iff.mp hm
      obtain ⟨hn, rfl⟩ := A.sextet_eq_some_iff.mp hn
      obtain ⟨hk, rfl⟩ := A.sextet_eq_some_iff.mp hk
      have hlt : joined m n k 0 < 2 ^ 24 := by
        simp only [joined]
        omega
      have hletter : A.letter (triple (byteHigh (joined m n k 0)) (byteMid (joined m n k 0)) 0 /
          2 ^ 18) = A.letter m := by
        apply A.letter_congr
        rw [(triple_bytes hlt).2.1]
        simp only [joined]
        omega
      have hletter' : A.letter (triple (byteHigh (joined m n k 0)) (byteMid (joined m n k 0)) 0 /
          2 ^ 12) = A.letter n := by
        apply A.letter_congr
        rw [(triple_bytes hlt).2.1]
        simp only [joined]
        omega
      simp only [pack, hletter, hletter']
      refine ⟨by simp, by simp, fun hbytes => ?_⟩
      simp at hbytes
  | case5 a b c d rest ih =>
      simp only [unpack, Option.bind_eq_bind, Option.bind_eq_some_iff, Option.pure_def,
        Option.some.injEq] at h
      obtain ⟨m, hm, n, hn, k, hk, l, hl, bytes', hrest, rfl⟩ := h
      obtain ⟨hm, rfl⟩ := A.sextet_eq_some_iff.mp hm
      obtain ⟨hn, rfl⟩ := A.sextet_eq_some_iff.mp hn
      obtain ⟨hk, rfl⟩ := A.sextet_eq_some_iff.mp hk
      obtain ⟨hl, rfl⟩ := A.sextet_eq_some_iff.mp hl
      have hlt : joined m n k l < 2 ^ 24 := by
        simp only [joined]
        omega
      have hfirst : A.letter (joined m n k l / 2 ^ 18) = A.letter m := by
        apply A.letter_congr
        simp only [joined]
        omega
      have hsecond : A.letter (joined m n k l / 2 ^ 12) = A.letter n := by
        apply A.letter_congr
        simp only [joined]
        omega
      have hthird : A.letter (joined m n k l / 2 ^ 6) = A.letter k := by
        apply A.letter_congr
        simp only [joined]
        omega
      have hfourth : A.letter (joined m n k l) = A.letter l := by
        apply A.letter_congr
        simp only [joined]
        omega
      have hpack : A.pack (byteHigh (joined m n k l) :: byteMid (joined m n k l) ::
          byteLow (joined m n k l) :: bytes') =
          A.letter m :: A.letter n :: A.letter k :: A.letter l :: A.pack bytes' := by
        simp only [pack, (triple_bytes hlt).2.2, hfirst, hsecond, hthird, hfourth]
      obtain ⟨hlength, hdrop, hwhole⟩ := ih hrest
      rw [hpack]
      refine ⟨by simp [hlength], ?_, fun hbytes => ?_⟩
      · rcases rest with _ | ⟨c, rest⟩
        · have hempty : A.pack bytes' = [] := List.length_eq_zero_iff.mp hlength.symm
          rw [hempty]
        · rcases hpacked : A.pack bytes' with _ | ⟨c', packed⟩
          · simp [hpacked] at hlength
          · rw [hpacked] at hdrop
            simpa using hdrop
      · have hrest : bytes'.length % 3 = 0 := by
          simp only [List.length_cons] at hbytes
          omega
        rw [hwhole hrest]

end

end Alphabet

end MvcBackend.Library.SextetCoding
