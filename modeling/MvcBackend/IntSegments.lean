import Mathlib.Data.List.TakeWhile
import MvcBackend.RouteTables

/-!
What `Int` accepts: `std::stoi` reads the number at the front of a segment, and
neither white space before it nor anything else after it stops the parse.
-/

namespace MvcBackend.IntSegments

open MvcBackend.JsonValues
open MvcBackend.ApiParse
open MvcBackend.ApiParse.Parser
open MvcBackend.RouteTables

/-- The ways to write a sign, each with the factor it stands for. -/
def signs : List (Str × Int) := [([], 1), (str "+", 1), (str "-", -1)]

/-- The whole of `s` is a number, and this number is the `int` `n`. -/
def WholeInt (s : Str) (n : Int) : Prop :=
  IsInt n ∧ ∃ sign factor digits, (sign, factor) ∈ signs ∧ s = sign ++ digits ∧
    digits ≠ [] ∧ (∀ c ∈ digits, isDigit c) ∧ n = factor * digitsValue digits

/-- The number that `s` has between white space and something that does not go
on with it. -/
structure Surrounded (space number tail s : Str) (n : Int) : Prop where
  eq_append : s = space ++ (number ++ tail)
  leading : ∀ c ∈ space, isSpace c
  wholeInt : WholeInt number n
  trailing : ∀ c ∈ tail.head?, isDigit c = false

/-- A number with something before or after it. -/
def Padded (s : Str) : Prop :=
  ∃ space number tail n, Surrounded space number tail s n ∧ (space ≠ [] ∨ tail ≠ [])

theorem not_isSpace_of_isDigit {c : UInt8} (h : isDigit c = true) : isSpace c = false := by
  simp only [isDigit, isSpace, Bool.and_eq_true, decide_eq_true_eq, UInt8.le_iff_toNat_le,
    ← UInt8.toNat_inj, UInt8.reduceToNat, Bool.or_eq_false_iff, Bool.and_eq_false_iff,
    decide_eq_false_iff_not] at h ⊢
  omega

theorem splitSign_append {sign : Str} {factor : Int} (hsign : (sign, factor) ∈ signs) {c : UInt8}
    (hc : isDigit c = true) (rest : Str) :
    splitSign (sign ++ c :: rest) = (factor, c :: rest) := by
  have hminus : c ≠ 0x2D := by
    rintro rfl
    revert hc
    decide
  have hplus : c ≠ 0x2B := by
    rintro rfl
    revert hc
    decide
  simp only [signs, List.mem_cons, Prod.mk.injEq, List.not_mem_nil, or_false] at hsign
  obtain ⟨rfl, rfl⟩ | ⟨rfl, rfl⟩ | ⟨rfl, rfl⟩ := hsign
  · simp [splitSign, hminus, hplus]
  · rfl
  · rfl

theorem exists_sign (s : Str) :
    ∃ sign, (sign, (splitSign s).1) ∈ signs ∧ s = sign ++ (splitSign s).2 := by
  fun_cases splitSign s
  · exact ⟨str "-", by simp [signs], rfl⟩
  · exact ⟨str "+", by simp [signs], rfl⟩
  · exact ⟨[], by simp [signs], rfl⟩

/-- Only a sign can stand before the digits of a number, and it is no space. -/
theorem WholeInt.exists_cons {s : Str} {n : Int} (h : WholeInt s n) :
    ∃ c rest, s = c :: rest ∧ isSpace c = false ∧ ∀ d ∈ rest, isDigit d := by
  obtain ⟨-, sign, factor, digits, hsign, rfl, hne, hdigits, -⟩ := h
  obtain ⟨c, digits, rfl⟩ := List.exists_cons_of_ne_nil hne
  simp only [signs, List.mem_cons, Prod.mk.injEq, List.not_mem_nil, or_false] at hsign
  obtain ⟨rfl, -⟩ | ⟨rfl, -⟩ | ⟨rfl, -⟩ := hsign
  · exact ⟨c, digits, rfl, not_isSpace_of_isDigit (hdigits c (by simp)), fun d hd =>
      hdigits d (by simp [hd])⟩
  · exact ⟨0x2B, c :: digits, rfl, by decide, hdigits⟩
  · exact ⟨0x2D, c :: digits, rfl, by decide, hdigits⟩

theorem takeWhile_append_tail {p : UInt8 → Bool} {front tail : Str} (hfront : ∀ c ∈ front, p c)
    (htail : ∀ c ∈ tail.head?, p c = false) : (front ++ tail).takeWhile p = front := by
  rw [List.takeWhile_append_of_pos hfront]
  cases tail with
  | nil => simp
  | cons c tail => simp [htail c (by simp)]

theorem dropWhile_append_tail {p : UInt8 → Bool} {front tail : Str} (hfront : ∀ c ∈ front, p c)
    (htail : ∀ c ∈ tail.head?, p c = false) : (front ++ tail).dropWhile p = tail := by
  rw [List.dropWhile_append_of_pos hfront]
  cases tail with
  | nil => simp
  | cons c tail => simp [htail c (by simp)]

theorem Surrounded.stoi_eq {space number tail s : Str} {n : Int}
    (h : Surrounded space number tail s n) : stoi s = .ok n := by
  obtain ⟨rfl, hspace, hnumber, htail⟩ := h
  obtain ⟨c, rest, hcons, hc, -⟩ := hnumber.exists_cons
  have hdrop : (space ++ (number ++ tail)).dropWhile isSpace = number ++ tail :=
    dropWhile_append_tail hspace (by simp [hcons, hc])
  obtain ⟨hint, sign, factor, digits, hsign, rfl, hne, hdigits, rfl⟩ := hnumber
  have hsplit : splitSign (sign ++ digits ++ tail) = (factor, digits ++ tail) := by
    obtain ⟨d, digits, rfl⟩ := List.exists_cons_of_ne_nil hne
    rw [List.append_assoc]
    exact splitSign_append hsign (hdigits d (by simp)) (digits ++ tail)
  simp only [stoi, hdrop, hsplit, takeWhile_append_tail hdigits htail, List.isEmpty_iff, hne, hint,
    ↓reduceIte]

theorem head_dropWhile {p : UInt8 → Bool} (s : Str) : ∀ c ∈ (s.dropWhile p).head?, p c = false := by
  intro c hc
  have h := List.head?_dropWhile_not p s
  rwa [Option.mem_def.mp hc] at h

theorem surrounded_of_stoi {s : Str} {n : Int} (h : stoi s = .ok n) :
    ∃ space number tail, Surrounded space number tail s n := by
  obtain ⟨sign, hsign, hrest⟩ := exists_sign (s.dropWhile isSpace)
  simp only [stoi, List.isEmpty_iff] at h
  split at h
  · cases h
  · next hne =>
      split at h
      · next hint =>
          cases h
          have hdigits := List.takeWhile_append_dropWhile (p := isDigit)
            (l := (splitSign (s.dropWhile isSpace)).2)
          refine ⟨s.takeWhile isSpace, sign ++ (splitSign (s.dropWhile isSpace)).2.takeWhile isDigit,
            (splitSign (s.dropWhile isSpace)).2.dropWhile isDigit, ?_, ?_, ?_, ?_⟩
          · rw [List.append_assoc, hdigits, ← hrest, List.takeWhile_append_dropWhile]
          · exact fun c hc => List.mem_takeWhile_imp hc
          · exact ⟨hint, sign, _, _, hsign, rfl, hne, fun c hc => List.mem_takeWhile_imp hc, rfl⟩
          · exact head_dropWhile _
      · cases h

theorem WholeInt.surrounded {s : Str} {n : Int} (h : WholeInt s n) : Surrounded [] s [] s n :=
  ⟨by simp, by simp, h, by simp⟩

theorem WholeInt.stoi_eq {s : Str} {n : Int} (h : WholeInt s n) : stoi s = .ok n :=
  h.surrounded.stoi_eq

theorem not_wholeInt_of_padded {s : Str} (h : Padded s) (n : Int) : ¬ WholeInt s n := by
  intro hwhole
  obtain ⟨space, number, tail, n', ⟨rfl, hspace, hnumber, htail⟩, hpadding⟩ := h
  obtain ⟨c, rest, hcons, hc, hrest⟩ := hwhole.exists_cons
  rcases space with _ | ⟨c', space⟩
  · obtain ⟨d, rest', rfl, -, -⟩ := hnumber.exists_cons
    obtain ⟨b, tail, rfl⟩ := List.exists_cons_of_ne_nil (hpadding.resolve_left (by simp))
    obtain ⟨rfl, rfl⟩ : d = c ∧ rest' ++ b :: tail = rest := by simpa using hcons
    have hb := hrest b (by simp)
    rw [htail b (by simp)] at hb
    cases hb
  · obtain ⟨rfl, -⟩ : c' = c ∧ space ++ (number ++ tail) = rest := by simpa using hcons
    rw [hspace c' (by simp)] at hc
    cases hc

variable {ρ : Type}

theorem parse_int (s : Str) (segments : List Str) :
    parse .int ⟨s :: segments⟩ =
      .ok ((stoi s).toOption.map fun n => (⟨⟨segments⟩, [.int n]⟩ : Result ρ)) := by
  have h := parse_token_cons (ρ := ρ) .int s segments
  simpa [Token.parser, tokenReader, Function.comp_def] using h

/-- `Int` matches a segment exactly when the whole of it is a number. -/
def ParsesWhole (ρ : Type) (s : Str) (segments : List Str) : Prop :=
  (∀ r : Result ρ, parse .int ⟨s :: segments⟩ = .ok (some r) ↔
    ∃ n, WholeInt s n ∧ r = ⟨⟨segments⟩, [.int n]⟩) ∧
  ((∀ n, ¬ WholeInt s n) → parse .int ⟨s :: segments⟩ = .ok (none : Parsed ρ))

/-- It does so unless a number stands in the segment with something around it. -/
theorem parsesWhole_iff (s : Str) (segments : List Str) :
    ParsesWhole ρ s segments ↔ ¬ Padded s := by
  rw [ParsesWhole, parse_int]
  constructor
  · rintro ⟨-, hnone⟩ hpadded
    have hstoi := hnone (not_wholeInt_of_padded hpadded)
    obtain ⟨space, number, tail, n, hsurrounded, -⟩ := hpadded
    simp [hsurrounded.stoi_eq, Except.toOption] at hstoi
  · intro hpadded
    have hwhole : ∀ n, stoi s = .ok n ↔ WholeInt s n := by
      intro n
      refine ⟨fun hstoi => ?_, WholeInt.stoi_eq⟩
      obtain ⟨space, number, tail, hsurrounded⟩ := surrounded_of_stoi hstoi
      obtain ⟨rfl, rfl⟩ : space = [] ∧ tail = [] := by
        by_contra hne
        exact hpadded ⟨space, number, tail, n, hsurrounded, not_and_or.mp hne⟩
      obtain rfl : s = number := by simpa using hsurrounded.eq_append
      exact hsurrounded.wholeInt
    simp only [← hwhole]
    rcases stoi s with e | n
    · simp [Except.toOption]
    · simp [Except.toOption, eq_comm]

/-- `/api/get_task/12abc` shows task 12. -/
theorem parses_trailing_letters : ¬ ParsesWhole Unit (str "12abc") [] := by
  rintro ⟨-, hnone⟩
  have hletter : ∀ n, ¬ WholeInt (str "12abc") n := by
    intro n hwhole
    obtain ⟨c, rest, hcons, -, hrest⟩ := hwhole.exists_cons
    cases hcons
    exact absurd (hrest 0x61 (by decide)) (by decide)
  have hparse := hnone hletter
  rw [parse_int] at hparse
  cases hparse

end MvcBackend.IntSegments
