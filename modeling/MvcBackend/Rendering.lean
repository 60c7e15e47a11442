import MvcBackend.IntSegments

/-!
A path rendered from tokens and their values parses to these values again.
-/

namespace MvcBackend.Rendering

open MvcBackend.JsonValues
open MvcBackend.ApiParse
open MvcBackend.ApiParse.Parser
open MvcBackend.RouteTables
open MvcBackend.IntSegments
open MvcBackend.Library.OrderedChoice

variable {ρ : Type}

/-- The decimal numeral of an integer. -/
def numeral (n : Int) : Str := str (toString n)

/-- The path that says these values, one for each token but a literal, where
they match the tokens. -/
def render : List Token → List (Val ρ) → Option ApiPath
  | [], [] => some []
  | .lit k :: tokens, values => (render tokens values).map fun path => k :: path
  | .int :: tokens, .int n :: values =>
      if IsInt n then (render tokens values).map fun path => numeral n :: path else none
  | .string :: tokens, .string s :: values => (render tokens values).map fun path => s :: path
  | _, _ => none

theorem toUInt8_digit {c : Char} (hc : c.isDigit = true) :
    isDigit c.toUInt8 = true ∧ c.toUInt8.toNat = c.toNat := by
  have hrange : 48 ≤ c.toNat ∧ c.toNat ≤ 57 := by
    simpa [Char.isDigit, UInt32.le_iff_toNat_le] using hc
  have htoNat : c.toUInt8.toNat = c.toNat := by
    rw [Char.toUInt8, UInt32.toNat_toUInt8]
    show c.toNat % 2 ^ 8 = c.toNat
    omega
  refine ⟨?_, htoNat⟩
  simp only [isDigit, UInt8.le_iff_toNat_le, htoNat, Bool.and_eq_true, decide_eq_true_eq]
  exact hrange

theorem digitsValue_map {digits : List Char} (hdigits : ∀ c ∈ digits, c.isDigit = true) :
    digitsValue (digits.map Char.toUInt8) = Nat.ofDigitChars 10 digits 0 := by
  rw [digitsValue, List.foldl_map, Nat.ofDigitChars]
  generalize 0 = n
  induction digits generalizing n with
  | nil => rfl
  | cons c digits ih =>
      rw [List.foldl_cons, List.foldl_cons, (toUInt8_digit (hdigits c (by simp))).2]
      exact ih (fun d hd => hdigits d (by simp [hd])) _

/-- The digits of a natural number denote it. -/
theorem digits_repr (n : Nat) :
    str n.repr ≠ [] ∧ (∀ c ∈ str n.repr, isDigit c) ∧ digitsValue (str n.repr) = n := by
  have hdigits : ∀ c ∈ Nat.toDigits 10 n, c.isDigit = true :=
    fun c hc => Nat.isDigit_of_mem_toDigits (by decide) (by decide) hc
  simp only [str, Nat.toList_repr]
  refine ⟨by simp, ?_, ?_⟩
  · intro c hc
    obtain ⟨d, hd, rfl⟩ := List.mem_map.mp hc
    exact (toUInt8_digit (hdigits d hd)).1
  · rw [digitsValue_map hdigits, Nat.ofDigitChars_ten_toDigits]

/-- A numeral is a sign and digits, whatever the size of the number. -/
theorem exists_numeral (n : Int) :
    ∃ sign factor digits, (sign, factor) ∈ [([], 1), (str "-", -1)] ∧ numeral n = sign ++ digits ∧
      digits ≠ [] ∧ (∀ c ∈ digits, isDigit c) ∧ n = factor * digitsValue digits := by
  rw [numeral, Int.toString_eq_repr, Int.repr_eq_if]
  split
  · next hn =>
      obtain ⟨hne, hdigits, hvalue⟩ := digits_repr n.toNat
      refine ⟨[], 1, str n.toNat.repr, by simp, rfl, hne, hdigits, ?_⟩
      rw [hvalue]
      omega
  · next hn =>
      obtain ⟨hne, hdigits, hvalue⟩ := digits_repr (-n).toNat
      refine ⟨str "-", -1, str (-n).toNat.repr, by simp, by simp [str], hne, hdigits, ?_⟩
      rw [hvalue]
      omega

theorem wholeInt_numeral {n : Int} (h : IsInt n) : WholeInt (numeral n) n := by
  obtain ⟨sign, factor, digits, hsign, hdigits⟩ := exists_numeral n
  refine ⟨h, sign, factor, digits, ?_, hdigits⟩
  rcases List.mem_pair.mp hsign with hsign | hsign <;> simp [hsign, signs]

theorem readAll_render {tokens : List Token} {values : List (Val ρ)} {path : ApiPath}
    (h : render tokens values = some path) :
    readAll (tokens.map tokenReader) path = some (values, []) := by
  fun_induction render tokens values generalizing path with
  | case1 =>
      obtain rfl : [] = path := by simpa using h
      rfl
  | case2 k tokens values ih =>
      obtain ⟨path, hpath, rfl⟩ := Option.map_eq_some_iff.mp h
      simp [readAll, tokenReader, ih hpath]
  | case3 tokens n values hn ih =>
      obtain ⟨path, hpath, rfl⟩ := Option.map_eq_some_iff.mp h
      have hstoi := (wholeInt_numeral hn).stoi_eq
      simp [readAll, tokenReader, ih hpath, hstoi, Except.toOption]
  | case4 tokens n values hn => cases h
  | case5 tokens s values ih =>
      obtain ⟨path, hpath, rfl⟩ := Option.map_eq_some_iff.mp h
      simp [readAll, tokenReader, ih hpath]
  | case6 => cases h

theorem rootParse_tokens (tokens : List Token) (path : ApiPath) :
    rootParse (tokens.map Token.parser) path =
      .ok ((readAll (tokens.map tokenReader) path).bind fun result : List (Val ρ) × List Str =>
        if result.2.isEmpty then some (flatten result.1) else none) := by
  rw [rootParse, allParse_tokens]
  rcases readAll (tokens.map tokenReader) path with _ | ⟨values, _ | ⟨segment, rest⟩⟩
  · rfl
  · rfl
  · rfl

/-- Parsing undoes rendering, and a path of another length is no rendering. -/
theorem parsing_undoes_rendering (tokens : List Token) (path : ApiPath) :
    (∀ values : List (Val ρ), render tokens values = some path →
      rootParse (tokens.map Token.parser) path = .ok (some (flatten values))) ∧
    rootParse ([] : List (Parser ρ)) path =
      .ok (if path = [] then some (.tuple []) else none) ∧
    (path.length ≠ tokens.length →
      rootParse (tokens.map Token.parser) path = .ok (none : Option (Val ρ))) := by
  refine ⟨?_, ?_, ?_⟩
  · intro values h
    simp [rootParse_tokens, readAll_render h]
  · have hempty := rootParse_tokens (ρ := ρ) [] path
    rw [List.map_nil, List.map_nil, readAll] at hempty
    rw [hempty]
    cases path <;> rfl
  · intro hlength
    rw [rootParse_tokens]
    rcases hread : readAll (tokens.map (tokenReader (ρ := ρ))) path with _ | ⟨values, rest⟩
    · rfl
    · have hrest := length_of_readAll hread
      rw [List.length_map] at hrest
      cases rest with
      | nil => exact absurd hrest hlength
      | cons segment rest => rfl

theorem parsing_undoes_rendering_signed :
    rootParse ([Token.lit (str "task"), .int, .string].map Token.parser)
        [str "task", str "-2147483648", str "task"] =
      .ok (some (.tuple [.int (-2147483648), .string (str "task")]) : Option (Val Unit)) ∧
    rootParse ([Token.int].map Token.parser) [] = .ok (none : Option (Val Unit)) :=
  ⟨(parsing_undoes_rendering _ _).1 [.int (-2147483648), .string (str "task")] (by decide),
    (parsing_undoes_rendering _ _).2.2 (by decide)⟩

end MvcBackend.Rendering
