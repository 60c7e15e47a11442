import MvcBackend.ApiParse

/-!
`All` threads one tuple through a list of parsers, so a list can be cut
anywhere, and a part of it can be made an `All` of its own.
-/

namespace MvcBackend.Sequencing

open MvcBackend.ApiParse
open MvcBackend.ApiParse.Parser

variable {ρ : Type}

/-- One parse after another, and both tuples put together. -/
def andThen (first second : State → Except ParseFault (Parsed ρ)) (s : State) :
    Except ParseFault (Parsed ρ) := do
  match ← first s with
  | some r => return (← second r.nextState).map fun r' => ⟨r'.nextState, r.result ++ r'.result⟩
  | none => return none

/-- The result with these values before its own. -/
def prefixed (curTuple : List (Val ρ)) (r : Result ρ) : Result ρ :=
  ⟨r.nextState, curTuple ++ r.result⟩

theorem prefixed_prefixed (first second : List (Val ρ)) (r : Result ρ) :
    prefixed first (prefixed second r) = prefixed (first ++ second) r := by
  simp [prefixed]

/-- The values parsed so far do not matter to what comes after them. -/
theorem allParse_prefixed (parsers : List (Parser ρ)) (curTuple : List (Val ρ)) (s : State) :
    allParse parsers curTuple s = (allParse parsers [] s).map (Option.map (prefixed curTuple)) := by
  induction parsers generalizing curTuple s with
  | nil => simp [allParse, prefixed, pure, Except.pure, Except.map]
  | cons parser parsers ih =>
      simp only [allParse, List.nil_append]
      rcases parse parser s with e | _ | r
      · rfl
      · rfl
      · show allParse parsers (curTuple ++ r.result) r.nextState =
          (allParse parsers r.result r.nextState).map (Option.map (prefixed curTuple))
        rw [ih, ih r.result]
        rcases allParse parsers [] r.nextState with e | _ | r'
        · rfl
        · rfl
        · simp [Except.map, prefixed_prefixed]

theorem allParse_append_from (first second : List (Parser ρ)) (curTuple : List (Val ρ))
    (s : State) :
    allParse (first ++ second) curTuple s =
      andThen (allParse first curTuple) (allParse second []) s := by
  induction first generalizing curTuple s with
  | nil =>
      rw [List.nil_append, allParse_prefixed]
      rfl
  | cons parser parsers ih =>
      simp only [List.cons_append, allParse, andThen]
      rcases parse parser s with e | _ | r
      · rfl
      · rfl
      · exact ih (curTuple ++ r.result) r.nextState

theorem allParse_append (first second : List (Parser ρ)) :
    allParse (first ++ second) [] = andThen (allParse first []) (allParse second []) := by
  funext s
  exact allParse_append_from first second [] s

theorem andThen_unit_left (parser : State → Except ParseFault (Parsed ρ)) :
    andThen (allParse [] []) parser = parser := by
  funext s
  show (parser s >>= _) = _
  rcases parser s with e | _ | r <;> rfl

theorem andThen_unit_right (parser : State → Except ParseFault (Parsed ρ)) :
    andThen parser (allParse [] []) = parser := by
  funext s
  rw [andThen]
  rcases parser s with e | _ | r
  · rfl
  · rfl
  · show Except.ok (some (Result.mk r.nextState (r.result ++ []))) = _
    rw [List.append_nil]

theorem andThen_assoc (first second third : State → Except ParseFault (Parsed ρ)) :
    andThen (andThen first second) third = andThen first (andThen second third) := by
  funext s
  simp only [andThen, bind, Except.bind]
  rcases first s with e | _ | r
  · rfl
  · rfl
  · simp only
    rcases second r.nextState with e | _ | r'
    · rfl
    · rfl
    · simp only [pure, Except.pure, Option.map_some]
      rcases third r'.nextState with e | _ | r''
      · rfl
      · rfl
      · simp only [Option.map_some, List.append_assoc]

/-- A nested `All` is the one parser of a list. -/
theorem allParse_singleton_all (parsers : List (Parser ρ)) :
    allParse [.all parsers] [] = allParse parsers [] := by
  funext s
  simp only [allParse, parse]
  rcases allParse parsers [] s with e | _ | r <;> rfl

/-- `All` is associative: a nested `All` parses like its parsers in its place,
and a longer list like its parts one after the other, with `All<>` as the unit. -/
theorem sequencing (first second third : List (Parser ρ)) :
    parse (.all (first ++ .all second :: third)) = parse (.all (first ++ second ++ third)) ∧
      parse (.all (first ++ second)) = andThen (parse (.all first)) (parse (.all second)) ∧
      (∀ s : State, parse (.all ([] : List (Parser ρ))) s = .ok (some ⟨s, []⟩)) ∧
      ∀ parser : Parser ρ,
        andThen (parse (.all [])) (parse parser) = parse parser ∧
          andThen (parse parser) (parse (.all [])) = parse parser := by
  have hall : ∀ parsers : List (Parser ρ), parse (.all parsers) = allParse parsers [] := by
    intro parsers
    funext s
    rw [parse]
  simp only [hall]
  refine ⟨?_, allParse_append first second, fun s => by rw [allParse]; rfl, fun parser => ?_⟩
  · calc
      allParse (first ++ .all second :: third) [] =
          andThen (allParse first []) (andThen (allParse [.all second] []) (allParse third [])) := by
        rw [← allParse_append [.all second] third, ← allParse_append]
        rfl
      _ = andThen (andThen (allParse first []) (allParse second [])) (allParse third []) := by
        rw [allParse_singleton_all, andThen_assoc]
      _ = allParse (first ++ second ++ third) [] := by
        rw [← allParse_append, ← allParse_append]
  · exact ⟨andThen_unit_left _, andThen_unit_right _⟩

end MvcBackend.Sequencing
