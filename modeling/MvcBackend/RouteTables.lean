import MvcBackend.Library.OrderedChoice
import MvcBackend.ApiRouter

/-!
The parser of a route table is ordered choice between the recognisers of its
entries, behind the segment `api`.
-/

namespace MvcBackend.RouteTables

open MvcBackend.JsonValues
open MvcBackend.ApiParse
open MvcBackend.ApiParse.Parser
open MvcBackend.Library.OrderedChoice

variable {ρ : Type}

def tokenReader : Token → Str → Option (List (Val ρ))
  | .lit k, segment => if segment = k then some [] else none
  | .int, segment => (stoi segment).toOption.map fun n => [.int n]
  | .string, segment => some [.string segment]

def routeRecogniser (route : Route ρ) : Recogniser Str ρ :=
  inSequence route.make (route.tokens.map tokenReader)

def objectResult (result : ρ × List Str) : Result ρ := ⟨⟨result.2⟩, [.object result.1]⟩

theorem litParse_cons (k segment : Str) (segments : List Str) :
    litParse k ⟨segment :: segments⟩ =
      .ok (if segment = k then some ⟨⟨segments⟩, ([] : List (Val ρ))⟩ else none) := by
  show (if segment = k then _ else _ : Except ParseFault (Parsed ρ)) = _
  split <;> rfl

theorem parse_token_nil (token : Token) :
    parse token.parser ⟨[]⟩ = .ok (none : Parsed ρ) := by
  cases token <;> rfl

theorem parse_token_cons (token : Token) (segment : Str) (segments : List Str) :
    parse token.parser ⟨segment :: segments⟩ =
      .ok ((tokenReader token segment).map fun items : List (Val ρ) => ⟨⟨segments⟩, items⟩) := by
  cases token with
  | lit k =>
      simp only [Token.parser, parse, litParse_cons, tokenReader]
      split <;> rfl
  | int =>
      simp only [Token.parser, parse, intParse, State.atEnd, State.next, State.segment,
        List.isEmpty_cons, Bool.false_eq_true, ↓reduceIte, tokenReader]
      rcases hstoi : stoi segment with (_ | _) | n <;>
        simp [bind, Except.bind, pure, Except.pure, Except.toOption, hstoi]
  | string => rfl

theorem allParse_tokens (tokens : List Token) (items : List (Val ρ)) (segments : List Str) :
    allParse (tokens.map Token.parser) items ⟨segments⟩ =
      .ok ((readAll (tokens.map tokenReader) segments).map fun result =>
        ⟨⟨result.2⟩, items ++ result.1⟩) := by
  induction tokens generalizing items segments with
  | nil =>
      simp only [List.map_nil, allParse, readAll, Option.map_some, List.append_nil]
      rfl
  | cons token tokens ih =>
      cases segments with
      | nil =>
          simp only [List.map_cons, allParse, parse_token_nil, readAll, Option.map_none]
          rfl
      | cons segment segments =>
          simp only [List.map_cons, allParse, parse_token_cons, readAll]
          cases (tokenReader token segment : Option (List (Val ρ))) with
          | none => rfl
          | some read =>
              show allParse (tokens.map Token.parser) (items ++ read) ⟨segments⟩ = _
              simp [ih, Function.comp_def]

theorem parse_route (route : Route ρ) (segments : List Str) :
    parse route.parser ⟨segments⟩ =
      .ok (((routeRecogniser route).run segments).map objectResult) := by
  simp only [Route.parser, parse, allParse_tokens, routeRecogniser, inSequence, Option.map_map]
  cases readAll (route.tokens.map tokenReader) segments <;> rfl

theorem firstParse_routes (table : List (Route ρ)) (segments : List Str) :
    firstParse (table.map Route.parser) ⟨segments⟩ =
      .ok ((choose (table.map routeRecogniser) segments).map objectResult) := by
  induction table with
  | nil => rfl
  | cons route table ih =>
      simp only [List.map_cons, firstParse, parse_route, choose, List.findSome?_cons]
      cases (routeRecogniser route).run segments with
      | none => exact ih
      | some result => rfl

def apiObject (table : List (Route ρ)) : ApiPath → Option ρ
  | [] => none
  | segment :: segments =>
      if segment = str "api" then chooseFull (table.map routeRecogniser) segments else none

/-- Nothing goes wrong in a parse: the choice is made, and then the end of the
path is checked. -/
theorem rootParse_api (table : List (Route ρ)) (path : ApiPath) :
    rootParse (apiParsers table) path = .ok ((apiObject table path).map Val.object) := by
  cases path with
  | nil => rfl
  | cons segment segments =>
      simp only [rootParse, apiParsers, allParse, parse, litParse_cons, apiObject]
      split
      · simp only [bind, Except.bind, firstParse_routes, chooseFull]
        cases choose (table.map routeRecogniser) segments with
        | none => rfl
        | some result =>
            obtain ⟨object, rest⟩ := result
            cases rest <;> rfl
      · rfl

end MvcBackend.RouteTables
