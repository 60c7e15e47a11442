import MvcBackend.EndpointRefinement
import MvcBackend.RouteTables

/-!
Routing a request is one step on the tables: refuse it, or make the step of
the endpoint that the path names.
-/

namespace MvcBackend.RouterRefinement

open MvcBackend.JsonValues
open MvcBackend.DataModel
open MvcBackend.Database
open MvcBackend.Authentication
open MvcBackend.ApiParse
open MvcBackend.Endpoints
open MvcBackend.EndpointSteps
open MvcBackend.EndpointRefinement
open MvcBackend.ApiRouter
open MvcBackend.RouteTables
open MvcBackend.Library.OrderedChoice
open MvcBackend.Library.Transaction

def matchedEndpoint (path : ApiPath) : Option IEndpoint := apiObject routes path

theorem apiParse_eq (path : ApiPath) :
    apiParse path = .ok ((matchedEndpoint path).map Val.object) :=
  rootParse_api routes path

theorem parse_observes (path : ApiPath) :
    Observes (parse path) fun _ => .ok (matchedEndpoint path) := by
  have hparse : Observes (do return parsedEndpoint (← ofParse (apiParse path)))
      fun _ => .ok (matchedEndpoint path) := by
    rw [apiParse_eq]
    cases matchedEndpoint path with
    | none => exact Observes.pure none
    | some e => exact Observes.pure (some e)
  rw [parse]
  split
  · exact Observes.engineCall.bind fun _ => hparse
  · exact hparse

theorem matchedEndpoint_iff {path : ApiPath} {e : IEndpoint} :
    matchedEndpoint path = some e ↔ apiParse path = .ok (some (.object e)) := by
  simp [apiParse_eq]

def routeStep (path : ApiPath) (input : EndpointInput) (t : Tables) : StepResult :=
  match matchedEndpoint path with
  | none => .error (.userError (str "Bad route"))
  | some e =>
      if e.requirements.metBy input.actor then step e input t
      else .error (.authError (str "nope"))

theorem routeStep_eq_ok {path : ApiPath} {input : EndpointInput} {t : Tables}
    {result : Option EndpointOutput × Option Tables} (h : routeStep path input t = .ok result) :
    ∃ e, matchedEndpoint path = some e ∧ e.requirements.metBy input.actor = true ∧
      step e input t = .ok result := by
  rw [routeStep] at h
  split at h
  · cases h
  · next e hmatched =>
      split at h
      · next hmet => exact ⟨e, hmatched, hmet, h⟩
      · cases h

/-- What is committed is a write of the endpoint that the path names. -/
theorem routeStep_commits {path : ApiPath} {input : EndpointInput} {t t' : Tables}
    {out : Option EndpointOutput} (h : routeStep path input t = .ok (out, some t')) :
    ∃ e j, matchedEndpoint path = some e ∧ out = some ⟨j⟩ ∧ Commits input.payload t e j t' := by
  obtain ⟨e, hmatched, -, hstep⟩ := routeStep_eq_ok h
  obtain ⟨j, hout, hcommits⟩ := commits_of_step hstep
  exact ⟨e, j, hmatched, hout, hcommits⟩

theorem route_atomic (path : ApiPath) (input : EndpointInput) :
    Atomic (route path input) (routeStep path input) := by
  have h : Atomic (route path input) fun t => .ok (matchedEndpoint path) >>= fun found =>
      (match found with
      | none => .error (.userError (str "Bad route"))
      | some e =>
          if e.requirements.metBy input.actor then step e input t
          else .error (.authError (str "nope"))) := by
    apply Atomic.after (parse_observes path)
    intro found
    cases found with
    | none => exact Atomic.throw _
    | some e =>
        cases hmet : e.requirements.metBy input.actor with
        | true => simpa [hmet] using call_atomic e input
        | false =>
            simp only [hmet, Bool.not_false, ↓reduceIte, Bool.false_eq_true]
            exact Atomic.throw _
  exact h

end MvcBackend.RouterRefinement
