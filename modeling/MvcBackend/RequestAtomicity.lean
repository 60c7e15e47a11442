import MvcBackend.HandlerRefinement

/-!
A request that is not answered with a success leaves the domain tables alone,
and a success of an endpoint that writes reports one commit.
-/

namespace MvcBackend.RequestAtomicity

open MvcBackend.JsonValues
open MvcBackend.DataModel
open MvcBackend.Database
open MvcBackend.Authentication
open MvcBackend.ApiParse
open MvcBackend.Endpoints
open MvcBackend.EndpointSteps
open MvcBackend.ApiRouter
open MvcBackend.HttpHandler
open MvcBackend.RouterRefinement
open MvcBackend.HandlerRefinement
open MvcBackend.Library.Transaction

def RequestsEndpoint (req : HttpRequest) (e : IEndpoint) : Prop :=
  ∃ path, splitRequestPath req = .ok path ∧ apiParse path = .ok (some (.object e))

structure SameDomain (t t' : Tables) : Prop where
  projects : t'.projects = t.projects
  tasks : t'.tasks = t.tasks
  workers : t'.workers = t.workers

theorem SameDomain.of_unchanged {w w' : AppWorld} (h : Unchanged w w') :
    SameDomain w.store.val w'.store.val := by
  rw [h.store]
  exact ⟨rfl, rfl, rfl⟩

theorem SameDomain.symm {t t' : Tables} (h : SameDomain t t') : SameDomain t' t :=
  ⟨h.projects.symm, h.tasks.symm, h.workers.symm⟩

theorem SameDomain.trans {t t' t'' : Tables} (h : SameDomain t t') (h' : SameDomain t' t'') :
    SameDomain t t'' :=
  ⟨h'.projects.trans h.projects, h'.tasks.trans h.tasks, h'.workers.trans h.workers⟩

theorem RequestsEndpoint.eq_of_matched {req : HttpRequest} {e e' : IEndpoint} {path : ApiPath}
    (h : RequestsEndpoint req e) (hpath : splitRequestPath req = .ok path)
    (hmatched : matchedEndpoint path = some e') : e' = e := by
  obtain ⟨path', hpath', hparse⟩ := h
  obtain rfl : path = path' := by simpa [hpath] using hpath'
  simpa [hmatched] using matchedEndpoint_iff.mpr hparse

/-- The answer of a request tells whether it was committed. -/
theorem handle_atomic (config : AuthConfig) (libraries : Libraries) (req : HttpRequest)
    (db : Db) (faults : List (Option Str)) :
    match handle config libraries req (World.idle db faults) with
    | .ok response w =>
        (¬ IsOk response → SameDomain db.val w.store.val) ∧
        (IsOk response → ∀ e ∈ writers, RequestsEndpoint req e →
          w.commits = 1 ∧ ∃ payload j, readPayload libraries req = .ok payload ∧
            Commits payload db.val e j w.store.val ∧
            response.body = .json (.object [(str "Ok", j)]))
    | .error _ w => SameDomain db.val w.store.val := by
  have hcases := handle_cases config libraries req (World.idle_current db faults)
  rcases hrun : handle config libraries req (World.idle db faults) with ⟨response, w⟩ | ⟨e, w⟩
  · rw [hrun] at hcases
    obtain ⟨-, ⟨o, hstep, hsettled⟩ | ⟨hnot, hsame⟩⟩ := hcases
    · obtain ⟨actor, path, payload, out, -, hpath, hpayload, hroute, hrespond⟩ :=
        requestStep_cases hstep
      obtain ⟨e', hmatched, -, hstep'⟩ := routeStep_eq_ok hroute
      have hok := isOk_iff_of_respond hrespond
      rcases step_cases hstep' with ⟨j, t', rfl, rfl, hcommits⟩ | ⟨rfl, hnone⟩
      · have hbody : response.body = .json (.object [(str "Ok", j)]) := by
          rw [jsonResponse_eq hrespond]
        refine ⟨fun hnot => absurd (hok.mpr ⟨⟨j⟩, rfl, hbody⟩) hnot, ?_⟩
        intro _ e he hrequests
        obtain rfl := hrequests.eq_of_matched hpath hmatched
        refine ⟨hsettled.2.1, payload, j, hpayload, ?_, hbody⟩
        rw [hsettled.1]
        exact hcommits
      · refine ⟨fun _ => .of_unchanged hsettled, ?_⟩
        intro hisOk e he hrequests
        obtain rfl := hrequests.eq_of_matched hpath hmatched
        obtain ⟨output, hout, -⟩ := hok.mp hisOk
        rw [hnone he] at hout
        cases hout
    · exact ⟨fun _ => .of_unchanged hsame, fun hok => absurd hok hnot⟩
  · rw [hrun] at hcases
    exact .of_unchanged hcases.2

end MvcBackend.RequestAtomicity
