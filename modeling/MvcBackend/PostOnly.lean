import MvcBackend.RequestAtomicity

/-!
A request by any method but POST has null for its payload, and every endpoint
that writes reads a field of the payload first.
-/

namespace MvcBackend.PostOnly

open MvcBackend.JsonValues
open MvcBackend.DataModel
open MvcBackend.Database
open MvcBackend.Authentication
open MvcBackend.Endpoints
open MvcBackend.EndpointSteps
open MvcBackend.HttpHandler
open MvcBackend.RouterRefinement
open MvcBackend.AuthenticatorRefinement
open MvcBackend.HandlerRefinement
open MvcBackend.RequestAtomicity
open MvcBackend.Library.Transaction

variable {libraries : Libraries} {req : HttpRequest}

theorem readPayload_of_not_post (hmethod : req.method ≠ str "POST") :
    readPayload libraries req = .ok .null := if_neg hmethod

theorem stringField_null (key : String) :
    stringField .null key = .error (.json (.typeError 304)) := rfl

theorem intField_null (key : String) :
    intField .null key = .error (.json (.typeError 304)) := rfl

theorem not_commits_null {t t' : Tables} {e : IEndpoint} {j : Json} :
    ¬ Commits .null t e j t' := by
  intro h
  cases h with
  | addProject hname | addWorker hname | addTask hname =>
      rw [stringField_null] at hname
      cases hname
  | assignTask hid | unassignTask hid | delProject hid =>
      rw [intField_null] at hid
      cases hid

/-- Whoever sends it and whatever its path, a request by another method than
POST leaves the domain tables alone. -/
theorem handle_not_post (config : AuthConfig) (libraries : Libraries) (req : HttpRequest)
    (db : Db) (faults : List (Option Str)) (hmethod : req.method ≠ str "POST") :
    SameDomain db.val
      (worldAfter (handle config libraries req) (World.idle db faults)).store.val := by
  rcases handle_store config libraries req (World.idle_current db faults) with
    hsame | ⟨path, e, payload, j, -, -, hpayload, hcommits⟩
  · rw [hsame]
    exact ⟨rfl, rfl, rfl⟩
  · rw [readPayload_of_not_post hmethod] at hpayload
    cases hpayload
    exact absurd hcommits not_commits_null

/-- A request of the bootstrap administrator for `del_project`, but by GET. -/
def deletingGet : HttpRequest where
  method := str "GET"
  path := str "/api/del_project"
  headers := [(str "Authorization", str "Bearer oath2|xxxx")]
  body := []

/-- The database after a first start and one project more. -/
def readmeProject : Db :=
  ⟨{ readmeDb.val with projects := readmeDb.val.projects.push (str "p") },
    foreignKeys_push_project readmeDb.property _⟩

example : RequestsEndpoint deletingGet .delProject :=
  ⟨[str "api", str "del_project"], by decide, matchedEndpoint_iff.mp rfl⟩

theorem handle_not_post_deletingGet :
    SameDomain readmeProject.val
      (worldAfter (handle AuthConfig.readme trustingLibraries deletingGet)
        (World.idle readmeProject [])).store.val :=
  handle_not_post _ _ _ _ _ (by decide)

end MvcBackend.PostOnly
