import MvcBackend.Library.Machines
import MvcBackend.RequestAtomicity
import MvcBackend.System

/-!
Whole runs with what the clients are answered, while clocks, keys and the rest
of what the libraries depend on may change from one event to the next.
-/

namespace MvcBackend.AnsweredRuns

open MvcBackend.JsonValues
open MvcBackend.DataModel
open MvcBackend.Database
open MvcBackend.Authentication
open MvcBackend.ApiParse
open MvcBackend.Endpoints
open MvcBackend.EndpointSteps
open MvcBackend.HttpHandler
open MvcBackend.AuthenticatorRefinement
open MvcBackend.RouterRefinement
open MvcBackend.HandlerRefinement
open MvcBackend.RequestAtomicity
open MvcBackend.System
open MvcBackend.Library.Machines
open MvcBackend.Library.Transaction

/-- An event, and the libraries as they are when it happens. -/
structure Moment where
  libraries : Libraries
  event : Event

/-- There is no answer without a process, nor where an exception leaves `handle`. -/
def answer (libraries : Libraries) (s : ServerState) : Event → Option HttpResponse
  | .start _ _ => none
  | .request req faults =>
      match s.server with
      | none => none
      | some config =>
          match handle config libraries req (World.idle s.db faults) with
          | .ok response _ => some response
          | .error _ _ => none

def server : Machine ServerState Moment (Option HttpResponse) where
  next s moment := next moment.libraries s moment.event
  answer s moment := answer moment.libraries s moment.event

/-- No process, and no database file yet. -/
def pristine : ServerState := ⟨Db.empty, none⟩

def okResponse (j : Json) : HttpResponse := ⟨200, .json (.object [(str "Ok", j)]), [allowOrigin]⟩

/-- A request makes a write that its actor may make, and is told so. -/
structure Writes (config : AuthConfig) (libraries : Libraries) (req : HttpRequest) (s : ServerState)
    (faults : List (Option Str)) (actor : Option Actor) (path : ApiPath) (e : IEndpoint)
    (payload j : Json) : Prop where
  login : actorStep config libraries req s.db.val = .ok actor
  split : splitRequestPath req = .ok path
  matched : matchedEndpoint path = some e
  met : e.requirements.metBy actor = true
  read : readPayload libraries req = .ok payload
  commits : Commits payload s.db.val e j (next libraries s (.request req faults)).db.val
  answered : answer libraries s (.request req faults) = some (okResponse j)

/-- A request changes nothing, and is not told that it has written. -/
structure Reads (libraries : Libraries) (req : HttpRequest) (s : ServerState)
    (faults : List (Option Str)) : Prop where
  same : next libraries s (.request req faults) = s
  answered : ∀ response, answer libraries s (.request req faults) = some response →
    IsOk response → ∀ path e, splitRequestPath req = .ok path → matchedEndpoint path = some e →
      e ∉ writers

variable {config : AuthConfig} {s : ServerState}

theorem reads_of_down (libraries : Libraries) (req : HttpRequest) (faults : List (Option Str))
    (hserver : s.server = none) : Reads libraries req s faults where
  same := by simp [next, hserver]
  answered := by simp [answer, hserver]

/-- A write can always be told. -/
theorem respond_of_commits {payload j : Json} {e : IEndpoint} {t t' : Tables}
    (h : Commits payload t e j t') : respond (some ⟨j⟩) = .ok (okResponse j) := by
  cases h <;> rfl

/-- Where the database does not fail, a write that the actor may make is made. -/
theorem writes_of_commits {libraries : Libraries} {req : HttpRequest} {actor : Option Actor}
    {path : ApiPath} {e : IEndpoint} {payload j : Json} {t' : Tables}
    (hserver : s.server = some config) (hmethod : req.method ≠ str "OPTIONS")
    (hlogin : actorStep config libraries req s.db.val = .ok actor)
    (hpath : splitRequestPath req = .ok path) (hmatched : matchedEndpoint path = some e)
    (hmet : e.requirements.metBy actor = true) (hread : readPayload libraries req = .ok payload)
    (hcommits : Commits payload s.db.val e j t') :
    Writes config libraries req s [] actor path e payload j ∧
      (next libraries s (.request req [])).db.val = t' := by
  have hrespond := respond_of_commits hcommits
  obtain ⟨-, hdb⟩ :=
    next_of_commits hserver hmethod hlogin hpath hread hmatched hmet hcommits hrespond
  obtain ⟨w, hhandle, -⟩ :=
    handle_of_commits config libraries req hmethod hlogin hpath hread hmatched hmet hcommits hrespond
  refine ⟨⟨hlogin, hpath, hmatched, hmet, hread, hdb ▸ hcommits, ?_⟩, hdb⟩
  simp only [answer, hserver, hhandle]

/-- There is no third thing that a request can do. -/
theorem writes_or_reads (libraries : Libraries) (req : HttpRequest) (faults : List (Option Str))
    (hserver : s.server = some config) :
    (∃ actor path e payload j, Writes config libraries req s faults actor path e payload j) ∨
      Reads libraries req s faults := by
  obtain ⟨db, up⟩ := s
  obtain rfl : up = some config := hserver
  have hcases := handle_cases config libraries req (World.idle_current db faults)
  rcases hrun : handle config libraries req (World.idle db faults) with ⟨response, w⟩ | ⟨ex, w⟩
  · have hnext : next libraries ⟨db, some config⟩ (.request req faults) =
        ⟨w.store, some config⟩ := by
      simp [next, worldAfter, hrun]
    have hanswer : answer libraries ⟨db, some config⟩ (.request req faults) = some response := by
      simp [answer, hrun]
    rw [hrun] at hcases
    obtain ⟨-, ⟨o, hstep, hsettled⟩ | ⟨hnot, hsame⟩⟩ := hcases
    · obtain ⟨actor, path, payload, out, hlogin, hpath, hpayload, hroute, hrespond⟩ :=
        requestStep_cases hstep
      obtain ⟨e, hmatched, hmet, hstep'⟩ := routeStep_eq_ok hroute
      rcases step_cases hstep' with ⟨j, t', rfl, rfl, hcommits⟩ | ⟨rfl, hnone⟩
      · obtain rfl : w.store.val = t' := hsettled.1
        refine .inl ⟨actor, path, e, payload, j, hlogin, hpath, hmatched, hmet, hpayload, ?_, ?_⟩
        · rw [hnext]
          exact hcommits
        · rw [hanswer, jsonResponse_eq hrespond]
          rfl
      · refine .inr ⟨?_, ?_⟩
        · rw [hnext, hsettled.store]
          rfl
        · intro response' hanswered hok path' e' hpath' hmatched' he
          obtain rfl : response = response' := Option.some.inj (hanswer.symm.trans hanswered)
          obtain rfl : path = path' := Except.ok.inj (hpath.symm.trans hpath')
          obtain rfl : e = e' := Option.some.inj (hmatched.symm.trans hmatched')
          obtain ⟨output, hout, -⟩ := (isOk_iff_of_respond hrespond).mp hok
          rw [hnone he] at hout
          cases hout
    · refine .inr ⟨?_, ?_⟩
      · rw [hnext, hsame.store]
        rfl
      · intro response' hanswered hok
        obtain rfl : response = response' := Option.some.inj (hanswer.symm.trans hanswered)
        exact absurd hok hnot
  · rw [hrun] at hcases
    refine .inr ⟨?_, ?_⟩
    · have hsame : w.store = db := hcases.2.store
      simp [next, worldAfter, hrun, hsame]
    · simp [answer, hrun]

end MvcBackend.AnsweredRuns
