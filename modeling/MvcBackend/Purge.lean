import MvcBackend.AnsweredRuns
import MvcBackend.PostOnly
import MvcBackend.PrivilegeInvariant

/-!
Under one configuration only POST requests of the bootstrap administrator
matter: without the others a run ends as it did, and the administrator is
answered as before.
-/

namespace MvcBackend.Purge

open MvcBackend.JsonValues
open MvcBackend.DataModel
open MvcBackend.Database
open MvcBackend.Authentication
open MvcBackend.Endpoints
open MvcBackend.EndpointSteps
open MvcBackend.HttpHandler
open MvcBackend.AuthenticatorRefinement
open MvcBackend.HandlerRefinement
open MvcBackend.PostOnly
open MvcBackend.System
open MvcBackend.PrivilegeInvariant
open MvcBackend.AnsweredRuns
open MvcBackend.Library.Machines
open MvcBackend.Library.Transaction

variable (config : AuthConfig)

/-- A POST with a token that verifies, at this moment, for the bootstrap administrator. -/
def Administers (moment : Moment) : Prop :=
  ∃ req faults token, moment.event = .request req faults ∧ req.method = str "POST" ∧
    getJwt req = some token ∧
    Authentication.verifyAuth moment.libraries.jwt config token = .ok config.bootstrapAdminUser.val

/-- What holds between the events: nobody else has a row, and the process that
is up has this configuration. -/
structure Governed (s : ServerState) : Prop where
  confined : Confined config s.db.val
  server : ∀ config', s.server = some config' → config' = config

variable {config} {s : ServerState}

theorem governed_pristine : Governed config pristine where
  confined := confined_empty
  server := by simp [pristine]

theorem Governed.next (h : Governed config s) (libraries : Libraries) {event : Event}
    (hevent : ∀ config' faults, event = .start config' faults → config' = config) :
    Governed config (System.next libraries s event) where
  confined := confined_next h.confined hevent
  server := by
    intro config' hserver
    rcases event with ⟨started, faults⟩ | ⟨req, faults⟩
    · obtain rfl := hevent started faults rfl
      rcases next_start_cases libraries s started faults with ⟨hup, -⟩ | ⟨hdown, -⟩
      · exact (Option.some.inj (hup.symm.trans hserver)).symm
      · simp [hdown] at hserver
    · obtain ⟨hsame, -⟩ := next_request_cases libraries s req faults
      exact h.server config' (hsame ▸ hserver)

/-- Every endpoint that writes requires something of its actor. -/
theorem not_metBy_none {e : IEndpoint} (he : e ∈ writers) : e.requirements.metBy none = false := by
  revert e
  decide

/-- Whoever is logged in has a token for a name, and the permissions of its row. -/
theorem login_of_actorStep {libraries : Libraries} {req : HttpRequest} {t : Tables} {actor : Actor}
    (h : actorStep config libraries req t = .ok (some actor)) :
    ∃ token, getJwt req = some token ∧
      Authentication.verifyAuth libraries.jwt config token = .ok actor.uniqueId ∧
      userPerms t actor.uniqueId = some actor.perms := by
  rw [actorStep] at h
  split at h
  · next token htoken =>
      obtain ⟨actor', hauth, h⟩ := bind_eq_ok.mp h
      obtain rfl : actor' = actor := Option.some.inj (Except.ok.inj h)
      obtain ⟨subject, hsubject, hauth⟩ := bind_eq_ok.mp hauth
      obtain ⟨perms, hperms, hactor⟩ := bind_eq_ok.mp hauth
      obtain rfl := Except.ok.inj hactor
      rw [getPermsStep] at hperms
      split at hperms
      · next found hfound =>
          obtain rfl := Except.ok.inj hperms
          exact ⟨token, htoken, hsubject, hfound⟩
      · cases hperms
  · cases h

theorem post_of_writes {libraries : Libraries} {req : HttpRequest} {faults : List (Option Str)}
    {actor : Option Actor} {path : ApiParse.ApiPath} {e : IEndpoint} {payload j : Json}
    (h : Writes config libraries req s faults actor path e payload j) : req.method = str "POST" := by
  by_contra hmethod
  have hnull : readPayload libraries req = .ok .null := readPayload_of_not_post hmethod
  obtain rfl : payload = .null := Except.ok.inj (h.read.symm.trans hnull)
  exact not_commits_null h.commits

/-- What a write requires nobody has without a login. -/
theorem login_of_writes {libraries : Libraries} {req : HttpRequest} {faults : List (Option Str)}
    {actor : Option Actor} {path : ApiParse.ApiPath} {e : IEndpoint} {payload j : Json}
    (h : Writes config libraries req s faults actor path e payload j) :
    ∃ user, actor = some user ∧ actorStep config libraries req s.db.val = .ok (some user) := by
  rcases actor with _ | user
  · have hmet := h.met
    simp [not_metBy_none h.commits.mem_writers] at hmet
  · exact ⟨user, rfl, h.login⟩

/-- Nobody but the administrator can write. -/
theorem administers_of_writes {libraries : Libraries} {req : HttpRequest}
    {faults : List (Option Str)} {actor : Option Actor} {path : ApiParse.ApiPath} {e : IEndpoint}
    {payload j : Json} (hconfined : Confined config s.db.val)
    (h : Writes config libraries req s faults actor path e payload j) :
    Administers config ⟨libraries, .request req faults⟩ := by
  obtain ⟨user, rfl, hlogin⟩ := login_of_writes h
  obtain ⟨token, htoken, hverified, hperms⟩ := login_of_actorStep hlogin
  obtain ⟨roles, hrow, -⟩ := Option.map_eq_some_iff.mp hperms
  rw [(hconfined.users _ roles hrow).1] at hverified
  exact ⟨req, faults, token, rfl, post_of_writes h, htoken, hverified⟩

theorem next_eq_of_not_administers (h : Governed config s) {libraries : Libraries}
    {req : HttpRequest} {faults : List (Option Str)}
    (hnot : ¬ Administers config ⟨libraries, .request req faults⟩) :
    System.next libraries s (.request req faults) = s := by
  rcases hserver : s.server with _ | config'
  · exact (reads_of_down libraries req faults hserver).same
  · obtain rfl := h.server config' hserver
    rcases writes_or_reads libraries req faults hserver with
      ⟨actor, path, e, payload, j, hwrites⟩ | hreads
    · exact absurd (administers_of_writes h.confined hwrites) hnot
    · exact hreads.same

/-- Whichever requests of others are taken out of a run, and whatever the
administrator asks without POST: it ends in the same state, and every request
that is left is answered as before. -/
theorem unprivileged_requests_leave_no_trace (config : AuthConfig) (moments : List Moment)
    (keep : Nat → Bool) (hstarts : StartsWith config (moments.map Moment.event))
    (hkeep : ∀ n moment, moments[n]? = some moment → keep n = false →
      (∃ req faults, moment.event = .request req faults) ∧ ¬ Administers config moment) :
    server.run pristine (keepAt keep moments) = server.run pristine moments ∧
      server.transcript pristine (keepAt keep moments) =
        keepAt keep (server.transcript pristine moments) := by
  apply server.run_keepAt (P := Governed config) _ _ governed_pristine
  · intro s moment hmoment hs
    apply hs.next moment.libraries
    intro config' faults hstart
    exact hstarts config' faults (hstart ▸ List.mem_map_of_mem hmoment)
  · intro s n moment hmoment hdropped hs
    obtain ⟨⟨req, faults, hrequest⟩, hnot⟩ := hkeep n moment hmoment hdropped
    obtain ⟨libraries, event⟩ := moment
    obtain rfl : event = .request req faults := hrequest
    exact next_eq_of_not_administers hs hnot

def deletingMoment : Moment := ⟨trustingLibraries, .request deletingGet []⟩

theorem not_administers_deletingMoment : ¬ Administers AuthConfig.readme deletingMoment := by
  rintro ⟨req, faults, token, hrequest, hmethod, -⟩
  obtain ⟨rfl, -⟩ := Event.request.inj hrequest
  exact absurd hmethod (by decide)

/-- A start, a request of the administrator to delete a project, but by GET, made
twice, and another start. -/
def deletingRun : List Moment :=
  [⟨trustingLibraries, .start AuthConfig.readme []⟩, deletingMoment, deletingMoment,
    ⟨trustingLibraries, .start AuthConfig.readme [some (str "disk full")]⟩]

/-- Of the two requests only the second is left out. -/
theorem unprivileged_requests_leave_no_trace_get :
    server.run pristine
        [⟨trustingLibraries, .start AuthConfig.readme []⟩, deletingMoment,
          ⟨trustingLibraries, .start AuthConfig.readme [some (str "disk full")]⟩] =
      server.run pristine deletingRun := by
  refine (unprivileged_requests_leave_no_trace AuthConfig.readme deletingRun (· ≠ 2) ?_ ?_).1
  · intro config' faults hmem
    simp only [deletingRun, deletingMoment, List.map_cons, List.map_nil, List.mem_cons,
      List.not_mem_nil, or_false, Event.start.injEq, reduceCtorEq, false_or] at hmem
    rcases hmem with ⟨rfl, -⟩ | ⟨rfl, -⟩ <;> rfl
  · intro n moment hmoment hdropped
    obtain rfl : n = 2 := by simpa using hdropped
    obtain rfl : deletingMoment = moment := Option.some.inj hmoment
    exact ⟨⟨deletingGet, [], rfl⟩, not_administers_deletingMoment⟩

end MvcBackend.Purge
