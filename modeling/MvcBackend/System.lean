import MvcBackend.HandlerRefinement

/-!
Whole runs: the process is started, under one configuration or another, and
answers requests in between. The database file outlives the process.
-/

namespace MvcBackend.System

open MvcBackend.JsonValues
open MvcBackend.DataModel
open MvcBackend.Database
open MvcBackend.Authentication
open MvcBackend.Endpoints
open MvcBackend.EndpointSteps
open MvcBackend.HttpHandler
open MvcBackend.AuthenticatorRefinement
open MvcBackend.RouterRefinement
open MvcBackend.HandlerRefinement
open MvcBackend.Library.KeyedTable
open MvcBackend.Library.Transaction

/-- The database file, and the configuration of the process if one is up. -/
structure ServerState where
  db : Db
  server : Option AuthConfig

/-- A start of the process or a request, with the faults that the database will
have meanwhile. -/
inductive Event where
  | start (config : AuthConfig) (faults : List (Option Str))
  | request (req : HttpRequest) (faults : List (Option Str))

/-- A process whose constructor throws does not come up; a request to no
process is lost. -/
def next (libraries : Libraries) (s : ServerState) : Event → ServerState
  | .start config faults =>
      match Authenticator.construct config (World.idle s.db faults) with
      | .ok _ w => ⟨w.store, some config⟩
      | .error _ w => ⟨w.store, none⟩
  | .request req faults =>
      match s.server with
      | none => s
      | some config =>
          ⟨(worldAfter (handle config libraries req) (World.idle s.db faults)).store, some config⟩

def run (libraries : Libraries) (events : List Event) : ServerState :=
  events.foldl (next libraries) ⟨Db.empty, none⟩

variable (libraries : Libraries)

theorem run_append (before after : List Event) :
    run libraries (before ++ after) = after.foldl (next libraries) (run libraries before) :=
  List.foldl_append

theorem next_start_cases (s : ServerState) (config : AuthConfig) (faults : List (Option Str)) :
    let s' := next libraries s (.start config faults)
    (s'.server = some config ∧ s'.db.val = constructTables config s.db.val) ∨
      (s'.server = none ∧
        (s'.db.val = s.db.val ∨ s'.db.val = bootstrapAdminTables config s.db.val)) := by
  have h := construct_cases config (World.idle_current s.db faults)
  simp only [next]
  cases hrun : Authenticator.construct config (World.idle s.db faults) with
  | ok u w =>
      rw [hrun] at h
      exact .inl ⟨rfl, h⟩
  | error e w =>
      rw [hrun] at h
      exact .inr ⟨rfl, h.1⟩

theorem next_start_idle (s : ServerState) (config : AuthConfig) :
    (next libraries s (.start config [])).server = some config := by
  obtain ⟨w, hrun, -⟩ := construct_idle config s.db
  simp [next, hrun]

theorem run_start_db (config : AuthConfig) :
    (run libraries [.start config []]).db.val = constructTables config Tables.empty := by
  obtain ⟨w, hrun, hstore⟩ := construct_idle config Db.empty
  simp only [run, List.foldl_cons, List.foldl_nil, next, hrun]
  exact hstore

theorem next_request_cases (s : ServerState) (req : HttpRequest) (faults : List (Option Str)) :
    let s' := next libraries s (.request req faults)
    s'.server = s.server ∧
      (s'.db = s.db ∨ ∃ e payload j, Commits payload s.db.val e j s'.db.val) := by
  simp only [next]
  rcases hserver : s.server with _ | config
  · exact ⟨hserver, .inl rfl⟩
  · rcases handle_store config libraries req (World.idle_current s.db faults) with
      hsame | ⟨path, e, payload, j, -, -, -, hcommits⟩
    · exact ⟨rfl, .inl hsame⟩
    · exact ⟨rfl, .inr ⟨e, payload, j, hcommits⟩⟩

theorem next_of_commits {libraries : Libraries} {s : ServerState} {config : AuthConfig}
    (hserver : s.server = some config) {req : HttpRequest} {actor : Option Actor}
    {path : ApiParse.ApiPath} {e : IEndpoint} {payload j : Json} {t' : Tables}
    {response : HttpResponse} (hmethod : req.method ≠ str "OPTIONS")
    (hlogin : actorStep config libraries req s.db.val = .ok actor)
    (hpath : splitRequestPath req = .ok path) (hread : readPayload libraries req = .ok payload)
    (hmatched : matchedEndpoint path = some e) (hmet : e.requirements.metBy actor = true)
    (hcommits : Commits payload s.db.val e j t') (hrespond : respond (some ⟨j⟩) = .ok response) :
    let s' := next libraries s (.request req [])
    s'.server = some config ∧ s'.db.val = t' := by
  obtain ⟨w, hhandle, hstore⟩ :=
    handle_of_commits config libraries req hmethod hlogin hpath hread hmatched hmet hcommits hrespond
  simp only [next, hserver, worldAfter, hhandle, hstore, and_self]

theorem next_request_frame (s : ServerState) (req : HttpRequest) (faults : List (Option Str)) :
    let s' := next libraries s (.request req faults)
    s'.db.val.roles = s.db.val.roles ∧ s'.db.val.users = s.db.val.users := by
  obtain ⟨-, hsame | ⟨e, payload, j, hcommits⟩⟩ :=
    next_request_cases libraries s req faults
  · exact ⟨by rw [hsame], by rw [hsame]⟩
  · exact hcommits.frame

/-- What the bootstrap establishes and the roles and users alone decide is kept. -/
theorem next_invariant {P : Tables → Prop} {s : ServerState} {event : Event}
    (hframe : ∀ {t t' : Tables}, P t → t'.roles = t.roles → t'.users = t.users → P t')
    (hstart : ∀ config faults, event = .start config faults →
      P (bootstrapAdminTables config s.db.val) ∧ P (constructTables config s.db.val))
    (h : P s.db.val) : P (next libraries s event).db.val := by
  rcases event with ⟨config, faults⟩ | ⟨req, faults⟩
  · obtain ⟨hadmin, hconstruct⟩ := hstart config faults rfl
    rcases next_start_cases libraries s config faults with ⟨-, hdb⟩ | ⟨-, hdb | hdb⟩
    · rwa [hdb]
    · rwa [hdb]
    · rwa [hdb]
  · obtain ⟨hroles, husers⟩ := next_request_frame libraries s req faults
    exact hframe h hroles husers

end MvcBackend.System
