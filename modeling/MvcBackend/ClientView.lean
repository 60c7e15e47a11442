import MvcBackend.AcknowledgedWrites
import MvcBackend.StoredNames
import MvcBackend.TaskViews

/-!
What clients see of one another: the ids they are given, and the writes that
their reads show.
-/

namespace MvcBackend.ClientView

open MvcBackend.JsonValues
open MvcBackend.DataModel
open MvcBackend.Database
open MvcBackend.Authentication
open MvcBackend.Endpoints
open MvcBackend.EndpointSteps
open MvcBackend.EndpointRefinement
open MvcBackend.HttpHandler
open MvcBackend.AuthenticatorRefinement
open MvcBackend.RouterRefinement
open MvcBackend.RequestAtomicity
open MvcBackend.System
open MvcBackend.AnsweredRuns
open MvcBackend.AcknowledgedWrites
open MvcBackend.StoredNames
open MvcBackend.TaskViews
open MvcBackend.Library.KeyedTable
open MvcBackend.Library.Machines
open MvcBackend.Library.Transaction

/-! ### Ids -/

/-- The answers to the writes by one endpoint. -/
def answersOf (e : IEndpoint) (writes : List Write) : List Json :=
  (writes.filter fun write => write.endpoint = e).map Write.answer

/-- The id that the next row of this kind will get. -/
def nextId (t : Tables) : IEndpoint → Int
  | .addProject => t.projects.nextKey
  | .addWorker => t.workers.nextKey
  | _ => t.tasks.nextKey

def adders : List IEndpoint := [.addProject, .addWorker, .addTask]

theorem nextId_of_commits {t t' : Tables} {payload j : Json} {e e' : IEndpoint} (he : e ∈ adders)
    (h : Commits payload t e' j t') :
    nextId t' e = nextId t e + (if e' = e then 1 else 0) ∧
      (e' = e → j = .numberInteger (nextId t e)) := by
  simp only [adders, List.mem_cons, List.not_mem_nil, or_false] at he
  rcases he with rfl | rfl | rfl <;>
    cases h <;> simp [nextId, setWorker, Tables.eraseProject]

theorem nextId_of_redoes {db db' : Db} {write : Write} {e : IEndpoint} (he : e ∈ adders)
    (h : Redoes db write db') :
    nextId db'.val e = nextId db.val e + (if write.endpoint = e then 1 else 0) ∧
      (write.endpoint = e → write.answer = .numberInteger (nextId db.val e)) := by
  obtain ⟨w, hrun, rfl⟩ := h
  obtain ⟨-, o, hstep, hsettled⟩ :=
    (call_atomic write.endpoint _).of_ok (World.idle_current _ _) hrun
  rcases step_cases hstep with ⟨j, t', hout, rfl, hcommits⟩ | ⟨rfl, hnone⟩
  · obtain rfl : w.store.val = t' := hsettled.1
    obtain rfl : write.answer = j := EndpointOutput.mk.inj (Option.some.inj hout)
    exact nextId_of_commits he hcommits
  · have hne : write.endpoint ≠ e := by
      rintro rfl
      have hwriter : write.endpoint ∈ writers := by
        revert he
        generalize write.endpoint = e
        revert e
        decide
      cases hnone hwriter
    have hstore : w.store = db := hsettled.store
    simp [hne, hstore]

/-- One after the other, the ids go on from the counter. -/
theorem answersOf_of_replays {db db' : Db} {writes : List Write} {e : IEndpoint} (he : e ∈ adders)
    (h : Replays Redoes db writes db') :
    answersOf e writes = (List.range (answersOf e writes).length).map fun (n : Nat) =>
      Json.numberInteger (nextId db.val e + n) := by
  induction h with
  | nil db => rfl
  | @cons db db' db'' write writes hfirst _ ih =>
      obtain ⟨hnext, hanswer⟩ := nextId_of_redoes he hfirst
      by_cases heq : write.endpoint = e
      · have hcons : answersOf e (write :: writes) = write.answer :: answersOf e writes := by
          simp [answersOf, heq]
        rw [hcons, hanswer heq, List.length_cons, List.range_succ_eq_map, List.map_cons,
          List.map_map]
        congr 1
        · simp
        · rw [ih, hnext, if_pos heq]
          simp only [List.length_map, List.length_range]
          apply List.map_congr_left
          intro n _
          simp only [Function.comp, Nat.succ_eq_add_one, Json.numberInteger.injEq]
          omega
      · have hskip : answersOf e (write :: writes) = answersOf e writes := by
          simp [answersOf, heq]
        rw [hskip]
        rw [hnext, if_neg heq] at ih
        simpa using ih

/-- The ids from 1 on, as they are answered. -/
def countingUp (n : Nat) : List Json := (List.range n).map fun (k : Nat) => .numberInteger (k + 1)

theorem answersOf_recorded (moments : List Moment) {e : IEndpoint} (he : e ∈ adders) :
    let told := answersOf e (server.recorded acknowledged pristine moments)
    told = countingUp told.length := by
  intro told
  obtain ⟨db, hreplays, -⟩ := replays_run moments
  have hanswers := answersOf_of_replays he hreplays
  have hfirst : nextId Db.empty.val e = 1 := by
    simp only [adders, List.mem_cons, List.not_mem_nil, or_false] at he
    rcases he with rfl | rfl | rfl <;> rfl
  rw [hfirst] at hanswers
  refine hanswers.trans (List.map_congr_left fun n _ => ?_)
  rw [Int.add_comm]

/-- No more answers than events. -/
theorem length_answersOf_le (moments : List Moment) (e : IEndpoint) :
    (answersOf e (server.recorded acknowledged pristine moments)).length ≤ moments.length := by
  rw [answersOf, List.length_map]
  exact (List.length_filter_le _ _).trans (server.length_recorded_le acknowledged pristine moments)

theorem isInt_of_mem_countingUp {n : Nat} (hn : n < 2 ^ 31) {j : Json} (h : j ∈ countingUp n) :
    ∃ id, IsInt id ∧ j = .numberInteger id := by
  obtain ⟨k, hk, rfl⟩ := List.mem_map.mp h
  have hlt : k < n := List.mem_range.mp hk
  exact ⟨k + 1, ⟨by omega, by omega⟩, rfl⟩

/-- In every run that is not too long for `int` ids, the projects that are added
get the ids 1, 2, 3 and so on, in the order in which the clients are told, and so
do workers and tasks: no id is left out or comes back, whatever fails, is deleted
or restarted in between. -/
theorem ids_are_consecutive (moments : List Moment) (hcount : moments.length < 2 ^ 31) :
    ∀ e ∈ adders,
      let told := answersOf e (server.recorded acknowledged pristine moments)
      told = countingUp told.length ∧ ∀ j ∈ told, ∃ id, IsInt id ∧ j = .numberInteger id := by
  intro e he told
  have htold : told = countingUp told.length := answersOf_recorded moments he
  have hlength : told.length < 2 ^ 31 := (length_answersOf_le moments e).trans_lt hcount
  refine ⟨htold, fun j hj => isInt_of_mem_countingUp hlength ?_⟩
  rwa [htold] at hj

/-- The bootstrap administrator adds a project. -/
def projectPost : Moment :=
  ⟨assigningLibraries, .request (administratorPost "/api/add_project") []⟩

theorem projectPost_told (r : ServerState) (hserver : r.server = some AuthConfig.readme)
    (hroles : r.db.val.roles = readmeDb.val.roles) (husers : r.db.val.users = readmeDb.val.users) :
    acknowledged projectPost (server.answer r projectPost) =
        some ⟨.addProject, assigningPayload, .numberInteger r.db.val.projects.nextKey⟩ ∧
      (server.next r projectPost).server = some AuthConfig.readme ∧
      (server.next r projectPost).db.val = withProject r.db.val := by
  have hmethod : (administratorPost "/api/add_project").method ≠ str "OPTIONS" := by
    show str "POST" ≠ str "OPTIONS"
    decide
  obtain ⟨hwrites, hdb⟩ := writes_of_commits hserver hmethod
    (login_administrator "/api/add_project" hroles husers) rfl
    (by decide : matchedEndpoint [str "api", str "add_project"] = some .addProject) (by decide)
    rfl (.addProject rfl)
  refine ⟨acknowledged_of_writes hwrites, ?_, hdb⟩
  exact (next_request_cases assigningLibraries r _ []).1.trans hserver

def addingRun : List Moment :=
  [⟨assigningLibraries, .start AuthConfig.readme []⟩, projectPost, projectPost]

theorem length_told_addingRun :
    (answersOf .addProject (server.recorded acknowledged pristine addingRun)).length = 2 := by
  let start : Moment := ⟨assigningLibraries, .start AuthConfig.readme []⟩
  have hstart : (server.next pristine start).server = some AuthConfig.readme :=
    next_start_idle assigningLibraries pristine AuthConfig.readme
  have hdb : (server.next pristine start).db.val = readmeDb.val :=
    run_start_db assigningLibraries AuthConfig.readme
  have hquiet : acknowledged start (server.answer pristine start) = none := rfl
  rw [addingRun, Machine.recorded_cons, hquiet]
  generalize server.next pristine _ = r at hstart hdb ⊢
  obtain ⟨hfirst, hserver, hafter⟩ :=
    projectPost_told r hstart (by rw [hdb]) (by rw [hdb])
  obtain ⟨hsecond, -, -⟩ :=
    projectPost_told (server.next r projectPost) hserver (by rw [hafter, hdb]; rfl)
      (by rw [hafter, hdb]; rfl)
  rw [Machine.recorded_cons, hfirst, Machine.recorded_cons, hsecond]
  rfl

theorem ids_are_consecutive_addingRun :
    answersOf .addProject (server.recorded acknowledged pristine addingRun) =
      [.numberInteger 1, .numberInteger 2] := by
  have htold :=
    (ids_are_consecutive addingRun (by simp [addingRun]) .addProject (by simp [adders])).1
  rw [htold, length_told_addingRun]
  rfl

/-! ### Reads -/

/-- The endpoints that show projects, workers and tasks. -/
def ShowsDomain (e : IEndpoint) : Prop := e ∉ writers ∧ e ≠ .getUsers ∧ e ≠ .getRoles

/-- What they show does not depend on users and roles, nor on who asks. -/
theorem step_of_sameDomain {t t' : Tables} (hsame : SameDomain t t') {e : IEndpoint}
    (he : ShowsDomain e) (input input' : EndpointInput) : step e input t' = step e input' t := by
  obtain ⟨roles, users, projects, workers, tasks⟩ := t
  obtain ⟨roles', users', projects', workers', tasks'⟩ := t'
  obtain ⟨rfl, rfl, rfl⟩ := hsame
  obtain ⟨hwriter, husers, hroles⟩ := he
  cases e with
  | addProject | addTask | addWorker | assignTask | unassignTask | delProject =>
      simp [writers] at hwriter
  | getUsers => exact absurd rfl husers
  | getRoles => exact absurd rfl hroles
  | getProjects | getProject _ | getWorker _ | getTask _ | getWorkers | debug => rfl

theorem step_of_read {e : IEndpoint} (he : e ∉ writers) (input : EndpointInput) (t : Tables) :
    ∃ out, step e input t = .ok (out, none) := by
  cases e with
  | addProject | addTask | addWorker | assignTask | unassignTask | delProject =>
      simp [writers] at he
  | getProjects | getProject _ | getWorker _ | getTask _ | getUsers | getRoles | getWorkers
  | debug => exact ⟨_, rfl⟩

/-- Every read is answered by what the endpoint returns on a database on which
nothing was done but the writes that clients were told of until then. So whoever
reads after a write was acknowledged sees it, and nobody sees any other. -/
theorem reads_show_acknowledged_writes (moments : List Moment)
    (hstarts : ∀ moment ∈ moments, ∀ config faults, moment.event = .start config faults →
      FromFiles config) :
    let s := server.run pristine moments
    ∃ db, Replays Redoes Db.empty (server.recorded acknowledged pristine moments) db ∧
      ∀ config libraries req actor e payload, s.server = some config → ShowsDomain e →
        Reaches config libraries req s.db.val actor e payload →
        ∃ out w, e.call ⟨.null, none⟩ (World.idle db []) = .ok out w ∧
          answer libraries s (.request req []) = some (rendered out) := by
  intro s
  obtain ⟨db, hreplays, hsame⟩ := replays_run moments
  refine ⟨db, hreplays, ?_⟩
  intro config libraries req actor e payload hserver he hreaches
  obtain ⟨out, hout⟩ := step_of_read he.1 ⟨.null, none⟩ db.val
  obtain ⟨w, hrun, -⟩ := (call_atomic e ⟨.null, none⟩).run_ok hout
  refine ⟨out, w, hrun, ?_⟩
  rw [answer_of_reaches (encoded_run moments hstarts) hserver hreaches,
    step_of_sameDomain hsame he ⟨payload, actor⟩ ⟨.null, none⟩, hout]
  rfl

/-- The bootstrap administrator lists the projects after a first start. -/
def administratorGet : HttpRequest where
  method := str "GET"
  path := str "/api/get_projects"
  headers := [(str "Authorization", str "Bearer oath2|xxxx")]
  body := []

def firstStart : List Moment := [⟨trustingLibraries, .start AuthConfig.readme []⟩]

theorem reaches_administratorGet :
    ∃ actor, Reaches AuthConfig.readme trustingLibraries administratorGet
      (server.run pristine firstStart).db.val (some actor) .getProjects .null := by
  have hdb : (server.run pristine firstStart).db.val =
      constructTables AuthConfig.readme Tables.empty :=
    run_start_db trustingLibraries AuthConfig.readme
  rw [hdb]
  refine ⟨⟨str "oath2|xxxx", grantedPerms readmeDb.val [str "administrator"]⟩, by decide, rfl,
    ⟨[str "api", str "get_projects"], by decide, ?_⟩, by decide, rfl⟩
  exact matchedEndpoint_iff.mp rfl

theorem reads_show_acknowledged_writes_first :
    ∃ db out w,
      Replays Redoes Db.empty (server.recorded acknowledged pristine firstStart) db ∧
      IEndpoint.getProjects.call ⟨.null, none⟩ (World.idle db []) = .ok out w ∧
      answer trustingLibraries (server.run pristine firstStart) (.request administratorGet []) =
        some (rendered out) := by
  have hstarts : ∀ moment ∈ firstStart, ∀ config faults, moment.event = .start config faults →
      FromFiles config := by
    intro moment hmoment config faults hstart
    obtain rfl := List.mem_singleton.mp hmoment
    obtain ⟨rfl, -⟩ := Event.start.inj hstart
    exact fromFiles_readme
  obtain ⟨db, hreplays, hreads⟩ := reads_show_acknowledged_writes firstStart hstarts
  obtain ⟨actor, hreaches⟩ := reaches_administratorGet
  obtain ⟨out, w, hrun, hanswer⟩ := hreads AuthConfig.readme trustingLibraries administratorGet
    (some actor) .getProjects .null (next_start_idle trustingLibraries pristine AuthConfig.readme)
    ⟨by decide, by decide, by decide⟩ hreaches
  exact ⟨db, out, w, hreplays, hrun, hanswer⟩

end MvcBackend.ClientView
