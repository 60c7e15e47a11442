import MvcBackend.System

/-!
Requests that name rows by id. Where a row is missing the endpoints answer
nothing, except that erasing a missing project throws.
-/

namespace MvcBackend.UnknownIds

open MvcBackend.JsonValues
open MvcBackend.DataModel
open MvcBackend.Database
open MvcBackend.Authentication
open MvcBackend.Endpoints
open MvcBackend.EndpointSteps
open MvcBackend.EndpointRefinement
open MvcBackend.HttpHandler
open MvcBackend.System
open MvcBackend.Library.KeyedTable
open MvcBackend.Library.Transaction

/-- A request to an endpoint that names rows by id, with fields of the right type. -/
def WellTyped (payload : Json) : IEndpoint → Prop
  | .getProject _ | .getWorker _ | .getTask _ => True
  | .addTask => (∃ name, stringField payload "name" = .ok name) ∧
      ∃ project, intField payload "project_id" = .ok project
  | .assignTask => (∃ id, intField payload "task_id" = .ok id) ∧
      ∃ worker, intField payload "worker_id" = .ok worker
  | .unassignTask => ∃ id, intField payload "task_id" = .ok id
  | .delProject => ∃ id, intField payload "id" = .ok id
  | _ => False

def NamedRowsExist (payload : Json) (t : Tables) : IEndpoint → Prop
  | .getProject p => (t.projects.find p.val).isSome
  | .getWorker w => (t.workers.find w.val).isSome
  | .getTask task => (t.tasks.find task.val).isSome
  | .addTask => ∀ id, intField payload "project_id" = .ok id → (t.projects.find id).isSome
  | .assignTask => (∀ id, intField payload "task_id" = .ok id → (t.tasks.find id).isSome) ∧
      ∀ id, intField payload "worker_id" = .ok id → (t.workers.find id).isSome
  | .unassignTask => ∀ id, intField payload "task_id" = .ok id → (t.tasks.find id).isSome
  | .delProject => ∀ id, intField payload "id" = .ok id → (t.projects.find id).isSome
  | _ => True

/-- A missing row is answered with an `Err` envelope and nothing else happens;
otherwise there is an output. -/
def ReportsUniformly (e : IEndpoint) (input : EndpointInput) (db : Db) : Prop :=
  (¬ NamedRowsExist input.payload db.val e →
    e.call input (World.idle db []) = .ok none (World.idle db []) ∧
      ∃ j headers, respond none = .ok ⟨200, .json (.object [(str "Err", j)]), headers⟩) ∧
    (NamedRowsExist input.payload db.val e →
      ∃ out w, e.call input (World.idle db []) = .ok (some out) w)

def DeletesMissing (e : IEndpoint) (payload : Json) (t : Tables) : Prop :=
  e = .delProject ∧ ∃ id, intField payload "id" = .ok id ∧ t.projects.find id = none

variable {e : IEndpoint} {input : EndpointInput} {db : Db}

theorem reportsUniformly_of_step
    (hmissing : ¬ NamedRowsExist input.payload db.val e → step e input db.val = .ok (none, none))
    (hfound : NamedRowsExist input.payload db.val e →
      ∃ out o, step e input db.val = .ok (some out, o)) : ReportsUniformly e input db := by
  refine ⟨fun h => ⟨(call_atomic e input).run_read (hmissing h), _, _, rfl⟩, fun h => ?_⟩
  obtain ⟨out, o, hstep⟩ := hfound h
  obtain ⟨w, hrun, -⟩ := (call_atomic e input).run_ok hstep
  exact ⟨out, w, hrun⟩

theorem find_map_cases {α : Type} (found : Option α) (f : α → EndpointOutput) :
    (¬ found.isSome → (.ok (found.map f, none) : StepResult) = .ok (none, none)) ∧
      (found.isSome → ∃ out o, (.ok (found.map f, none) : StepResult) = .ok (some out, o)) := by
  cases found with
  | none => simp
  | some a => simp

theorem step_of_missing (htyped : WellTyped input.payload e)
    (h : ¬ DeletesMissing e input.payload db.val)
    (hmissing : ¬ NamedRowsExist input.payload db.val e) :
    step e input db.val = .ok (none, none) := by
  cases e with
  | getProject p => exact (find_map_cases _ _).1 hmissing
  | getWorker w => exact (find_map_cases _ _).1 hmissing
  | getTask task => exact (find_map_cases _ _).1 hmissing
  | addTask =>
      obtain ⟨⟨name, hname⟩, project, hid⟩ := htyped
      have hproject : db.val.projects.find project = none := by
        simpa [NamedRowsExist, hid] using hmissing
      refine bind_eq_ok.mpr ⟨name, hname, bind_eq_ok.mpr ⟨project, hid, ?_⟩⟩
      simp only [hproject]
      rfl
  | assignTask =>
      obtain ⟨⟨id, hid⟩, worker, hworkerId⟩ := htyped
      refine bind_eq_ok.mpr ⟨id, hid, bind_eq_ok.mpr ⟨worker, hworkerId, ?_⟩⟩
      split
      · next htask hworker => simp [NamedRowsExist, hid, hworkerId, htask, hworker] at hmissing
      · rfl
  | unassignTask =>
      obtain ⟨id, hid⟩ := htyped
      have htask : db.val.tasks.find id = none := by
        simpa [NamedRowsExist, hid] using hmissing
      refine bind_eq_ok.mpr ⟨id, hid, ?_⟩
      simp only [htask]
      rfl
  | delProject =>
      obtain ⟨id, hid⟩ := htyped
      exact absurd ⟨rfl, id, hid, by simpa [NamedRowsExist, hid] using hmissing⟩ h
  | _ => cases htyped

theorem step_of_found (htyped : WellTyped input.payload e)
    (hfound : NamedRowsExist input.payload db.val e) :
    ∃ out o, step e input db.val = .ok (some out, o) := by
  cases e with
  | getProject p => exact (find_map_cases _ _).2 hfound
  | getWorker w => exact (find_map_cases _ _).2 hfound
  | getTask task => exact (find_map_cases _ _).2 hfound
  | addTask =>
      obtain ⟨⟨name, hname⟩, project, hid⟩ := htyped
      obtain ⟨projectName, hproject⟩ := Option.isSome_iff_exists.mp (hfound project hid)
      exact ⟨_, _, step_of_commits (.addTask hname hid hproject)⟩
  | assignTask =>
      obtain ⟨⟨id, hid⟩, worker, hworkerId⟩ := htyped
      obtain ⟨task, htask⟩ := Option.isSome_iff_exists.mp (hfound.1 id hid)
      obtain ⟨workerName, hworker⟩ := Option.isSome_iff_exists.mp (hfound.2 worker hworkerId)
      exact ⟨_, _, step_of_commits (.assignTask hid hworkerId htask hworker)⟩
  | unassignTask =>
      obtain ⟨id, hid⟩ := htyped
      obtain ⟨task, htask⟩ := Option.isSome_iff_exists.mp (hfound id hid)
      exact ⟨_, _, step_of_commits (.unassignTask hid htask)⟩
  | delProject =>
      obtain ⟨id, hid⟩ := htyped
      obtain ⟨name, hproject⟩ := Option.isSome_iff_exists.mp (hfound id hid)
      exact ⟨_, _, step_of_commits (.delProject hid hproject)⟩
  | _ => cases htyped

theorem call_of_deletesMissing (h : DeletesMissing e input.payload db.val) :
    e.call input (World.idle db []) = .error .objectNotPersistent (World.idle db []) := by
  obtain ⟨rfl, id, hid, hproject⟩ := h
  apply (call_atomic .delProject input).run_error
  refine bind_eq_error.mpr (.inr ⟨id, hid, ?_⟩)
  simp [hproject]

theorem not_reportsUniformly (h : DeletesMissing e input.payload db.val) :
    ¬ ReportsUniformly e input db := by
  intro huniform
  have hrun := call_of_deletesMissing h
  obtain ⟨rfl, id, hid, hproject⟩ := h
  have hmissing : ¬ NamedRowsExist input.payload db.val .delProject := by
    simp [NamedRowsExist, hid, hproject]
  have hnone := (huniform.1 hmissing).1
  rw [hrun] at hnone
  cases hnone

/-- In every state of every run, a well-typed request that names rows is
answered uniformly unless it is to delete a project that is not there. -/
theorem reports_uniformly_iff {libraries : Libraries} {events : List Event}
    (htyped : WellTyped input.payload e) :
    let db := (run libraries events).db
    ReportsUniformly e input db ↔ ¬ DeletesMissing e input.payload db.val := by
  intro db
  constructor
  · intro huniform hdeletes
    exact not_reportsUniformly hdeletes huniform
  · intro h
    exact reportsUniformly_of_step (step_of_missing htyped h) (step_of_found htyped)

/-- The bootstrap administrator adds a worker. -/
def workerPost : HttpRequest where
  method := str "POST"
  path := str "/api/add_worker"
  headers := [(str "Authorization", str "Bearer oath2|xxxx")]
  body := []

def assignment : Json :=
  .object [(str "task_id", .numberUnsigned 1), (str "worker_id", .numberUnsigned 1)]

/-- There is a worker, but no task to assign it to. -/
theorem reports_uniformly_iff_assignment :
    let libraries : Libraries :=
      ⟨trustingJwt, fun _ => .ok (.object [(str "name", .string (str "w"))])⟩
    let db := (run libraries [.start AuthConfig.readme [], .request workerPost []]).db
    ReportsUniformly .assignTask ⟨assignment, none⟩ db ↔
      ¬ DeletesMissing .assignTask assignment db.val :=
  reports_uniformly_iff ⟨⟨1, rfl⟩, 1, rfl⟩

/-- Deleting project 7 of an empty database throws. -/
theorem deleting_missing_project_throws :
    WellTyped (.object [(str "id", .numberUnsigned 7)]) .delProject ∧
      ¬ ReportsUniformly .delProject ⟨.object [(str "id", .numberUnsigned 7)], none⟩
        (run trustingLibraries []).db :=
  ⟨⟨7, rfl⟩, not_reportsUniformly ⟨rfl, 7, rfl, rfl⟩⟩

end MvcBackend.UnknownIds
