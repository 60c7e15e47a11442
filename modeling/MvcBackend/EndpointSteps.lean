import MvcBackend.Endpoints

/-!
Every call of an endpoint is one step on the tables. `step` is that step: the
output, and the tables it commits if it commits any.
-/

namespace MvcBackend.EndpointSteps

open MvcBackend.JsonValues
open MvcBackend.DataModel
open MvcBackend.Database
open MvcBackend.JsonOutput
open MvcBackend.Endpoints
open MvcBackend.Library.KeyedTable
open MvcBackend.Library.Transaction

abbrev StepResult := Except Exc (Option EndpointOutput × Option Tables)

def taskRowJson (row : Int × TaskRow) : Json :=
  taskJson row.1 row.2.name row.2.project row.2.worker

/-- The tasks whose foreign key satisfies `refers`, as their owner lists them. -/
def tasksJson (t : Tables) (refers : TaskRow → Bool) : List Json :=
  (t.tasks.rows.filter fun row => refers row.2).map taskRowJson

def projectView (t : Tables) (id : Int) (name : Str) : Json :=
  ownerJson id name (tasksJson t fun task => task.project = id)

def workerView (t : Tables) (id : Int) (name : Str) : Json :=
  ownerJson id name (tasksJson t fun task => task.worker = some id)

def userRow (t : Tables) (row : Str × List Str) : User :=
  ⟨row.1, row.2.map fun name => ⟨name, (t.roles.find name).getD ∅⟩⟩

def getProjectsStep (t : Tables) : StepResult :=
  .ok (output (.array (t.projects.rows.map fun row => nameIdJson row.2 row.1)), none)

def getWorkersStep (t : Tables) : StepResult :=
  .ok (output (.array (t.workers.rows.map fun row => nameIdJson row.2 row.1)), none)

def getProjectStep (id : ProjectID) (t : Tables) : StepResult :=
  .ok (((t.projects.find id.val).map fun name => ⟨projectView t id.val name⟩), none)

def getWorkerStep (id : WorkerID) (t : Tables) : StepResult :=
  .ok (((t.workers.find id.val).map fun name => ⟨workerView t id.val name⟩), none)

def getTaskStep (id : TaskID) (t : Tables) : StepResult :=
  .ok (((t.tasks.find id.val).map fun task =>
    ⟨taskDetailsToJson (taskDetails t id.val task)⟩), none)

def getUsersStep (t : Tables) : StepResult :=
  .ok (output (.array (t.users.rows.map fun row => userToJson (userRow t row))), none)

def getRolesStep (t : Tables) : StepResult :=
  .ok (output (.array (t.roles.rows.map fun row => roleToJson ⟨row.1, row.2⟩)), none)

def addProjectStep (payload : Json) (t : Tables) : StepResult := do
  let name ← stringField payload "name"
  return (output (.numberInteger t.projects.nextKey),
    some { t with projects := t.projects.push name })

def addWorkerStep (payload : Json) (t : Tables) : StepResult := do
  let name ← stringField payload "name"
  return (output (.numberInteger t.workers.nextKey),
    some { t with workers := t.workers.push name })

def addTaskStep (payload : Json) (t : Tables) : StepResult := do
  let name ← stringField payload "name"
  let project ← intField payload "project_id"
  match t.projects.find project with
  | none => return (none, none)
  | some _ =>
      return (output (.numberInteger t.tasks.nextKey),
        some { t with tasks := t.tasks.push ⟨name, project, none⟩ })

/-- What assigning and unassigning have in common: a task gets a worker or loses it. -/
def setWorker (t : Tables) (id : Int) (task : TaskRow) (worker : Option Int) : Tables :=
  { t with tasks := t.tasks.set id { task with worker } }

def assignTaskStep (payload : Json) (t : Tables) : StepResult := do
  let id ← intField payload "task_id"
  let worker ← intField payload "worker_id"
  match t.tasks.find id, t.workers.find worker with
  | some task, some _ => return (output unitToJson, some (setWorker t id task (some worker)))
  | _, _ => return (none, none)

def unassignTaskStep (payload : Json) (t : Tables) : StepResult := do
  let id ← intField payload "task_id"
  match t.tasks.find id with
  | some task => return (output unitToJson, some (setWorker t id task none))
  | none => return (none, none)

def delProjectStep (payload : Json) (t : Tables) : StepResult := do
  let id ← intField payload "id"
  match t.projects.find id with
  | some _ => return (output unitToJson, some (Tables.eraseProject t id))
  | none => .error .objectNotPersistent

def step : IEndpoint → EndpointInput → Tables → StepResult
  | .getProjects, _ => getProjectsStep
  | .getProject id, _ => getProjectStep id
  | .getWorker id, _ => getWorkerStep id
  | .getTask id, _ => getTaskStep id
  | .addProject, input => addProjectStep input.payload
  | .delProject, input => delProjectStep input.payload
  | .getUsers, _ => getUsersStep
  | .getRoles, _ => getRolesStep
  | .addTask, input => addTaskStep input.payload
  | .assignTask, input => assignTaskStep input.payload
  | .unassignTask, input => unassignTaskStep input.payload
  | .addWorker, input => addWorkerStep input.payload
  | .getWorkers, _ => getWorkersStep
  | .debug, _ => fun _ => .ok (output unitToJson, none)

/-- The writes: what an endpoint with this payload answers, and the tables it
commits. -/
inductive Commits (payload : Json) (t : Tables) : IEndpoint → Json → Tables → Prop where
  | addProject {name : Str} (hname : stringField payload "name" = .ok name) :
      Commits payload t .addProject (.numberInteger t.projects.nextKey)
        { t with projects := t.projects.push name }
  | addWorker {name : Str} (hname : stringField payload "name" = .ok name) :
      Commits payload t .addWorker (.numberInteger t.workers.nextKey)
        { t with workers := t.workers.push name }
  | addTask {name projectName : Str} {project : Int}
      (hname : stringField payload "name" = .ok name)
      (hid : intField payload "project_id" = .ok project)
      (hproject : t.projects.find project = some projectName) :
      Commits payload t .addTask (.numberInteger t.tasks.nextKey)
        { t with tasks := t.tasks.push ⟨name, project, none⟩ }
  | assignTask {id worker : Int} {task : TaskRow} {workerName : Str}
      (hid : intField payload "task_id" = .ok id)
      (hworkerId : intField payload "worker_id" = .ok worker)
      (htask : t.tasks.find id = some task)
      (hworker : t.workers.find worker = some workerName) :
      Commits payload t .assignTask unitToJson (setWorker t id task (some worker))
  | unassignTask {id : Int} {task : TaskRow}
      (hid : intField payload "task_id" = .ok id) (htask : t.tasks.find id = some task) :
      Commits payload t .unassignTask unitToJson (setWorker t id task none)
  | delProject {id : Int} {name : Str}
      (hid : intField payload "id" = .ok id) (hproject : t.projects.find id = some name) :
      Commits payload t .delProject unitToJson (Tables.eraseProject t id)

def writers : List IEndpoint :=
  [.addProject, .addTask, .addWorker, .assignTask, .unassignTask, .delProject]

section Steps

variable {e : IEndpoint} {input : EndpointInput} {t t' : Tables} {out : Option EndpointOutput}
  {o : Option Tables}

/-- A step is a write, or it commits nothing, and then a writer has no output. -/
theorem step_cases (h : step e input t = .ok (out, o)) :
    (∃ j t', out = some ⟨j⟩ ∧ o = some t' ∧ Commits input.payload t e j t') ∨
      (o = none ∧ (e ∈ writers → out = none)) := by
  cases e with
  | addProject =>
      obtain ⟨name, hname, heq⟩ := bind_eq_ok.mp h
      cases heq
      exact .inl ⟨_, _, rfl, rfl, .addProject hname⟩
  | addWorker =>
      obtain ⟨name, hname, heq⟩ := bind_eq_ok.mp h
      cases heq
      exact .inl ⟨_, _, rfl, rfl, .addWorker hname⟩
  | addTask =>
      obtain ⟨name, hname, h⟩ := bind_eq_ok.mp h
      obtain ⟨project, hid, h⟩ := bind_eq_ok.mp h
      split at h
      · cases h
        exact .inr ⟨rfl, fun _ => rfl⟩
      · next projectName hproject =>
          cases h
          exact .inl ⟨_, _, rfl, rfl, .addTask hname hid hproject⟩
  | assignTask =>
      obtain ⟨id, hid, h⟩ := bind_eq_ok.mp h
      obtain ⟨worker, hworkerId, h⟩ := bind_eq_ok.mp h
      split at h
      · next task workerName htask hworker =>
          cases h
          exact .inl ⟨_, _, rfl, rfl, .assignTask hid hworkerId htask hworker⟩
      · cases h
        exact .inr ⟨rfl, fun _ => rfl⟩
  | unassignTask =>
      obtain ⟨id, hid, h⟩ := bind_eq_ok.mp h
      split at h
      · next task htask =>
          cases h
          exact .inl ⟨_, _, rfl, rfl, .unassignTask hid htask⟩
      · cases h
        exact .inr ⟨rfl, fun _ => rfl⟩
  | delProject =>
      obtain ⟨id, hid, h⟩ := bind_eq_ok.mp h
      split at h
      · next name hproject =>
          cases h
          exact .inl ⟨_, _, rfl, rfl, .delProject hid hproject⟩
      · cases h
  | getProjects | getProject id | getWorker id | getTask id | getUsers | getRoles | getWorkers
  | debug =>
      cases h
      exact .inr ⟨rfl, fun he => absurd he (by simp [writers])⟩

theorem commits_of_step (h : step e input t = .ok (out, some t')) :
    ∃ j, out = some ⟨j⟩ ∧ Commits input.payload t e j t' := by
  rcases step_cases h with ⟨j, t'', hout, ht, hcommits⟩ | ⟨hnone, -⟩
  · cases ht
    exact ⟨j, hout, hcommits⟩
  · cases hnone

theorem step_of_commits {j : Json} (h : Commits input.payload t e j t') :
    step e input t = .ok (some ⟨j⟩, some t') := by
  cases h with
  | addProject hname => exact bind_eq_ok.mpr ⟨_, hname, rfl⟩
  | addWorker hname => exact bind_eq_ok.mpr ⟨_, hname, rfl⟩
  | addTask hname hid hproject =>
      refine bind_eq_ok.mpr ⟨_, hname, bind_eq_ok.mpr ⟨_, hid, ?_⟩⟩
      simp only [hproject]
      rfl
  | assignTask hid hworkerId htask hworker =>
      refine bind_eq_ok.mpr ⟨_, hid, bind_eq_ok.mpr ⟨_, hworkerId, ?_⟩⟩
      simp only [htask, hworker]
      rfl
  | unassignTask hid htask =>
      refine bind_eq_ok.mpr ⟨_, hid, ?_⟩
      simp only [htask]
      rfl
  | delProject hid hproject =>
      refine bind_eq_ok.mpr ⟨_, hid, ?_⟩
      simp only [hproject]
      rfl

theorem Commits.mem_writers {payload j : Json} (h : Commits payload t e j t') : e ∈ writers := by
  cases h <;> simp [writers]

theorem Commits.frame {payload j : Json} (h : Commits payload t e j t') :
    t'.roles = t.roles ∧ t'.users = t.users := by
  cases h <;> exact ⟨rfl, rfl⟩

end Steps

/-! ### The foreign keys after a write -/

section ForeignKeys

variable {t : Tables}

theorem foreignKeys_push_project (h : ForeignKeys t) (name : Str) :
    ForeignKeys { t with projects := t.projects.push name } := by
  refine .of_find (fun _ _ huser _ hname => ?_) (fun _ _ htask => ?_)
    fun _ _ htask _ hworker => ?_
  · exact h.isSome_role huser hname
  · exact SequencedTable.isSome_find_push (h.isSome_project htask)
  · exact h.isSome_worker htask hworker

theorem foreignKeys_push_worker (h : ForeignKeys t) (name : Str) :
    ForeignKeys { t with workers := t.workers.push name } := by
  refine .of_find (fun _ _ huser _ hname => ?_) (fun _ _ htask => ?_)
    fun _ _ htask _ hworker => ?_
  · exact h.isSome_role huser hname
  · exact h.isSome_project htask
  · exact SequencedTable.isSome_find_push (h.isSome_worker htask hworker)

/-- A task that is new or rewritten must refer to rows, as every other task does. -/
theorem foreignKeys_with_tasks (h : ForeignKeys t) {tasks : SequencedTable TaskRow}
    (htasks : ∀ id task, tasks.find id = some task → t.tasks.find id = some task ∨
      (t.projects.find task.project).isSome ∧
        ∀ w, task.worker = some w → (t.workers.find w).isSome) :
    ForeignKeys { t with tasks } := by
  refine .of_find (fun _ _ huser _ hname => ?_) (fun id task htask => ?_)
    fun id task htask w hw => ?_
  · exact h.isSome_role huser hname
  · rcases htasks id task htask with hold | ⟨hproject, -⟩
    · exact h.isSome_project hold
    · exact hproject
  · rcases htasks id task htask with hold | ⟨-, hworker⟩
    · exact h.isSome_worker hold hw
    · exact hworker w hw

theorem foreignKeys_push_task (h : ForeignKeys t) {project : Int} {projectName : Str}
    (hproject : t.projects.find project = some projectName) (name : Str) :
    ForeignKeys { t with tasks := t.tasks.push ⟨name, project, none⟩ } := by
  refine foreignKeys_with_tasks h fun id task htask => ?_
  rw [SequencedTable.find_push] at htask
  split at htask
  · obtain rfl : TaskRow.mk name project none = task := by simpa using htask
    exact .inr (by simp [hproject])
  · exact .inl htask

theorem foreignKeys_setWorker (h : ForeignKeys t) {id : Int} {task : TaskRow}
    (htask : t.tasks.find id = some task) {worker : Option Int}
    (hworker : ∀ w, worker = some w → (t.workers.find w).isSome) :
    ForeignKeys (setWorker t id task worker) := by
  refine foreignKeys_with_tasks h fun id' task' htask' => ?_
  rw [SequencedTable.find_set] at htask'
  split at htask'
  · next hid =>
      obtain rfl : { task with worker } = task' := by
        simpa [hid, htask] using htask'
      have hproject := h.isSome_project htask
      exact .inr ⟨hproject, hworker⟩
  · exact .inl htask'

/-- The cascade leaves no task of the erased project behind. -/
theorem foreignKeys_eraseProject (h : ForeignKeys t) (id : Int) :
    ForeignKeys (Tables.eraseProject t id) := by
  have htask : ∀ {id' task}, (Tables.eraseProject t id).tasks.find id' = some task →
      t.tasks.find id' = some task ∧ task.project ≠ id := by
    intro id' task h'
    simpa [Tables.eraseProject, SequencedTable.find_restrict, Option.filter_eq_some_iff]
      using h'
  refine .of_find (fun _ _ huser _ hname => ?_) (fun _ _ hfind => ?_)
    fun _ _ hfind w hw => ?_
  · exact h.isSome_role huser hname
  · obtain ⟨hold, hne⟩ := htask hfind
    simpa [Tables.eraseProject, SequencedTable.find_erase, hne] using h.isSome_project hold
  · exact h.isSome_worker (htask hfind).1 hw

end ForeignKeys

end MvcBackend.EndpointSteps
