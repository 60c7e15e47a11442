import MvcBackend.EndpointSteps

/-!
The calls refine their steps: on every world, whatever faults it has in store,
a call makes its step or leaves the store alone.
-/

namespace MvcBackend.EndpointRefinement

open MvcBackend.JsonValues
open MvcBackend.DataModel
open MvcBackend.Database
open MvcBackend.JsonOutput
open MvcBackend.Endpoints
open MvcBackend.EndpointSteps
open MvcBackend.Library.KeyedTable
open MvcBackend.Library.Transaction

variable {t : Tables}

section Reads

variable {ι T : Type} [Persistent ι T]

theorem inside_find {id : ι} {found : Option T} (h : Persistent.load t id = .ok found) :
    Inside t (access (findProgram id)) (.ok (found, t)) := by
  apply Inside.access
  simp [findProgram, h, Except.map]

theorem inside_load {id : ι} {found : T} (h : Persistent.load t id = .ok (some found)) :
    Inside t (load id) (.ok (found, t)) := by
  apply Inside.access
  simp [loadProgram, h]

end Reads

def taskOfRow (row : Int × TaskRow) : Task :=
  ⟨row.1, row.2.name, ⟨row.2.project⟩, row.2.worker.map WorkerID.mk⟩

theorem load_task {id : Int} {task : TaskRow} (h : t.tasks.find id = some task) :
    Persistent.load t (⟨id⟩ : TaskID) = .ok (some (taskOfRow (id, task))) := by
  simp [Persistent.load, h, taskOfRow]

theorem load_task_none {id : TaskID} (h : t.tasks.find id.val = none) :
    Persistent.load t id = .ok none := by
  simp [Persistent.load, h]

theorem inside_realize (refers : TaskRow → Bool) :
    Inside t (realize (inverseTasks t refers))
      (.ok ((t.tasks.rows.filter fun row => refers row.2).map taskOfRow, t)) := by
  rw [realize, inverseTasks, List.mapM_map]
  apply Inside.mapM
  intro row hrow
  apply inside_load
  apply load_task
  exact (t.tasks.mem_rows_iff row.1 row.2).mp (List.mem_filter.mp hrow).1

theorem load_project {id : ProjectID} {name : Str} (h : t.projects.find id.val = some name) :
    Persistent.load t id = .ok (some ⟨id.val, name, inverseTasks t (·.project = id.val)⟩) := by
  show Except.ok _ = _
  rw [h]
  rfl

theorem load_project_none {id : ProjectID} (h : t.projects.find id.val = none) :
    Persistent.load t id = .ok none := by
  simp [Persistent.load, h]

theorem load_worker {id : WorkerID} {name : Str} (h : t.workers.find id.val = some name) :
    Persistent.load t id =
      .ok (some ⟨id.val, name, inverseTasks t (·.worker = some id.val)⟩) := by
  show Except.ok _ = _
  rw [h]
  rfl

theorem load_worker_none {id : WorkerID} (h : t.workers.find id.val = none) :
    Persistent.load t id = .ok none := by
  simp [Persistent.load, h]

/-- The lazy pointers of a stored task never dangle. -/
theorem inside_taskToJson (sound : ForeignKeys t) {row : Int × TaskRow}
    (hrow : row ∈ t.tasks.rows) :
    Inside t (taskToJson (taskOfRow row)) (.ok (taskRowJson row, t)) := by
  have hfind := (t.tasks.mem_rows_iff row.1 row.2).mp hrow
  obtain ⟨project, hproject⟩ := sound.exists_project hfind
  apply Inside.bind (inside_load (load_project hproject))
  rw [taskRowJson]
  cases hworker : row.2.worker with
  | none =>
      apply Inside.bind (a := none)
      · simp only [taskOfRow, hworker]
        exact Inside.pure none
      · exact Inside.pure _
  | some worker =>
      obtain ⟨name, hname⟩ := sound.exists_worker hfind hworker
      apply Inside.bind (a := some ⟨worker, name, inverseTasks t (·.worker = some worker)⟩)
      · simp only [taskOfRow, hworker]
        exact (inside_load (load_worker hname)).bind (Inside.pure _)
      · exact Inside.pure _

theorem inside_tasksToJson (sound : ForeignKeys t) (refers : TaskRow → Bool) :
    Inside t
      (((t.tasks.rows.filter fun row => refers row.2).map taskOfRow).mapM taskToJson)
      (.ok (tasksJson t refers, t)) := by
  rw [List.mapM_map]
  apply Inside.mapM
  intro row hrow
  exact inside_taskToJson sound (List.mem_filter.mp hrow).1

theorem inside_projectToJson (sound : ForeignKeys t) (id : Int) (name : Str) :
    Inside t (projectToJson ⟨id, name, inverseTasks t (·.project = id)⟩)
      (.ok (projectView t id name, t)) := by
  apply Inside.bind (inside_realize (·.project = id))
  apply Inside.bind (inside_tasksToJson sound (·.project = id))
  exact Inside.pure _

theorem inside_workerToJson (sound : ForeignKeys t) (id : Int) (name : Str) :
    Inside t (workerToJson ⟨id, name, inverseTasks t (·.worker = some id)⟩)
      (.ok (workerView t id name, t)) := by
  apply Inside.bind (inside_realize (·.worker = some id))
  apply Inside.bind (inside_tasksToJson sound (·.worker = some id))
  exact Inside.pure _

theorem mapM_eq_ok {α β : Type} {f : α → Except Exc β} {value : α → β} {xs : List α}
    (h : ∀ x ∈ xs, f x = .ok (value x)) : xs.mapM f = .ok (xs.map value) := by
  induction xs with
  | nil => rfl
  | cons x xs ih =>
      rw [List.mapM_cons, h x (by simp), ih fun y hy => h y (by simp [hy])]
      rfl

theorem loadUser_eq (sound : ForeignKeys t) {row : Str × List Str} (hrow : row ∈ t.users.rows) :
    loadUser t row.1 row.2 = .ok (userRow t row) := by
  have hroles : row.2.mapM (loadRole t) =
      .ok (row.2.map fun name => ⟨name, (t.roles.find name).getD ∅⟩) := by
    apply mapM_eq_ok
    intro name hname
    obtain ⟨perms, hperms⟩ := sound.exists_role ((t.users.mem_rows_iff _ _).mp hrow) hname
    simp [loadRole, hperms]
  rw [loadUser, hroles]
  rfl

theorem rows_user (sound : ForeignKeys t) :
    (Collectable.rows t : Except Exc (List User)) = .ok (t.users.rows.map (userRow t)) :=
  mapM_eq_ok fun _ hrow => loadUser_eq sound hrow

theorem inside_collect {T : Type} [Collectable T] {rows : List T}
    (h : Collectable.rows t = .ok rows) : Inside t (collect T) (.ok (rows, t)) := by
  apply Inside.access
  simp [collectProgram, h, Except.map]

theorem inside_erase {id : Int} {name : Str} (h : t.projects.find id = some name) :
    Inside t (erase ⟨id⟩) (.ok ((), Tables.eraseProject t id)) := by
  apply Inside.access
  simp [eraseProgram, h]

theorem inside_update {id : Int} {task : TaskRow} (h : t.tasks.find id = some task)
    (worker : Option Int) :
    Inside t (update { taskOfRow (id, task) with worker := worker.map WorkerID.mk })
      (.ok ((), setWorker t id task worker)) := by
  apply Inside.access
  cases worker <;> simp [updateProgram, taskOfRow, setWorker, h]

/-! ### The calls -/

theorem collect_atomic {T : Type} [Collectable T] (toJson : T → Json) {rows : Tables → List T}
    (h : ∀ t, ForeignKeys t → Collectable.rows t = .ok (rows t)) :
    Atomic (transaction do
        let objects ← collect T
        return output (.array (objects.map toJson)))
      fun t => .ok (output (.array ((rows t).map toJson)), none) := by
  apply Atomic.transaction
  intro t sound
  apply Concludes.bind (inside_collect (h t sound))
  exact Concludes.pure _

theorem getProjectsCall_atomic : Atomic getProjectsCall getProjectsStep := by
  have h := collect_atomic projectNameIDToJson fun _ _ => rfl
  simp only [List.map_map] at h
  exact h

theorem getWorkersCall_atomic : Atomic getWorkersCall getWorkersStep := by
  have h := collect_atomic workerNameIDToJson fun _ _ => rfl
  simp only [List.map_map] at h
  exact h

theorem getUsersCall_atomic : Atomic getUsersCall getUsersStep := by
  have h := collect_atomic userToJson fun _ sound => rows_user sound
  simp only [List.map_map] at h
  exact h

theorem getRolesCall_atomic : Atomic getRolesCall getRolesStep := by
  have h := collect_atomic roleToJson fun _ _ => rfl
  simp only [List.map_map] at h
  exact h

theorem getProjectCall_atomic (id : ProjectID) :
    Atomic (getProjectCall id) (getProjectStep id) := by
  apply Atomic.transaction
  intro t sound
  rw [getProjectStep]
  cases hproject : t.projects.find id.val with
  | none =>
      apply Concludes.bind (inside_find (load_project_none hproject))
      exact Concludes.pure none
  | some name =>
      apply Concludes.bind (inside_find (load_project hproject))
      apply Concludes.bind (inside_projectToJson sound id.val name)
      exact Concludes.pure _

theorem getWorkerCall_atomic (id : WorkerID) :
    Atomic (getWorkerCall id) (getWorkerStep id) := by
  apply Atomic.transaction
  intro t sound
  rw [getWorkerStep]
  cases hworker : t.workers.find id.val with
  | none =>
      apply Concludes.bind (inside_find (load_worker_none hworker))
      exact Concludes.pure none
  | some name =>
      apply Concludes.bind (inside_find (load_worker hworker))
      apply Concludes.bind (inside_workerToJson sound id.val name)
      exact Concludes.pure _

theorem getTaskCall_atomic (id : TaskID) : Atomic (getTaskCall id) (getTaskStep id) := by
  apply Atomic.transaction
  intro t _
  apply Concludes.bind (Inside.access rfl)
  simp only [t.tasks.filter_key, getTaskStep]
  cases t.tasks.find id.val with
  | none => exact Concludes.pure none
  | some task => exact Concludes.pure _

theorem addProjectCall_atomic (input : EndpointInput) :
    Atomic (addProjectCall input) (addProjectStep input.payload) := by
  apply Atomic.after (Observes.ofExcept _)
  intro name
  apply Atomic.transaction
  intro t sound
  apply Concludes.bind (Inside.access rfl)
  apply Concludes.map
  exact Concludes.commit (foreignKeys_push_project sound name)

theorem addWorkerCall_atomic (input : EndpointInput) :
    Atomic (addWorkerCall input) (addWorkerStep input.payload) := by
  apply Atomic.after (Observes.ofExcept _)
  intro name
  apply Atomic.transaction
  intro t sound
  apply Concludes.bind (Inside.access rfl)
  apply Concludes.map
  exact Concludes.commit (foreignKeys_push_worker sound name)

theorem delProjectCall_atomic (input : EndpointInput) :
    Atomic (delProjectCall input) (delProjectStep input.payload) := by
  apply Atomic.after (Observes.ofExcept _)
  intro id
  apply Atomic.transaction
  intro t sound
  cases hproject : t.projects.find id with
  | none =>
      apply Concludes.bind_error
      apply Inside.access
      simp [eraseProgram, hproject]
  | some name =>
      apply Concludes.bind (inside_erase hproject)
      apply Concludes.map
      exact Concludes.commit (foreignKeys_eraseProject sound id)

theorem addTaskCall_atomic (input : EndpointInput) :
    Atomic (addTaskCall input) (addTaskStep input.payload) := by
  apply Atomic.after (Observes.ofExcept _)
  intro name
  apply Atomic.after (Observes.ofExcept _)
  intro projectId
  apply Atomic.transaction
  intro t sound
  cases hproject : t.projects.find projectId with
  | none =>
      apply Concludes.bind (inside_find (load_project_none hproject))
      exact Concludes.pure none
  | some projectName =>
      apply Concludes.bind (inside_find (load_project hproject))
      apply Concludes.bind (Inside.access rfl)
      apply Concludes.map
      exact Concludes.commit (foreignKeys_push_task sound hproject name)

theorem assignTaskCall_atomic (input : EndpointInput) :
    Atomic (assignTaskCall input) (assignTaskStep input.payload) := by
  apply Atomic.after (Observes.ofExcept _)
  intro taskId
  apply Atomic.after (Observes.ofExcept _)
  intro workerId
  apply Atomic.transaction
  intro t sound
  cases htask : t.tasks.find taskId with
  | none =>
      apply Concludes.bind (inside_find (load_task_none htask))
      obtain ⟨worker, hworker⟩ : ∃ worker, Persistent.load t (⟨workerId⟩ : WorkerID) = .ok worker :=
        ⟨_, rfl⟩
      apply Concludes.bind (inside_find hworker)
      exact Concludes.pure none
  | some task =>
      apply Concludes.bind (inside_find (load_task htask))
      cases hworker : t.workers.find workerId with
      | none =>
          apply Concludes.bind (inside_find (load_worker_none hworker))
          exact Concludes.pure none
      | some name =>
          apply Concludes.bind (inside_find (load_worker hworker))
          apply Concludes.bind (inside_update htask (some workerId))
          apply Concludes.map
          exact Concludes.commit (foreignKeys_setWorker sound htask (by simp [hworker]))

theorem unassignTaskCall_atomic (input : EndpointInput) :
    Atomic (unassignTaskCall input) (unassignTaskStep input.payload) := by
  apply Atomic.after (Observes.ofExcept _)
  intro taskId
  apply Atomic.transaction
  intro t sound
  cases htask : t.tasks.find taskId with
  | none =>
      apply Concludes.bind (inside_find (load_task_none htask))
      exact Concludes.pure none
  | some task =>
      apply Concludes.bind (inside_find (load_task htask))
      apply Concludes.bind (inside_update htask none)
      apply Concludes.map
      exact Concludes.commit (foreignKeys_setWorker sound htask (by simp))

theorem call_atomic (e : IEndpoint) (input : EndpointInput) :
    Atomic (e.call input) (step e input) := by
  cases e with
  | getProjects => exact getProjectsCall_atomic
  | getProject id => exact getProjectCall_atomic id
  | getWorker id => exact getWorkerCall_atomic id
  | getTask id => exact getTaskCall_atomic id
  | addProject => exact addProjectCall_atomic input
  | delProject => exact delProjectCall_atomic input
  | getUsers => exact getUsersCall_atomic
  | getRoles => exact getRolesCall_atomic
  | addTask => exact addTaskCall_atomic input
  | assignTask => exact assignTaskCall_atomic input
  | unassignTask => exact unassignTaskCall_atomic input
  | addWorker => exact addWorkerCall_atomic input
  | getWorkers => exact getWorkersCall_atomic
  | debug => exact Atomic.pure _

end MvcBackend.EndpointRefinement
