import MvcBackend.Authentication
import MvcBackend.JsonOutput

/-!
The endpoints: what each requires of the actor, and what its `call` does.
-/

namespace MvcBackend.Endpoints

open MvcBackend.JsonValues
open MvcBackend.DataModel
open MvcBackend.Database
open MvcBackend.JsonOutput
open MvcBackend.Authentication
open MvcBackend.Library.Transaction

structure EndpointInput where
  payload : Json
  actor : Option Actor

structure EndpointOutput where
  payload : Json

/-- An endpoint object, with the arguments that came from the path. -/
inductive IEndpoint where
  | getProjects
  | getProject (projectId : ProjectID)
  | getWorker (workerId : WorkerID)
  | getTask (taskId : TaskID)
  | addProject
  | delProject
  | getUsers
  | getRoles
  | addTask
  | assignTask
  | unassignTask
  | addWorker
  | getWorkers
  | debug
  deriving DecidableEq

def stringField (payload : Json) (key : String) : Except Exc Str :=
  ((payload.atKey (str key)).bind Json.getToString).mapError .json

/-- `payload.at(key).get_to(n)` for an `int`. -/
def intField (payload : Json) (key : String) : Except Exc Int :=
  ((payload.atKey (str key)).bind Json.getToInt).mapError .json

namespace IEndpoint

def requirements : IEndpoint → Requirements
  | getProjects => makeReqs [.viewProject]
  | getProject _ => makeReqs [.viewProject]
  | getWorker _ => makeReqs [.viewWorker]
  | getTask _ => makeReqs [.viewTask]
  | addProject => makeReqs [.createProject]
  | delProject => makeReqs [.deleteProject]
  | getUsers => makeReqs []
  | getRoles => makeReqs [.viewRole]
  | addTask => makeReqs [.createTask]
  | assignTask => makeReqs [.assignTask]
  | unassignTask => makeReqs [.assignTask]
  | addWorker => makeReqs [.createWorker]
  | getWorkers => makeReqs [.viewWorker]
  | debug => makeReqs [.administrate]

end IEndpoint

abbrev Call := App (Option EndpointOutput)

def output (payload : Json) : Option EndpointOutput := some ⟨payload⟩

def getProjectsCall : Call := transaction do
  let projects ← collect ProjectNameID
  return output (.array (projects.map projectNameIDToJson))

def getProjectCall (projectId : ProjectID) : Call := transaction do
  let project ← findValue projectId
  match project with
  | none => return none
  | some project => return output (← projectToJson project)

def getWorkerCall (workerId : WorkerID) : Call := transaction do
  let worker ← findValue workerId
  match worker with
  | none => return none
  | some worker => return output (← workerToJson worker)

def getTaskCall (taskId : TaskID) : Call := transaction do
  let query ← queryTaskDetails taskId
  match query with
  | result :: _ => return output (taskDetailsToJson result)
  | [] => return none

def addProjectCall (input : EndpointInput) : Call := do
  let name ← ofExcept (stringField input.payload "name")
  transaction do
    -- an id before `persist` is a placeholder, here and below
    let id ← persist (⟨0, name, []⟩ : Project)
    commit
    return output (.numberInteger id.val)

def delProjectCall (input : EndpointInput) : Call := do
  let id ← ofExcept (intField input.payload "id")
  transaction do
    erase ⟨id⟩
    commit
    return output unitToJson

def getUsersCall : Call := transaction do
  let users ← collect User
  return output (.array (users.map userToJson))

def getRolesCall : Call := transaction do
  let roles ← collect Role
  return output (.array (roles.map roleToJson))

def addTaskCall (input : EndpointInput) : Call := do
  let name ← ofExcept (stringField input.payload "name")
  let projectId ← ofExcept (intField input.payload "project_id")
  transaction do
    let project ← findShared (⟨projectId⟩ : ProjectID)
    match project with
    | none => return none
    | some project => do
        let taskId ← persist (⟨-1, name, ⟨project.id⟩, none⟩ : Task)
        commit
        return output (.numberInteger taskId.val)

def assignTaskCall (input : EndpointInput) : Call := do
  let taskId ← ofExcept (intField input.payload "task_id")
  let workerId ← ofExcept (intField input.payload "worker_id")
  transaction do
    let task ← findShared (⟨taskId⟩ : TaskID)
    let worker ← findShared (⟨workerId⟩ : WorkerID)
    match task, worker with
    | some task, some worker => do
        update { task with worker := some ⟨worker.id⟩ }
        commit
        return output unitToJson
    | _, _ => return none

def unassignTaskCall (input : EndpointInput) : Call := do
  let taskId ← ofExcept (intField input.payload "task_id")
  transaction do
    let task ← findShared (⟨taskId⟩ : TaskID)
    match task with
    | none => return none
    | some task => do
        update { task with worker := none }
        commit
        return output unitToJson

def addWorkerCall (input : EndpointInput) : Call := do
  let name ← ofExcept (stringField input.payload "name")
  transaction do
    let id ← persist (⟨0, name, []⟩ : Worker)
    commit
    return output (.numberInteger id.val)

def getWorkersCall : Call := transaction do
  let workers ← collect WorkerNameID
  return output (.array (workers.map workerNameIDToJson))

def debugCall : Call := return output unitToJson

namespace IEndpoint

def call : IEndpoint → EndpointInput → Call
  | getProjects, _ => getProjectsCall
  | getProject projectId, _ => getProjectCall projectId
  | getWorker workerId, _ => getWorkerCall workerId
  | getTask taskId, _ => getTaskCall taskId
  | addProject, input => addProjectCall input
  | delProject, input => delProjectCall input
  | getUsers, _ => getUsersCall
  | getRoles, _ => getRolesCall
  | addTask, input => addTaskCall input
  | assignTask, input => assignTaskCall input
  | unassignTask, input => unassignTaskCall input
  | addWorker, input => addWorkerCall input
  | getWorkers, _ => getWorkersCall
  | debug, _ => debugCall

end IEndpoint

end MvcBackend.Endpoints
