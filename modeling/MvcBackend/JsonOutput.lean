import MvcBackend.Database

/-!
The `to_json` overloads. Serializing a project or a worker loads its tasks, and
serializing a task loads its project and its worker, through the transaction
that is current at that moment.
-/

namespace MvcBackend.JsonOutput

open MvcBackend.JsonValues
open MvcBackend.DataModel
open MvcBackend.Database
open MvcBackend.Library.Transaction

def realize (xs : List TaskID) : App (List Task) := xs.mapM load

/-- `load` of a lazy pointer that may be null. -/
def loadNullable {ι T : Type} [Persistent ι T] : Option ι → App (Option T)
  | some id => do
      let found ← load id
      return some found
  | none => return none

def workerField : Option Int → Json
  | some id => .numberInteger id
  | none => .null

def taskJson (id : Int) (name : Str) (project : Int) (worker : Option Int) : Json :=
  .object [(str "id", .numberInteger id), (str "name", .string name),
    (str "project", .numberInteger project), (str "worker", workerField worker)]

def taskToJson (x : Task) : App Json := do
  let project ← load x.project
  let worker ← loadNullable x.worker
  return taskJson x.id x.name project.id (worker.map Worker.id)

/-- A set of enumerators is an array of their values in increasing order. -/
def permsToJson (perms : Finset Perm) : Json :=
  .array ((Perm.all.filter (· ∈ perms)).map fun p => .numberInteger p.value)

def roleToJson (x : Role) : Json :=
  .object [(str "id", .string x.name), (str "perms", permsToJson x.perms)]

def userToJson (x : User) : Json :=
  .object [(str "id", .string x.id), (str "roles", .array (x.roles.map roleToJson))]

def ownerJson (id : Int) (name : Str) (tasks : List Json) : Json :=
  .object [(str "id", .numberInteger id), (str "name", .string name),
    (str "tasks", .array tasks)]

def projectToJson (x : Project) : App Json := do
  let tasks ← realize x.tasks
  let items ← tasks.mapM taskToJson
  return ownerJson x.id x.name items

def workerToJson (x : Worker) : App Json := do
  let tasks ← realize x.tasks
  let items ← tasks.mapM taskToJson
  return ownerJson x.id x.name items

def nameIdJson (name : Str) (id : Int) : Json :=
  .object [(str "id", .numberInteger id), (str "name", .string name)]

def projectNameIDToJson (x : ProjectNameID) : Json := nameIdJson x.name x.id

def workerNameIDToJson (x : WorkerNameID) : Json := nameIdJson x.name x.id

def taskDetailsToJson (x : TaskDetails) : Json :=
  let project := Json.object
    [(str "name", .string x.projectName), (str "id", .numberInteger x.projectId)]
  let worker :=
    match x.workerId, x.workerName with
    | some id, some name => Json.object [(str "name", .string name), (str "id", .numberInteger id)]
    | _, _ => .null
  .object [(str "id", .numberInteger x.id), (str "name", .string x.name),
    (str "project", project), (str "worker", worker)]

def unitToJson : Json := .null

end MvcBackend.JsonOutput
