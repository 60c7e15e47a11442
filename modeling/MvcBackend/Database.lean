import MvcBackend.DataModel
import MvcBackend.Library.Transaction

/-!
`IDatabase` and `Transaction`: the exceptions of the backend, and the ODB
operations on the working copy that a transaction guard holds.
-/

namespace MvcBackend.Database

open MvcBackend.JsonValues
open MvcBackend.DataModel
open MvcBackend.Library.KeyedTable
open MvcBackend.Library.Transaction

/-- What the code can throw. Everything but the last two is a `std::exception`;
`undefined` stands for behaviour that C++ leaves undefined. -/
inductive Exc where
  | userError (what : Str)
  | authError (what : Str)
  | runtimeError (what : Str)
  | json (e : JsonException)
  | alreadyInTransaction
  | notInTransaction
  | objectNotPersistent
  | databaseException (what : Str)
  | libraryException (what : Str)
  | thrown (code : Int)
  | undefined
  deriving DecidableEq

instance : Engine Tables Exc Str where
  Sound := ForeignKeys
  decideSound := inferInstance
  raise := .databaseException
  alreadyInTransaction := .alreadyInTransaction
  notInTransaction := .notInTransaction
  constraintViolation := .databaseException (str "FOREIGN KEY constraint failed")

abbrev Db := Store Tables
abbrev AppWorld := World Tables
abbrev App (α : Type) := Action Tables α
abbrev TxProgram (α : Type) := Program Tables Exc α

def Db.empty : Db := ⟨Tables.empty, foreignKeys_empty⟩

/-- `db.find<T>(id.val)`: the object with that id, or a null pointer. Loading an
object loads what its plain pointers refer to; a lazy pointer gets an id. -/
class Persistent (ι : Type) (T : outParam Type) where
  load : Tables → ι → Except Exc (Option T)

instance : Persistent RoleID Role where
  load t id := .ok ((t.roles.find id.val).map fun perms => ⟨id.val, perms⟩)

def loadRole (t : Tables) (name : Str) : Except Exc Role :=
  match t.roles.find name with
  | some perms => .ok ⟨name, perms⟩
  | none => .error .objectNotPersistent

def loadUser (t : Tables) (id : Str) (roles : List Str) : Except Exc User :=
  (roles.mapM (loadRole t)).map fun roles => ⟨id, roles⟩

instance : Persistent UserID User where
  load t id :=
    match t.users.find id.val with
    | some roles => (loadUser t id.val roles).map some
    | none => .ok none

instance : Persistent TaskID Task where
  load t id := .ok ((t.tasks.find id.val).map fun row =>
    ⟨id.val, row.name, ⟨row.project⟩, row.worker.map WorkerID.mk⟩)

/-- An inverse container: the tasks whose foreign key satisfies `refers`. -/
def inverseTasks (t : Tables) (refers : TaskRow → Bool) : List TaskID :=
  (t.tasks.rows.filter fun row => refers row.2).map fun row => ⟨row.1⟩

instance : Persistent ProjectID Project where
  load t id := .ok ((t.projects.find id.val).map fun name =>
    ⟨id.val, name, inverseTasks t fun task => task.project = id.val⟩)

instance : Persistent WorkerID Worker where
  load t id := .ok ((t.workers.find id.val).map fun name =>
    ⟨id.val, name, inverseTasks t fun task => task.worker = some id.val⟩)

section

variable {ι T : Type} [Persistent ι T]

def findProgram (id : ι) : TxProgram (Option T) := fun t =>
  (Persistent.load t id).map fun found => (found, t)

def findValue (id : ι) : App (Option T) := access (findProgram id)

def findShared (id : ι) : App (Option T) := access (findProgram id)

def loadProgram (id : ι) : TxProgram T := fun t =>
  match Persistent.load t id with
  | .ok (some found) => .ok (found, t)
  | .ok none => .error .objectNotPersistent
  | .error e => .error e

/-- `load` of a lazy pointer, which must not dangle. -/
def load (id : ι) : App T := access (loadProgram id)

end

/-- `persist` of a class whose id is assigned by the database. -/
class AutoId (T : Type) (ι : outParam Type) where
  insert : T → Tables → ι × Tables

instance : AutoId Project ProjectID where
  insert project t :=
    (⟨t.projects.nextKey⟩, { t with projects := t.projects.push project.name })

instance : AutoId Worker WorkerID where
  insert worker t :=
    (⟨t.workers.nextKey⟩, { t with workers := t.workers.push worker.name })

instance : AutoId Task TaskID where
  insert task t :=
    (⟨t.tasks.nextKey⟩,
      { t with
        tasks := t.tasks.push ⟨task.name, task.project.val, task.worker.map WorkerID.val⟩ })

def persist {T ι : Type} [AutoId T ι] (object : T) : App ι :=
  access fun t => .ok (AutoId.insert object t)

/-- `persist` of a class that brings its own id; there is no row to insert
where the id is taken. -/
class OwnId (T : Type) (ι : outParam Type) where
  insert : T → Tables → Option (ι × Tables)

instance : OwnId Role RoleID where
  insert role t :=
    if fresh : t.roles.find role.name = none then
      some (⟨role.name⟩, { t with roles := t.roles.insert role.name role.perms fresh })
    else none

instance : OwnId User UserID where
  insert user t :=
    if fresh : t.users.find user.id = none then
      some (⟨user.id⟩,
        { t with users := t.users.insert user.id (user.roles.map Role.name) fresh })
    else none

/-- `object_already_persistent` is caught and becomes an empty option. -/
def persistOwn {T ι : Type} [OwnId T ι] (object : T) : App (Option ι) :=
  access fun t =>
    match OwnId.insert object t with
    | some (id, t') => .ok (some id, t')
    | none => .ok (none, t)

def updateProgram (task : Task) : TxProgram Unit := fun t =>
  match t.tasks.find task.id with
  | some _ =>
      .ok ((), { t with
        tasks := t.tasks.set task.id
          ⟨task.name, task.project.val, task.worker.map WorkerID.val⟩ })
  | none => .error .objectNotPersistent

/-- `update` writes every column of the row. -/
def update (task : Task) : App Unit := access (updateProgram task)

/-- The row is gone, and `on_delete(cascade)` takes its tasks with it. -/
def Tables.eraseProject (t : Tables) (id : Int) : Tables :=
  { t with
    projects := t.projects.erase id
    tasks := t.tasks.restrict fun _ task => task.project ≠ id }

def eraseProgram (id : ProjectID) : TxProgram Unit := fun t =>
  match t.projects.find id.val with
  | some _ => .ok ((), Tables.eraseProject t id.val)
  | none => .error .objectNotPersistent

def erase (id : ProjectID) : App Unit := access (eraseProgram id)

/-- A row of the view, joined from the left along the foreign keys of the task;
a null in a column that is not nullable loads as zero or the empty string. -/
def taskDetails (t : Tables) (id : Int) (task : TaskRow) : TaskDetails where
  name := task.name
  id := id
  projectName := (t.projects.find task.project).getD []
  projectId := ((t.projects.find task.project).map fun _ => task.project).getD 0
  workerName := task.worker.bind t.workers.find
  workerId := task.worker.bind fun worker => (t.workers.find worker).map fun _ => worker

def queryTaskDetails (id : TaskID) : App (List TaskDetails) :=
  access fun t =>
    .ok ((t.tasks.rows.filter fun row => row.1 = id.val).map fun row =>
      taskDetails t row.1 row.2, t)

/-- `collect<T>()`: every row, oldest first. -/
class Collectable (T : Type) where
  rows : Tables → Except Exc (List T)

instance : Collectable ProjectNameID where
  rows t := .ok (t.projects.rows.map fun row => ⟨row.2, row.1⟩)

instance : Collectable WorkerNameID where
  rows t := .ok (t.workers.rows.map fun row => ⟨row.2, row.1⟩)

instance : Collectable Role where
  rows t := .ok (t.roles.rows.map fun row => ⟨row.1, row.2⟩)

instance : Collectable User where
  rows t := t.users.rows.mapM fun row => loadUser t row.1 row.2

def collectProgram (T : Type) [Collectable T] : TxProgram (List T) := fun t =>
  (Collectable.rows t).map fun rows => (rows, t)

def collect (T : Type) [Collectable T] : App (List T) := access (collectProgram T)

end MvcBackend.Database
