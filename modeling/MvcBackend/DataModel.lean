import Mathlib.Data.Finset.Lattice.Lemmas
import MvcBackend.JsonValues
import MvcBackend.Library.KeyedTable

/-!
The persistent classes, the tables that ODB maps them to, and the foreign keys
between these tables. An object in memory carries the objects and the lazy
pointers it is loaded with; a row carries only columns.
-/

namespace MvcBackend.DataModel

open MvcBackend.JsonValues
open MvcBackend.Library.KeyedTable

inductive Perm where
  | administrate
  | createProject
  | viewProject
  | modifyProject
  | deleteProject
  | viewRole
  | createTask
  | assignTask
  | createWorker
  | viewWorker
  | viewTask
  deriving DecidableEq

namespace Perm

def all : List Perm :=
  [administrate, createProject, viewProject, modifyProject, deleteProject, viewRole,
    createTask, assignTask, createWorker, viewWorker, viewTask]

def value (p : Perm) : Nat := all.idxOf p

end Perm

structure ProjectID where
  val : Int
  deriving DecidableEq

structure TaskID where
  val : Int
  deriving DecidableEq

structure WorkerID where
  val : Int
  deriving DecidableEq

structure UserID where
  val : Str
  deriving DecidableEq

@[ext] structure RoleID where
  val : Str
  deriving DecidableEq

structure Role where
  name : Str
  perms : Finset Perm

/-- A user with its roles, which are loaded with it. -/
structure User where
  id : Str
  roles : List Role

/-- A task; the lazy pointers to its project and its worker hold their ids. -/
structure Task where
  id : Int
  name : Str
  project : ProjectID
  worker : Option WorkerID

/-- A project; the inverse container holds lazy pointers to its tasks. -/
structure Project where
  id : Int
  name : Str
  tasks : List TaskID

structure Worker where
  id : Int
  name : Str
  tasks : List TaskID

structure ProjectNameID where
  name : Str
  id : Int

structure WorkerNameID where
  name : Str
  id : Int

structure TaskDetails where
  name : Str
  id : Int
  projectName : Str
  projectId : Int
  workerName : Option Str
  workerId : Option Int

/-- The columns of a task besides its id. -/
structure TaskRow where
  name : Str
  project : Int
  worker : Option Int
  deriving DecidableEq

/-- The tables; roles and users come with their container tables. Ids are counted
without a bound; the `int` of the source holds them while fewer than 2^31 rows have
been added. -/
@[ext] structure Tables where
  roles : Table Str (Finset Perm)
  users : Table Str (List Str)
  projects : SequencedTable Str
  workers : SequencedTable Str
  tasks : SequencedTable TaskRow
  deriving DecidableEq

def Tables.empty : Tables where
  roles := .empty
  users := .empty
  projects := .empty
  workers := .empty
  tasks := .empty

/-- The foreign keys of the schema, which SQLite checks at commit. -/
structure ForeignKeys (t : Tables) : Prop where
  role : ∀ row ∈ t.users.rows, ∀ name ∈ row.2, (t.roles.find name).isSome
  project : ∀ row ∈ t.tasks.rows, (t.projects.find row.2.project).isSome
  worker : ∀ row ∈ t.tasks.rows, ∀ id ∈ row.2.worker, (t.workers.find id).isSome

instance : DecidablePred ForeignKeys := fun t =>
  decidable_of_iff
    ((∀ row ∈ t.users.rows, ∀ name ∈ row.2, (t.roles.find name).isSome) ∧
      (∀ row ∈ t.tasks.rows, (t.projects.find row.2.project).isSome) ∧
      ∀ row ∈ t.tasks.rows, ∀ id ∈ row.2.worker, (t.workers.find id).isSome)
    ⟨fun ⟨h₁, h₂, h₃⟩ => ⟨h₁, h₂, h₃⟩, fun ⟨h₁, h₂, h₃⟩ => ⟨h₁, h₂, h₃⟩⟩

namespace ForeignKeys

variable {t : Tables}

theorem isSome_role (h : ForeignKeys t) {user name : Str} {roles : List Str}
    (huser : t.users.find user = some roles) (hname : name ∈ roles) :
    (t.roles.find name).isSome :=
  h.role (user, roles) ((t.users.mem_rows_iff _ _).mpr huser) name hname

theorem isSome_project (h : ForeignKeys t) {id : Int} {task : TaskRow}
    (htask : t.tasks.find id = some task) : (t.projects.find task.project).isSome :=
  h.project (id, task) ((t.tasks.mem_rows_iff _ _).mpr htask)

theorem isSome_worker (h : ForeignKeys t) {id worker : Int} {task : TaskRow}
    (htask : t.tasks.find id = some task) (hworker : task.worker = some worker) :
    (t.workers.find worker).isSome :=
  h.worker (id, task) ((t.tasks.mem_rows_iff _ _).mpr htask) worker hworker

theorem exists_role (h : ForeignKeys t) {user name : Str} {roles : List Str}
    (huser : t.users.find user = some roles) (hname : name ∈ roles) :
    ∃ perms, t.roles.find name = some perms :=
  Option.isSome_iff_exists.mp (h.isSome_role huser hname)

theorem exists_project (h : ForeignKeys t) {id : Int} {task : TaskRow}
    (htask : t.tasks.find id = some task) : ∃ name, t.projects.find task.project = some name :=
  Option.isSome_iff_exists.mp (h.isSome_project htask)

theorem exists_worker (h : ForeignKeys t) {id worker : Int} {task : TaskRow}
    (htask : t.tasks.find id = some task) (hworker : task.worker = some worker) :
    ∃ name, t.workers.find worker = some name :=
  Option.isSome_iff_exists.mp (h.isSome_worker htask hworker)

theorem of_find
    (role : ∀ user roles, t.users.find user = some roles →
      ∀ name ∈ roles, (t.roles.find name).isSome)
    (project : ∀ id task, t.tasks.find id = some task → (t.projects.find task.project).isSome)
    (worker : ∀ id task, t.tasks.find id = some task →
      ∀ w, task.worker = some w → (t.workers.find w).isSome) : ForeignKeys t where
  role row hrow := role row.1 row.2 ((t.users.mem_rows_iff _ _).mp hrow)
  project row hrow := project row.1 row.2 ((t.tasks.mem_rows_iff _ _).mp hrow)
  worker row hrow := worker row.1 row.2 ((t.tasks.mem_rows_iff _ _).mp hrow)

end ForeignKeys

theorem foreignKeys_empty : ForeignKeys Tables.empty := by decide

end MvcBackend.DataModel
