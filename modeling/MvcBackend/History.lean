import MvcBackend.Library.EventLog
import MvcBackend.RouterRefinement

/-!
The history of a database, as it can be read off the requests and their
answers, and the law that the tables hold nothing but what it tells.
-/

namespace MvcBackend.History

open MvcBackend.JsonValues
open MvcBackend.DataModel
open MvcBackend.Database
open MvcBackend.Authentication
open MvcBackend.ApiParse
open MvcBackend.Endpoints
open MvcBackend.EndpointSteps
open MvcBackend.ApiRouter
open MvcBackend.RouterRefinement
open MvcBackend.Library.EventLog
open MvcBackend.Library.KeyedTable
open MvcBackend.Library.Transaction

inductive Change where
  | addProject (id : Int) (name : Str)
  | addWorker (id : Int) (name : Str)
  | addTask (id : Int) (name : Str) (project : Int)
  | assignTask (task worker : Int)
  | unassignTask (task : Int)
  | delProject (id : Int)

/-- The change that this payload and this output of an endpoint tell of. -/
def change (payload : Json) : IEndpoint → Json → Option Change
  | .addProject, .numberInteger id => do
      let name ← (stringField payload "name").toOption
      return .addProject id name
  | .addWorker, .numberInteger id => do
      let name ← (stringField payload "name").toOption
      return .addWorker id name
  | .addTask, .numberInteger id => do
      let name ← (stringField payload "name").toOption
      let project ← (intField payload "project_id").toOption
      return .addTask id name project
  | .assignTask, _ => do
      let task ← (intField payload "task_id").toOption
      let worker ← (intField payload "worker_id").toOption
      return .assignTask task worker
  | .unassignTask, _ => do
      let task ← (intField payload "task_id").toOption
      return .unassignTask task
  | .delProject, _ => do
      let id ← (intField payload "id").toOption
      return .delProject id
  | _, _ => none

/-- A request to the router, with the faults that the database has meanwhile. -/
structure RoutedRequest where
  path : ApiPath
  input : EndpointInput
  faults : List (Option Str)

abbrev Outcome := Except Exc (Option EndpointOutput)

def serve (db : Db) (req : RoutedRequest) : Outcome × Db :=
  match route req.path req.input (World.idle db req.faults) with
  | .ok out w => (.ok out, w.store)
  | .error e w => (.error e, w.store)

def changeOf (req : RoutedRequest) : Outcome → Option Change
  | .ok (some out) =>
      match apiParse req.path with
      | .ok (some (.object e)) => change req.input.payload e out.payload
      | _ => none
  | _ => none

structure Past where
  db : Db
  history : List Change

def Past.next (past : Past) (req : RoutedRequest) : Past :=
  let (outcome, db) := serve past.db req
  ⟨db, past.history ++ (changeOf req outcome).toList⟩

def serveAll (requests : List RoutedRequest) : Past :=
  requests.foldl Past.next ⟨Db.empty, []⟩

/-- A successful request that decides the worker of a task. -/
def Reassigns (task : Int) (c : Change) : Prop :=
  c = .unassignTask task ∨ ∃ worker, c = .assignTask task worker

inductive Kind where
  | project
  | worker
  | task
  deriving DecidableEq

def Change.created : Change → Option (Kind × Int)
  | .addProject id _ => some (.project, id)
  | .addWorker id _ => some (.worker, id)
  | .addTask id _ _ => some (.task, id)
  | _ => none

/-- The tables hold what the history tells, and no id was given out twice, as ids
go on without a bound. -/
structure HistoryLaw (history : List Change) (t : Tables) : Prop where
  project : ∀ id name, t.projects.find id = some name ↔
    Since (· = .addProject id name) (· = .delProject id) history
  worker : ∀ id name, t.workers.find id = some name ↔ .addWorker id name ∈ history
  task : ∀ id name project, (∃ worker, t.tasks.find id = some ⟨name, project, worker⟩) ↔
    Since (· = .addTask id name project) (· = .delProject project) history
  assigned : ∀ id task worker, t.tasks.find id = some task →
    (task.worker = some worker ↔ Since (· = .assignTask id worker) (Reassigns id) history)
  unassigned : ∀ id task, t.tasks.find id = some task →
    (task.worker = none ↔
      (∀ c ∈ history, ¬ Reassigns id c) ∨ Since (· = .unassignTask id) (Reassigns id) history)
  fresh : (history.filterMap Change.created).Nodup

inductive Applies (t : Tables) : Change → Tables → Prop where
  | addProject (name : Str) : Applies t (.addProject t.projects.nextKey name)
      { t with projects := t.projects.push name }
  | addWorker (name : Str) : Applies t (.addWorker t.workers.nextKey name)
      { t with workers := t.workers.push name }
  | addTask (name : Str) (project : Int) : Applies t (.addTask t.tasks.nextKey name project)
      { t with tasks := t.tasks.push ⟨name, project, none⟩ }
  | assignTask {id : Int} {task : TaskRow} (htask : t.tasks.find id = some task) (worker : Int) :
      Applies t (.assignTask id worker) (setWorker t id task (some worker))
  | unassignTask {id : Int} {task : TaskRow} (htask : t.tasks.find id = some task) :
      Applies t (.unassignTask id) (setWorker t id task none)
  | delProject (id : Int) : Applies t (.delProject id) (Tables.eraseProject t id)

theorem change_of_commits {e : IEndpoint} {payload j : Json} {t t' : Tables}
    (h : Commits payload t e j t') : ∃ c, change payload e j = some c ∧ Applies t c t' := by
  cases h with
  | addProject hname => exact ⟨_, by simp [change, hname, Except.toOption], .addProject _⟩
  | addWorker hname => exact ⟨_, by simp [change, hname, Except.toOption], .addWorker _⟩
  | addTask hname hid hproject =>
      exact ⟨_, by simp [change, hname, hid, Except.toOption], .addTask _ _⟩
  | assignTask hid hworkerId htask hworker =>
      exact ⟨_, by simp [change, hid, hworkerId, Except.toOption], .assignTask htask _⟩
  | unassignTask hid htask =>
      exact ⟨_, by simp [change, hid, Except.toOption], .unassignTask htask⟩
  | delProject hid hproject =>
      exact ⟨_, by simp [change, hid, Except.toOption], .delProject _⟩

theorem change_of_read {e : IEndpoint} (he : e ∉ writers) (payload j : Json) :
    change payload e j = none := by
  cases e <;> first | rfl | simp [writers] at he

/-- A request makes the change that its answer tells of, or none. -/
theorem serve_cases (db : Db) (req : RoutedRequest) :
    ((serve db req).2 = db ∧ changeOf req (serve db req).1 = none) ∨
      ∃ c, changeOf req (serve db req).1 = some c ∧ Applies db.val c (serve db req).2.val := by
  have hatomic := route_atomic req.path req.input
  rw [serve]
  rcases hrun : route req.path req.input (World.idle db req.faults) with ⟨out, w⟩ | ⟨e, w⟩
  · obtain ⟨-, o, hroute, hsettled⟩ := hatomic.of_ok rfl hrun
    obtain ⟨e, hmatched, -, hstep⟩ := routeStep_eq_ok hroute
    have hparse := matchedEndpoint_iff.mp hmatched
    rcases step_cases hstep with ⟨j, t', rfl, rfl, hcommits⟩ | ⟨rfl, hnone⟩
    · obtain ⟨c, hc, happlies⟩ := change_of_commits hcommits
      refine .inr ⟨c, by simp [changeOf, hparse, hc], ?_⟩
      simp only [hsettled.1]
      exact happlies
    · refine .inl ⟨hsettled.store, ?_⟩
      by_cases he : e ∈ writers
      · rw [hnone he]
        rfl
      · rcases out with _ | out
        · rfl
        · simp [changeOf, hparse, change_of_read he]
  · obtain ⟨-, hsame, -⟩ := hatomic.of_error rfl hrun
    exact .inl ⟨hsame.store, rfl⟩

def nextId (t : Tables) : Kind → Int
  | .project => t.projects.nextKey
  | .worker => t.workers.nextKey
  | .task => t.tasks.nextKey

/-- What the law needs to be kept: ids that were given out stay behind the counters. -/
structure Tracks (history : List Change) (t : Tables) : Prop where
  project : ∀ id name, t.projects.find id = some name ↔
    Since (· = .addProject id name) (· = .delProject id) history
  worker : ∀ id name, t.workers.find id = some name ↔ .addWorker id name ∈ history
  task : ∀ id name project, (∃ worker, t.tasks.find id = some ⟨name, project, worker⟩) ↔
    Since (· = .addTask id name project) (· = .delProject project) history
  assigned : ∀ id task worker, t.tasks.find id = some task →
    (task.worker = some worker ↔ Since (· = .assignTask id worker) (Reassigns id) history)
  fresh : (history.filterMap Change.created).Nodup
  created : ∀ kind id, (kind, id) ∈ history.filterMap Change.created → id < nextId t kind
  reassigned : ∀ c ∈ history, ∀ id, Reassigns id c → id < t.tasks.nextKey

section Step

variable {history : List Change} {t t' : Tables} {c : Change}

theorem tracks_empty : Tracks [] Tables.empty := by
  constructor <;> simp [Tables.empty]

theorem Tracks.project_step (h : Tracks history t) (happlies : Applies t c t') (id : Int)
    (name : Str) : t'.projects.find id = some name ↔
      Since (· = .addProject id name) (· = .delProject id) (history ++ [c]) := by
  rw [since_append_singleton, ← h.project]
  cases happlies with
  | addProject name' =>
      by_cases hid : id = t.projects.nextKey
      · subst hid
        simp [SequencedTable.find_push, SequencedTable.find_nextKey]
      · simp [SequencedTable.find_push, hid, Ne.symm hid]
  | delProject id' =>
      by_cases hid : id = id'
      · simp [Tables.eraseProject, SequencedTable.find_erase, hid]
      · simp [Tables.eraseProject, SequencedTable.find_erase, hid, Ne.symm hid]
  | addWorker | addTask | assignTask | unassignTask => simp [setWorker]

theorem Tracks.worker_step (h : Tracks history t) (happlies : Applies t c t') (id : Int)
    (name : Str) : t'.workers.find id = some name ↔ .addWorker id name ∈ history ++ [c] := by
  rw [List.mem_append, ← h.worker]
  cases happlies with
  | addWorker name' =>
      by_cases hid : id = t.workers.nextKey
      · subst hid
        simp [SequencedTable.find_push, SequencedTable.find_nextKey, eq_comm]
      · simp [SequencedTable.find_push, hid]
  | addProject | addTask | assignTask | unassignTask | delProject =>
      simp [setWorker, Tables.eraseProject]

theorem setWorker_columns {id : Int} {task : TaskRow} (htask : t.tasks.find id = some task)
    (worker : Option Int) (id' : Int) (name : Str) (project : Int) :
    (∃ w, (setWorker t id task worker).tasks.find id' = some ⟨name, project, w⟩) ↔
      ∃ w, t.tasks.find id' = some ⟨name, project, w⟩ := by
  obtain ⟨name₀, project₀, worker₀⟩ := task
  by_cases hid : id' = id
  · subst hid
    simp [setWorker, SequencedTable.find_set, htask]
  · simp [setWorker, SequencedTable.find_set, hid]

theorem Tracks.task_step (h : Tracks history t) (happlies : Applies t c t') (id : Int)
    (name : Str) (project : Int) :
    (∃ worker, t'.tasks.find id = some ⟨name, project, worker⟩) ↔
      Since (· = .addTask id name project) (· = .delProject project) (history ++ [c]) := by
  rw [since_append_singleton, ← h.task]
  cases happlies with
  | addTask name' project' =>
      by_cases hid : id = t.tasks.nextKey
      · subst hid
        simp [SequencedTable.find_push, SequencedTable.find_nextKey]
      · simp [SequencedTable.find_push, hid, Ne.symm hid]
  | delProject project' =>
      by_cases hproject : project = project'
      · simp [Tables.eraseProject, SequencedTable.find_restrict, Option.filter_eq_some_iff, hproject]
      · simp [Tables.eraseProject, SequencedTable.find_restrict, Option.filter_eq_some_iff, hproject,
          Ne.symm hproject]
  | assignTask htask worker => simp [setWorker_columns htask]
  | unassignTask htask => simp [setWorker_columns htask]
  | addProject | addWorker => simp

theorem reassigns_iff {c : Change} {id : Int} : Reassigns id c ↔
    match c with
    | .assignTask task _ => task = id
    | .unassignTask task => task = id
    | _ => False := by
  cases c <;> simp [Reassigns]

/-- Setting the worker of a task is what the last change says of it. -/
theorem Tracks.setWorker_step (h : Tracks history t) {id : Int} {task : TaskRow}
    (htask : t.tasks.find id = some task) (worker : Option Int) {id' : Int} {task' : TaskRow}
    (htask' : (setWorker t id task worker).tasks.find id' = some task') (w : Int) :
    task'.worker = some w ↔
      (id' = id ∧ worker = some w) ∨
        (Since (· = .assignTask id' w) (Reassigns id') history ∧ id' ≠ id) := by
  by_cases hid : id' = id
  · subst hid
    obtain rfl : { task with worker } = task' := by
      simpa [setWorker, SequencedTable.find_set, htask] using htask'
    simp
  · have hold : t.tasks.find id' = some task' := by
      simpa [setWorker, SequencedTable.find_set, hid] using htask'
    simp [hid, h.assigned id' task' w hold]

theorem Tracks.assigned_step (h : Tracks history t) (happlies : Applies t c t') (id : Int)
    (task : TaskRow) (worker : Int) (htask : t'.tasks.find id = some task) :
    task.worker = some worker ↔
      Since (· = .assignTask id worker) (Reassigns id) (history ++ [c]) := by
  rw [since_append_singleton]
  cases happlies with
  | addTask name' project' =>
      rw [SequencedTable.find_push] at htask
      split at htask
      · next hid =>
          obtain rfl : TaskRow.mk name' project' none = task := by simpa using htask
          have hold : ¬ Since (· = .assignTask id worker) (Reassigns id) history := by
            intro hsince
            obtain ⟨c, hmem, rfl⟩ := hsince.exists_mem
            have := h.reassigned _ hmem id (.inr ⟨worker, rfl⟩)
            omega
          simp [hold]
      · simp [h.assigned id task worker htask, Reassigns]
  | delProject project' =>
      have hold : t.tasks.find id = some task := by
        simp only [Tables.eraseProject, SequencedTable.find_restrict,
          Option.filter_eq_some_iff] at htask
        exact htask.1
      simp [h.assigned id task worker hold, Reassigns]
  | @assignTask id' task' htask' worker' =>
      rw [h.setWorker_step htask' _ htask]
      simp [reassigns_iff, eq_comm]
  | @unassignTask id' task' htask' =>
      rw [h.setWorker_step htask' _ htask]
      simp [reassigns_iff, eq_comm]
  | addProject | addWorker => simp [h.assigned id task worker htask, Reassigns]

theorem Applies.nextId_le (h : Applies t c t') (kind : Kind) : nextId t kind ≤ nextId t' kind := by
  cases h <;> cases kind <;> simp [nextId, setWorker, Tables.eraseProject]

/-- An addition returns the next id and moves the counter on. -/
theorem Applies.created (h : Applies t c t') {kind : Kind} {id : Int}
    (hcreated : c.created = some (kind, id)) : id = nextId t kind ∧ id < nextId t' kind := by
  cases h with
  | addProject | addWorker | addTask =>
      cases hcreated
      simp [nextId]
  | assignTask | unassignTask | delProject => cases hcreated

theorem Applies.reassigned (h : Applies t c t') {id : Int} (hc : Reassigns id c) :
    id < t.tasks.nextKey := by
  cases h with
  | @assignTask id' task htask worker =>
      obtain rfl : id' = id := reassigns_iff.mp hc
      exact t.tasks.key_lt_nextKey htask
  | @unassignTask id' task htask =>
      obtain rfl : id' = id := reassigns_iff.mp hc
      exact t.tasks.key_lt_nextKey htask
  | addProject | addWorker | addTask | delProject => exact (reassigns_iff.mp hc).elim

theorem mem_created_concat {kind : Kind} {id : Int} :
    (kind, id) ∈ (history ++ [c]).filterMap Change.created ↔
      (kind, id) ∈ history.filterMap Change.created ∨ c.created = some (kind, id) := by
  simp only [List.mem_filterMap, List.mem_append, List.mem_singleton, or_and_right, exists_or]
  simp

theorem Tracks.fresh_step (h : Tracks history t) (happlies : Applies t c t') :
    ((history ++ [c]).filterMap Change.created).Nodup := by
  rw [List.filterMap_append]
  cases hcreated : c.created with
  | none => simpa [hcreated] using h.fresh
  | some key =>
      obtain ⟨kind, id⟩ := key
      have hnew : (kind, id) ∉ history.filterMap Change.created := by
        intro hmem
        have hold := h.created kind id hmem
        have hid := (happlies.created hcreated).1
        omega
      have htail : [c].filterMap Change.created = [(kind, id)] := by simp [hcreated]
      rw [htail, List.nodup_append]
      refine ⟨h.fresh, by simp, ?_⟩
      rintro key hkey _ hlast rfl
      obtain rfl : key = (kind, id) := by simpa using hlast
      exact hnew hkey

theorem Tracks.next (h : Tracks history t) (happlies : Applies t c t') :
    Tracks (history ++ [c]) t' where
  project := h.project_step happlies
  worker := h.worker_step happlies
  task := h.task_step happlies
  assigned := h.assigned_step happlies
  fresh := h.fresh_step happlies
  created kind id hmem := by
    rcases mem_created_concat.mp hmem with hold | hnew
    · exact (h.created kind id hold).trans_le (happlies.nextId_le kind)
    · exact (happlies.created hnew).2
  reassigned c' hmem id hc' := by
    have hle := happlies.nextId_le .task
    rcases List.mem_append.mp hmem with hold | hnew
    · exact (h.reassigned c' hold id hc').trans_le hle
    · obtain rfl : c' = c := by simpa using hnew
      exact (happlies.reassigned hc').trans_le hle

/-- A task without a worker never had one, or lost it last. -/
theorem Tracks.unassigned (h : Tracks history t) {id : Int} {task : TaskRow}
    (htask : t.tasks.find id = some task) :
    task.worker = none ↔
      (∀ c ∈ history, ¬ Reassigns id c) ∨ Since (· = .unassignTask id) (Reassigns id) history := by
  constructor
  · intro hworker
    rcases last_cases (Reassigns id) history with hnone | ⟨c, rfl | ⟨worker, rfl⟩, hlast⟩
    · exact .inl hnone
    · exact .inr hlast
    · have hassigned := (h.assigned id task worker htask).mpr hlast
      simp [hworker] at hassigned
  · intro hlast
    cases hworker : task.worker with
    | none => rfl
    | some worker =>
        have hassigned := (h.assigned id task worker htask).mp hworker
        rcases hlast with hnone | hlast
        · obtain ⟨c, hmem, rfl⟩ := hassigned.exists_mem
          exact absurd (.inr ⟨worker, rfl⟩) (hnone _ hmem)
        · cases hassigned.unique hlast (.inr ⟨worker, rfl⟩) (.inl rfl)

end Step

theorem Tracks.serve {past : Past} (h : Tracks past.history past.db.val) (req : RoutedRequest) :
    Tracks (past.next req).history (past.next req).db.val := by
  simp only [Past.next]
  rcases serve_cases past.db req with ⟨hdb, hchange⟩ | ⟨c, hchange, happlies⟩
  · simpa [hdb, hchange] using h
  · simpa [hchange] using h.next happlies

theorem tracks_serveAll (requests : List RoutedRequest) :
    Tracks (serveAll requests).history (serveAll requests).db.val := by
  induction requests using List.reverseRecOn with
  | nil => exact tracks_empty
  | append_singleton requests req ih =>
      have hnext : serveAll (requests ++ [req]) = (serveAll requests).next req := by
        simp [serveAll]
      rw [hnext]
      exact ih.serve req

/-- Whatever was requested and whatever failed, the tables hold what the
requests that succeeded tell. -/
theorem history_law (requests : List RoutedRequest) :
    HistoryLaw (serveAll requests).history (serveAll requests).db.val where
  project := (tracks_serveAll requests).project
  worker := (tracks_serveAll requests).worker
  task := (tracks_serveAll requests).task
  assigned := (tracks_serveAll requests).assigned
  unassigned _ _ := (tracks_serveAll requests).unassigned
  fresh := (tracks_serveAll requests).fresh

end MvcBackend.History
