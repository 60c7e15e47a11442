import MvcBackend.System

/-!
A task is shown by `get_task`, which joins tables in a view, and by
`get_project` and `get_worker`, which walk the object graph. The three agree.
-/

namespace MvcBackend.TaskViews

open MvcBackend.JsonValues
open MvcBackend.DataModel
open MvcBackend.Database
open MvcBackend.JsonOutput
open MvcBackend.Authentication
open MvcBackend.Endpoints
open MvcBackend.EndpointSteps
open MvcBackend.EndpointRefinement
open MvcBackend.HttpHandler
open MvcBackend.AuthenticatorRefinement
open MvcBackend.RouterRefinement
open MvcBackend.HandlerRefinement
open MvcBackend.System
open MvcBackend.Library.KeyedTable
open MvcBackend.Library.Transaction

def member (j : Json) : List String → Option Json
  | [] => some j
  | key :: keys => (j.atKey (str key)).toOption.bind fun m => member m keys

def idOf (j : Json) : Option Int :=
  match member j ["id"] with
  | some (.numberInteger id) => some id
  | _ => none

section Answers

variable (db : Db) (e : IEndpoint)

def Answers (j : Json) : Prop :=
  ∀ input, e.call input (World.idle db []) = .ok (some ⟨j⟩) (World.idle db [])

def AnswersNothing : Prop :=
  ∀ input, e.call input (World.idle db []) = .ok none (World.idle db [])

/-- The entries for task `t` in the answer of an owner of tasks. -/
def Entries (t : TaskID) (items : List Json) : Prop :=
  ∃ j all, Answers db e j ∧ member j ["tasks"] = some (.array all) ∧
    items = all.filter fun item => idOf item = some t.val

end Answers

/-- A task in the answer of an owner is the task that `get_task` answers. -/
structure SameTask (view item : Json) : Prop where
  id : member item ["id"] = member view ["id"]
  name : member item ["name"] = member view ["name"]
  project : member item ["project"] = member view ["project", "id"]
  worker : member item ["worker"] = some .null ∧ member view ["worker"] = some .null ∨
    ∃ w : Int, member item ["worker"] = some (.numberInteger w) ∧
      member view ["worker", "id"] = some (.numberInteger w)

/-- An owner is named the same by itself and in the list of all its kind. -/
def Named (db : Db) (owner list : IEndpoint) (id : Int) (name : Option Json) : Prop :=
  (∃ j, Answers db owner j ∧ member j ["name"] = name) ∧
    ∃ all entry, Answers db list (.array all) ∧
      (all.filter fun item => idOf item = some id) = [entry] ∧ member entry ["name"] = name

structure ViewsAgree (db : Db) : Prop where
  shown : ∀ (t : TaskID) (p : ProjectID) (w : WorkerID),
    ((∃ j, Answers db (.getTask t) j) ↔ (db.val.tasks.find t.val).isSome) ∧
      ((∃ j, Answers db (.getProject p) j) ↔ (db.val.projects.find p.val).isSome) ∧
      ((∃ j, Answers db (.getWorker w) j) ↔ (db.val.workers.find w.val).isSome)
  project : ∀ (t : TaskID) (p : ProjectID),
    (∃ j, Answers db (.getTask t) j ∧
      member j ["project", "id"] = some (.numberInteger p.val)) ↔
      ∃ item, Entries db (.getProject p) t [item]
  worker : ∀ (t : TaskID) (w : WorkerID),
    (∃ j, Answers db (.getTask t) j ∧
      member j ["worker", "id"] = some (.numberInteger w.val)) ↔
      ∃ item, Entries db (.getWorker w) t [item]
  noWorker : ∀ t j, Answers db (.getTask t) j →
    (member j ["worker"] = some .null ↔
      ∀ w items, Entries db (.getWorker w) t items → items = [])
  unknown : ∀ t, AnswersNothing db (.getTask t) →
    (∀ p items, Entries db (.getProject p) t items → items = []) ∧
      ∀ w items, Entries db (.getWorker w) t items → items = []
  sameInProject : ∀ t j p items, Answers db (.getTask t) j →
    Entries db (.getProject p) t items → ∀ item ∈ items, SameTask j item
  sameInWorker : ∀ t j w items, Answers db (.getTask t) j →
    Entries db (.getWorker w) t items → ∀ item ∈ items, SameTask j item
  projectName : ∀ t j p, Answers db (.getTask t) j →
    member j ["project", "id"] = some (.numberInteger p) →
    Named db (.getProject ⟨p⟩) .getProjects p (member j ["project", "name"])
  workerName : ∀ t j w, Answers db (.getTask t) j →
    member j ["worker", "id"] = some (.numberInteger w) →
    Named db (.getWorker ⟨w⟩) .getWorkers w (member j ["worker", "name"])
  pointers : ∀ t task, db.val.tasks.find t = some task →
    (db.val.projects.find task.project).isSome ∧
      ∀ w ∈ task.worker, (db.val.workers.find w).isSome
  total : ∀ t p w, ∀ e ∈ [IEndpoint.getTask t, .getProject p, .getWorker w],
    (∃ j, Answers db e j) ∨ AnswersNothing db e

variable {db : Db}

theorem call_read {e : IEndpoint} {found : Option EndpointOutput}
    (h : ∀ input, step e input db.val = .ok (found, none)) (input : EndpointInput) :
    e.call input (World.idle db []) = .ok found (World.idle db []) :=
  (call_atomic e input).run_read (h input)

theorem answers_iff {e : IEndpoint} {found : Option EndpointOutput}
    (h : ∀ input, step e input db.val = .ok (found, none)) (j : Json) :
    Answers db e j ↔ found = some ⟨j⟩ := by
  constructor
  · intro hanswers
    simpa [call_read h] using hanswers ⟨.null, none⟩
  · rintro rfl input
    exact call_read h input

theorem answersNothing_iff {e : IEndpoint} {found : Option EndpointOutput}
    (h : ∀ input, step e input db.val = .ok (found, none)) :
    AnswersNothing db e ↔ found = none := by
  constructor
  · intro hnothing
    simpa [call_read h] using hnothing ⟨.null, none⟩
  · rintro rfl input
    exact call_read h input

theorem answers_getTask_iff {t : TaskID} {j : Json} :
    Answers db (.getTask t) j ↔ ∃ task, db.val.tasks.find t.val = some task ∧
      taskDetailsToJson (taskDetails db.val t.val task) = j := by
  rw [answers_iff fun _ => rfl]
  simp

theorem answers_getProject_iff {p : ProjectID} {j : Json} :
    Answers db (.getProject p) j ↔ ∃ name, db.val.projects.find p.val = some name ∧
      projectView db.val p.val name = j := by
  rw [answers_iff fun _ => rfl]
  simp

theorem answers_getWorker_iff {w : WorkerID} {j : Json} :
    Answers db (.getWorker w) j ↔ ∃ name, db.val.workers.find w.val = some name ∧
      workerView db.val w.val name = j := by
  rw [answers_iff fun _ => rfl]
  simp

/-- There is an answer exactly where there is a row. -/
theorem exists_answer_iff {e : IEndpoint} {α : Type} {found : Option α} {view : α → Json}
    (hanswers : ∀ j, Answers db e j ↔ ∃ row, found = some row ∧ view row = j) :
    (∃ j, Answers db e j) ↔ found.isSome := by
  simp only [hanswers, Option.isSome_iff_exists]
  constructor
  · rintro ⟨j, row, hrow, -⟩
    exact ⟨row, hrow⟩
  · rintro ⟨row, hrow⟩
    exact ⟨view row, row, hrow, rfl⟩

theorem idOf_taskRowJson (row : Int × TaskRow) : idOf (taskRowJson row) = some row.1 := rfl

/-- An owner lists a task once if it refers to the owner, and never if it does not. -/
theorem tasksJson_filter (t : Tables) (refers : TaskRow → Bool) (id : Int) :
    ((tasksJson t refers).filter fun item => idOf item = some id) =
      (((t.tasks.find id).filter refers).map fun task => taskRowJson (id, task)).toList := by
  have hid : ((t.tasks.rows.filter fun row => refers row.2).filter fun row => row.1 = id) =
      (t.tasks.rows.filter fun row => row.1 = id).filter fun row => refers row.2 := by
    simp only [List.filter_filter, Bool.and_comm]
  rw [tasksJson, List.filter_map]
  simp only [Function.comp_def, idOf_taskRowJson, Option.some.injEq]
  rw [hid, t.tasks.filter_key]
  cases t.tasks.find id with
  | none => rfl
  | some task => cases h : refers task <;> simp [Option.filter, h]

/-- The entries of a task with an owner, which is in a table by its name. -/
theorem entries_iff {e : IEndpoint} {t : TaskID} {found : Option Str} {id : Int}
    {refers : TaskRow → Bool} {items : List Json}
    (hanswers : ∀ j, Answers db e j ↔ ∃ name, found = some name ∧
      ownerJson id name (tasksJson db.val refers) = j) :
    Entries db e t items ↔ (∃ name, found = some name) ∧
      items = (((db.val.tasks.find t.val).filter refers).map fun task =>
        taskRowJson (t.val, task)).toList := by
  rw [← tasksJson_filter]
  constructor
  · rintro ⟨j, all, hj, hall, rfl⟩
    obtain ⟨name, hname, rfl⟩ := (hanswers j).mp hj
    cases hall
    exact ⟨⟨name, hname⟩, rfl⟩
  · rintro ⟨⟨name, hname⟩, rfl⟩
    exact ⟨_, _, (hanswers _).mpr ⟨name, hname, rfl⟩, rfl, rfl⟩

theorem entries_getProject_iff {p : ProjectID} {t : TaskID} {items : List Json} :
    Entries db (.getProject p) t items ↔ (∃ name, db.val.projects.find p.val = some name) ∧
      items = (((db.val.tasks.find t.val).filter (·.project = p.val)).map fun task =>
        taskRowJson (t.val, task)).toList :=
  entries_iff fun _ => answers_getProject_iff

theorem entries_getWorker_iff {w : WorkerID} {t : TaskID} {items : List Json} :
    Entries db (.getWorker w) t items ↔ (∃ name, db.val.workers.find w.val = some name) ∧
      items = (((db.val.tasks.find t.val).filter (·.worker = some w.val)).map fun task =>
        taskRowJson (t.val, task)).toList :=
  entries_iff fun _ => answers_getWorker_iff

/-! ### What `get_task` reports -/

section Details

variable {t : Tables} {id : Int} {task : TaskRow}

theorem details_project (sound : ForeignKeys t) (htask : t.tasks.find id = some task) :
    member (taskDetailsToJson (taskDetails t id task)) ["project", "id"] =
        some (.numberInteger task.project) ∧
      ∃ name, t.projects.find task.project = some name ∧
        member (taskDetailsToJson (taskDetails t id task)) ["project", "name"] =
          some (.string name) := by
  obtain ⟨name, hname⟩ := sound.exists_project htask
  have hproject : (taskDetails t id task).projectId = task.project ∧
      (taskDetails t id task).projectName = name := by
    simp [taskDetails, hname]
  refine ⟨?_, name, hname, ?_⟩
  · rw [← hproject.1]
    rfl
  · rw [← hproject.2]
    rfl

theorem details_worker_none (hworker : task.worker = none) :
    member (taskDetailsToJson (taskDetails t id task)) ["worker"] = some .null ∧
      member (taskDetailsToJson (taskDetails t id task)) ["worker", "id"] = none := by
  have hnull : (taskDetails t id task).workerId = none := by
    simp [taskDetails, hworker]
  simp only [taskDetailsToJson, hnull]
  exact ⟨rfl, rfl⟩

theorem details_worker_some {worker : Int} {name : Str} (hworker : task.worker = some worker)
    (hname : t.workers.find worker = some name) :
    member (taskDetailsToJson (taskDetails t id task)) ["worker"] ≠ some .null ∧
      member (taskDetailsToJson (taskDetails t id task)) ["worker", "id"] =
        some (.numberInteger worker) ∧
      member (taskDetailsToJson (taskDetails t id task)) ["worker", "name"] =
        some (.string name) := by
  have hdetails : (taskDetails t id task).workerId = some worker ∧
      (taskDetails t id task).workerName = some name := by
    simp [taskDetails, hworker, hname]
  simp only [taskDetailsToJson, hdetails]
  refine ⟨?_, rfl, rfl⟩
  intro hnull
  cases hnull

/-- The worker that `get_task` reports is the foreign key. -/
theorem details_worker_iff (sound : ForeignKeys t) (htask : t.tasks.find id = some task)
    (worker : Int) :
    member (taskDetailsToJson (taskDetails t id task)) ["worker", "id"] =
      some (.numberInteger worker) ↔ task.worker = some worker := by
  cases hworker : task.worker with
  | none => simp [details_worker_none hworker]
  | some w =>
      obtain ⟨name, hname⟩ := sound.exists_worker htask hworker
      simp [details_worker_some hworker hname]

theorem sameTask (sound : ForeignKeys t) (htask : t.tasks.find id = some task) :
    SameTask (taskDetailsToJson (taskDetails t id task)) (taskRowJson (id, task)) where
  id := rfl
  name := rfl
  project := (details_project sound htask).1.symm
  worker := by
    cases hworker : task.worker with
    | none =>
        refine .inl ⟨?_, (details_worker_none hworker).1⟩
        simp only [taskRowJson, hworker]
        rfl
    | some w =>
        refine .inr ⟨w, ?_, (details_worker_iff sound htask w).mpr hworker⟩
        simp only [taskRowJson, hworker]
        rfl

end Details

theorem rows_filter_id (table : SequencedTable Str) {id : Int} {name : Str}
    (h : table.find id = some name) :
    ((table.rows.map fun row => nameIdJson row.2 row.1).filter fun item => idOf item = some id) =
      [nameIdJson name id] := by
  have hid : ∀ row : Int × Str, idOf (nameIdJson row.2 row.1) = some row.1 := fun _ => rfl
  rw [List.filter_map]
  simp only [Function.comp_def, hid, Option.some.injEq]
  rw [table.filter_key, h]
  rfl

theorem toList_eq_singleton_iff {α β : Type} (found : Option α) (keep : α → Bool) (f : α → β) :
    (∃ b, [b] = ((found.filter keep).map f).toList) ↔ ∃ a, found = some a ∧ keep a = true := by
  cases found with
  | none => simp
  | some a => cases h : keep a <;> simp [Option.filter, h]

theorem mem_toList_iff {α β : Type} {found : Option α} {keep : α → Bool} {f : α → β} {b : β} :
    b ∈ ((found.filter keep).map f).toList ↔ ∃ a, found = some a ∧ keep a = true ∧ f a = b := by
  cases found with
  | none => simp
  | some a =>
      cases h : keep a with
      | false => simp [Option.filter, h]
      | true => simpa [Option.filter, h] using eq_comm

section Views

variable {t : TaskID} {p : ProjectID} {w : WorkerID} {j : Json} {items : List Json}

theorem sound_db (db : Db) : ForeignKeys db.val := db.property

theorem project_iff :
    (∃ j, Answers db (.getTask t) j ∧
      member j ["project", "id"] = some (.numberInteger p.val)) ↔
      ∃ item, Entries db (.getProject p) t [item] := by
  simp only [entries_getProject_iff, exists_and_left, toList_eq_singleton_iff]
  constructor
  · rintro ⟨j, hanswers, hproject⟩
    obtain ⟨task, htask, rfl⟩ := answers_getTask_iff.mp hanswers
    obtain ⟨hid, name, hname, -⟩ := details_project (sound_db db) htask
    have hp : task.project = p.val := by simpa [hid] using hproject
    exact ⟨⟨name, hp ▸ hname⟩, task, htask, by simpa using hp⟩
  · rintro ⟨-, task, htask, hp⟩
    refine ⟨_, answers_getTask_iff.mpr ⟨task, htask, rfl⟩, ?_⟩
    rw [(details_project (sound_db db) htask).1, of_decide_eq_true hp]

theorem worker_iff :
    (∃ j, Answers db (.getTask t) j ∧
      member j ["worker", "id"] = some (.numberInteger w.val)) ↔
      ∃ item, Entries db (.getWorker w) t [item] := by
  simp only [entries_getWorker_iff, exists_and_left, toList_eq_singleton_iff]
  constructor
  · rintro ⟨j, hanswers, hworker⟩
    obtain ⟨task, htask, rfl⟩ := answers_getTask_iff.mp hanswers
    have hw := (details_worker_iff (sound_db db) htask w.val).mp hworker
    exact ⟨(sound_db db).exists_worker htask hw, task, htask, by simpa using hw⟩
  · rintro ⟨-, task, htask, hw⟩
    refine ⟨_, answers_getTask_iff.mpr ⟨task, htask, rfl⟩, ?_⟩
    exact (details_worker_iff (sound_db db) htask w.val).mpr (of_decide_eq_true hw)

theorem noWorker_iff (hanswers : Answers db (.getTask t) j) :
    member j ["worker"] = some .null ↔
      ∀ w items, Entries db (.getWorker w) t items → items = [] := by
  obtain ⟨task, htask, rfl⟩ := answers_getTask_iff.mp hanswers
  constructor
  · intro hnull w items hentries
    obtain ⟨-, rfl⟩ := entries_getWorker_iff.mp hentries
    cases hworker : task.worker with
    | none => simp [htask, Option.filter, hworker]
    | some worker =>
        obtain ⟨name, hname⟩ := (sound_db db).exists_worker htask hworker
        exact absurd hnull (details_worker_some hworker hname).1
  · intro hnone
    cases hworker : task.worker with
    | none => exact (details_worker_none hworker).1
    | some worker =>
        have hexists := (sound_db db).exists_worker htask hworker
        have hempty := hnone ⟨worker⟩ _ (entries_getWorker_iff.mpr ⟨hexists, rfl⟩)
        simp [htask, Option.filter, hworker] at hempty

theorem unknown_entries (hnothing : AnswersNothing db (.getTask t)) :
    (∀ p items, Entries db (.getProject p) t items → items = []) ∧
      ∀ w items, Entries db (.getWorker w) t items → items = [] := by
  have htask : db.val.tasks.find t.val = none := by
    simpa using (answersNothing_iff fun _ => rfl).mp hnothing
  constructor
  · intro p items hentries
    obtain ⟨-, rfl⟩ := entries_getProject_iff.mp hentries
    simp [htask]
  · intro w items hentries
    obtain ⟨-, rfl⟩ := entries_getWorker_iff.mp hentries
    simp [htask]

theorem sameTask_of_mem {refers : TaskRow → Bool} (hanswers : Answers db (.getTask t) j)
    {item : Json}
    (hitem : item ∈ (((db.val.tasks.find t.val).filter refers).map fun task =>
      taskRowJson (t.val, task)).toList) : SameTask j item := by
  obtain ⟨task, htask, rfl⟩ := answers_getTask_iff.mp hanswers
  obtain ⟨task', htask', -, rfl⟩ := mem_toList_iff.mp hitem
  obtain rfl : task = task' := by simpa [htask] using htask'
  exact sameTask (sound_db db) htask

theorem projectName_eq {p : Int} (hanswers : Answers db (.getTask t) j)
    (hproject : member j ["project", "id"] = some (.numberInteger p)) :
    Named db (.getProject ⟨p⟩) .getProjects p (member j ["project", "name"]) := by
  obtain ⟨task, htask, rfl⟩ := answers_getTask_iff.mp hanswers
  obtain ⟨hid, name, hname, hshown⟩ := details_project (sound_db db) htask
  have hp : task.project = p := by simpa [hid] using hproject
  subst hp
  rw [hshown]
  refine ⟨⟨_, answers_getProject_iff.mpr ⟨name, hname, rfl⟩, rfl⟩, ?_⟩
  exact ⟨_, _, call_read fun _ => rfl, rows_filter_id _ hname, rfl⟩

theorem workerName_eq {w : Int} (hanswers : Answers db (.getTask t) j)
    (hworker : member j ["worker", "id"] = some (.numberInteger w)) :
    Named db (.getWorker ⟨w⟩) .getWorkers w (member j ["worker", "name"]) := by
  obtain ⟨task, htask, rfl⟩ := answers_getTask_iff.mp hanswers
  have hw := (details_worker_iff (sound_db db) htask w).mp hworker
  obtain ⟨name, hname⟩ := (sound_db db).exists_worker htask hw
  rw [(details_worker_some hw hname).2.2]
  refine ⟨⟨_, answers_getWorker_iff.mpr ⟨name, hname, rfl⟩, rfl⟩, ?_⟩
  exact ⟨_, _, call_read fun _ => rfl, rows_filter_id _ hname, rfl⟩

end Views

theorem answers_or_nothing {e : IEndpoint} {found : Option EndpointOutput}
    (h : ∀ input, step e input db.val = .ok (found, none)) :
    (∃ j, Answers db e j) ∨ AnswersNothing db e := by
  cases found with
  | none => exact .inr (call_read h)
  | some out => exact .inl ⟨out.payload, call_read h⟩

/-- The views agree in every state of every run. -/
theorem views_agree (libraries : Libraries) (events : List Event) :
    ViewsAgree (run libraries events).db where
  shown _ _ _ := ⟨exists_answer_iff fun _ => answers_getTask_iff,
    exists_answer_iff fun _ => answers_getProject_iff,
    exists_answer_iff fun _ => answers_getWorker_iff⟩
  project _ _ := project_iff
  worker _ _ := worker_iff
  noWorker _ _ := noWorker_iff
  unknown _ := unknown_entries
  sameInProject t j p items hanswers hentries item hitem := by
    obtain ⟨-, rfl⟩ := entries_getProject_iff.mp hentries
    exact sameTask_of_mem hanswers hitem
  sameInWorker t j w items hanswers hentries item hitem := by
    obtain ⟨-, rfl⟩ := entries_getWorker_iff.mp hentries
    exact sameTask_of_mem hanswers hitem
  projectName _ _ _ := projectName_eq
  workerName _ _ _ := workerName_eq
  pointers t task htask := by
    refine ⟨?_, fun w hw => ?_⟩
    · exact (sound_db _).isSome_project htask
    · exact (sound_db _).isSome_worker htask hw
  total t p w e he := by
    simp only [List.mem_cons, List.not_mem_nil, or_false] at he
    rcases he with rfl | rfl | rfl <;> exact answers_or_nothing fun _ => rfl

/-- One payload for all four requests. -/
def assigningPayload : Json :=
  .object [(str "name", .string (str "a")), (str "project_id", .numberUnsigned 1),
    (str "task_id", .numberUnsigned 1), (str "worker_id", .numberUnsigned 1)]

def assigningLibraries : Libraries := ⟨trustingJwt, fun _ => .ok assigningPayload⟩

def administratorPost (path : String) : HttpRequest where
  method := str "POST"
  path := str path
  headers := [(str "Authorization", str "Bearer oath2|xxxx")]
  body := []

/-- A project, a worker and a task are added, and the task is assigned. -/
def assigningRun : List Event :=
  .start AuthConfig.readme [] ::
    ["/api/add_project", "/api/add_worker", "/api/add_task", "/api/assign_task"].map fun path =>
      .request (administratorPost path) []

def administrator : Actor := ⟨str "oath2|xxxx", {.administrate}⟩

theorem login_administrator (path : String) {t : Tables} (hroles : t.roles = readmeDb.val.roles)
    (husers : t.users = readmeDb.val.users) :
    actorStep AuthConfig.readme assigningLibraries (administratorPost path) t =
      .ok (some administrator) := by
  obtain ⟨roles, users, projects, workers, tasks⟩ := t
  obtain rfl : roles = _ := hroles
  obtain rfl : users = _ := husers
  rfl

theorem next_administratorPost (path name : String) {s : ServerState} {t t' : Tables}
    {e : IEndpoint} {j : Json} {response : HttpResponse}
    (hserver : s.server = some AuthConfig.readme) (ht : s.db.val = t)
    (hroles : t.roles = readmeDb.val.roles) (husers : t.users = readmeDb.val.users)
    (hpath : splitRequestPath (administratorPost path) = .ok [str "api", str name])
    (hmatched : matchedEndpoint [str "api", str name] = some e)
    (hmet : e.requirements.metBy (some administrator) = true)
    (hcommits : Commits assigningPayload t e j t')
    (hrespond : respond (some ⟨j⟩) = .ok response) :
    let s' := next assigningLibraries s (.request (administratorPost path) [])
    s'.server = some AuthConfig.readme ∧ s'.db.val = t' := by
  subst ht
  have hmethod : (administratorPost path).method ≠ str "OPTIONS" := by
    show str "POST" ≠ str "OPTIONS"
    decide
  exact next_of_commits hserver hmethod
    (login_administrator path hroles husers) hpath rfl hmatched hmet hcommits hrespond

def withProject (t : Tables) : Tables := { t with projects := t.projects.push (str "a") }

def withWorker (t : Tables) : Tables := { t with workers := t.workers.push (str "a") }

def withTask (t : Tables) : Tables := { t with tasks := t.tasks.push ⟨str "a", 1, none⟩ }

def assignedTables : Tables :=
  setWorker (withTask (withWorker (withProject readmeDb.val))) 1 ⟨str "a", 1, none⟩ (some 1)

theorem run_assigningRun : (run assigningLibraries assigningRun).db.val = assignedTables := by
  simp only [run, assigningRun, List.map_cons, List.map_nil, List.foldl_cons, List.foldl_nil]
  have hstart := next_start_idle assigningLibraries ⟨Db.empty, none⟩ AuthConfig.readme
  have hdb : (next assigningLibraries ⟨Db.empty, none⟩ (.start AuthConfig.readme [])).db.val =
      readmeDb.val := run_start_db assigningLibraries AuthConfig.readme
  generalize next assigningLibraries ⟨Db.empty, none⟩ (.start AuthConfig.readme []) = s at hstart hdb ⊢
  have hproject := next_administratorPost "/api/add_project" "add_project" hstart hdb
    rfl rfl (by decide) rfl (by decide) (.addProject rfl) rfl
  generalize next assigningLibraries s _ = s₁ at hproject ⊢
  have hworker := next_administratorPost "/api/add_worker" "add_worker" hproject.1 hproject.2
    rfl rfl (by decide) rfl (by decide) (.addWorker rfl) rfl
  generalize next assigningLibraries s₁ _ = s₂ at hworker ⊢
  have htask := next_administratorPost "/api/add_task" "add_task" hworker.1 hworker.2
    rfl rfl (by decide) rfl (by decide) (.addTask rfl rfl rfl) rfl
  generalize next assigningLibraries s₂ _ = s₃ at htask ⊢
  have hassign := next_administratorPost "/api/assign_task" "assign_task" htask.1 htask.2
    rfl rfl (by decide) rfl (by decide) (.assignTask rfl rfl rfl rfl) rfl
  exact hassign.2

theorem views_agree_assigningRun :
    let db := (run assigningLibraries assigningRun).db
    (∃ j, Answers db (.getTask ⟨1⟩) j) ∧ (∃ item, Entries db (.getProject ⟨1⟩) ⟨1⟩ [item]) ∧
      ∃ item, Entries db (.getWorker ⟨1⟩) ⟨1⟩ [item] := by
  intro db
  have htask : db.val.tasks.find 1 = some ⟨str "a", 1, some 1⟩ := by
    rw [run_assigningRun]
    rfl
  have hviews := views_agree assigningLibraries assigningRun
  have hanswers := answers_getTask_iff.mpr ⟨_, htask, rfl⟩
  refine ⟨⟨_, hanswers⟩, (hviews.project ⟨1⟩ ⟨1⟩).mp ⟨_, hanswers, ?_⟩,
    (hviews.worker ⟨1⟩ ⟨1⟩).mp ⟨_, hanswers, ?_⟩⟩
  · exact (details_project (sound_db db) htask).1
  · exact (details_worker_iff (sound_db db) htask 1).mpr rfl

end MvcBackend.TaskViews
