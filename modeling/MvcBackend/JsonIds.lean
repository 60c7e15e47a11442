import MvcBackend.EndpointRefinement

/-!
Ids that come in a JSON payload. Reading an `int` casts whatever number or
boolean is there, so an id may name a row that has another number.
-/

namespace MvcBackend.JsonIds

open MvcBackend.JsonValues
open MvcBackend.DataModel
open MvcBackend.Database
open MvcBackend.JsonOutput
open MvcBackend.Endpoints
open MvcBackend.EndpointSteps
open MvcBackend.EndpointRefinement
open MvcBackend.Library.KeyedTable
open MvcBackend.Library.Transaction

def numeric : Json → Option ℚ
  | .numberInteger n => some n
  | .numberUnsigned n => some n
  | .numberFloat x => some x.val
  | _ => none

def Exact (v : Json) : Prop := ∃ n : Int, IsInt n ∧ numeric v = some (n : ℚ)

def idFields : IEndpoint → List String
  | .addTask => ["project_id"]
  | .assignTask => ["task_id", "worker_id"]
  | .unassignTask => ["task_id"]
  | .delProject => ["id"]
  | _ => []

/-- What it is to act on the rows with these ids. -/
def ActsOn (t t' : Tables) (row : String → Int) : IEndpoint → Prop
  | .addTask => (t.projects.find (row "project_id")).isSome ∧
      ∃ name, t' = { t with tasks := t.tasks.push ⟨name, row "project_id", none⟩ }
  | .assignTask => (t.workers.find (row "worker_id")).isSome ∧
      ∃ task, t.tasks.find (row "task_id") = some task ∧
        t' = setWorker t (row "task_id") task (some (row "worker_id"))
  | .unassignTask => ∃ task, t.tasks.find (row "task_id") = some task ∧
      t' = setWorker t (row "task_id") task none
  | .delProject => (t.projects.find (row "id")).isSome ∧
      t' = Tables.eraseProject t (row "id")
  | _ => False

section

variable (e : IEndpoint) (input : EndpointInput) (db : Db)

def Fails : Prop :=
  e.call input (World.idle db []) = .ok none (World.idle db []) ∨
    ∃ error, e.call input (World.idle db []) = .error error (World.idle db [])

/-- The call fails, or it acts on the rows whose ids, which are `int`s, are the
numbers in the payload. -/
def NamesRows : Prop :=
  Fails e input db ∨
    ∃ out w row, e.call input (World.idle db []) = .ok (some out) w ∧
      ActsOn db.val w.store.val row e ∧
      ∀ field ∈ idFields e, IsInt (row field) ∧
        ∃ v, input.payload.atKey (str field) = .ok v ∧ numeric v = some (row field : ℚ)

end

/-- Every field that is read has the right type, and the ids as they are cast
have rows. -/
def Ready (payload : Json) (t : Tables) : IEndpoint → Prop
  | .addTask => (∃ name, stringField payload "name" = .ok name) ∧
      ∃ project, intField payload "project_id" = .ok project ∧ (t.projects.find project).isSome
  | .assignTask => ∃ id worker, intField payload "task_id" = .ok id ∧
      intField payload "worker_id" = .ok worker ∧ (t.tasks.find id).isSome ∧
      (t.workers.find worker).isSome
  | .unassignTask => ∃ id, intField payload "task_id" = .ok id ∧ (t.tasks.find id).isSome
  | .delProject => ∃ id, intField payload "id" = .ok id ∧ (t.projects.find id).isSome
  | _ => False

theorem intField_of_getToInt {payload v : Json} {field : String} {n : Int}
    (hv : payload.atKey (str field) = .ok v) (hn : v.getToInt = .ok n) :
    intField payload field = .ok n := by
  simp [intField, hv, hn, Except.bind, Except.mapError]

theorem trunc_intCast (n : Int) : trunc n = n := by
  simp [trunc]

theorem getToInt_of_numeric {v : Json} {n : Int} (hint : IsInt n) (hv : numeric v = some (n : ℚ)) :
    v.getToInt = .ok n := by
  cases v with
  | numberInteger m =>
      obtain rfl : m = n := by simpa [numeric] using hv
      simp [Json.getToInt, narrow_of_isInt hint]
  | numberUnsigned m =>
      obtain rfl : (m : Int) = n := by
        have h : (m : ℚ) = (n : ℚ) := by simpa [numeric] using hv
        exact_mod_cast h
      simp [Json.getToInt, narrow_of_isInt hint]
  | numberFloat x =>
      have h : x.val = n := by simpa [numeric] using hv
      have htrunc : trunc x.val = n := by rw [h, trunc_intCast]
      simp [Json.getToInt, x.toInt_eq (htrunc ▸ hint), htrunc]
  | null | boolean _ | string _ | array _ | object _ => simp [numeric] at hv

def idEndpoints : List IEndpoint := [.addTask, .assignTask, .unassignTask, .delProject]

theorem idEndpoints_subset_writers : idEndpoints ⊆ writers := by decide

section

variable {e : IEndpoint} {input : EndpointInput} {db : Db}

theorem exists_commits_iff (he : e ∈ idEndpoints) {payload : Json} {t : Tables} :
    (∃ j t', Commits payload t e j t') ↔ Ready payload t e := by
  constructor
  · rintro ⟨j, t', hcommits⟩
    cases hcommits with
    | addProject hname => simp [idEndpoints] at he
    | addWorker hname => simp [idEndpoints] at he
    | addTask hname hid hproject => exact ⟨⟨_, hname⟩, _, hid, by simp [hproject]⟩
    | assignTask hid hworkerId htask hworker =>
        exact ⟨_, _, hid, hworkerId, by simp [htask], by simp [hworker]⟩
    | unassignTask hid htask => exact ⟨_, hid, by simp [htask]⟩
    | delProject hid hproject => exact ⟨_, hid, by simp [hproject]⟩
  · intro hready
    simp only [idEndpoints, List.mem_cons, List.not_mem_nil, or_false] at he
    rcases he with rfl | rfl | rfl | rfl
    · obtain ⟨⟨name, hname⟩, project, hid, hproject⟩ := hready
      obtain ⟨_, hproject⟩ := Option.isSome_iff_exists.mp hproject
      exact ⟨_, _, .addTask hname hid hproject⟩
    · obtain ⟨id, worker, hid, hworkerId, htask, hworker⟩ := hready
      obtain ⟨_, htask⟩ := Option.isSome_iff_exists.mp htask
      obtain ⟨_, hworker⟩ := Option.isSome_iff_exists.mp hworker
      exact ⟨_, _, .assignTask hid hworkerId htask hworker⟩
    · obtain ⟨id, hid, htask⟩ := hready
      obtain ⟨_, htask⟩ := Option.isSome_iff_exists.mp htask
      exact ⟨_, _, .unassignTask hid htask⟩
    · obtain ⟨id, hid, hproject⟩ := hready
      obtain ⟨_, hproject⟩ := Option.isSome_iff_exists.mp hproject
      exact ⟨_, _, .delProject hid hproject⟩

theorem fails_of_not_ready (he : e ∈ idEndpoints) (h : ¬ Ready input.payload db.val e) :
    Fails e input db := by
  rcases hstep : step e input db.val with error | ⟨out, o⟩
  · exact .inr ⟨error, (call_atomic e input).run_error hstep⟩
  · rcases step_cases hstep with ⟨j, t', -, -, hcommits⟩ | ⟨rfl, hnone⟩
    · exact absurd ((exists_commits_iff he).mp ⟨j, t', hcommits⟩) h
    · rw [hnone (idEndpoints_subset_writers he)] at hstep
      exact .inl ((call_atomic e input).run_read hstep)

theorem call_of_commits {j : Json} {t' : Tables} (h : Commits input.payload db.val e j t') :
    ∃ w, e.call input (World.idle db []) = .ok (some ⟨j⟩) w ∧ w.store.val = t' := by
  obtain ⟨w, hrun, -, hstore, -⟩ := (call_atomic e input).run_ok (step_of_commits h)
  exact ⟨w, hrun, hstore⟩

def castRow (payload : Json) (field : String) : Int := (intField payload field).toOption.getD 0

theorem castRow_eq {payload : Json} {field : String} {n : Int}
    (h : intField payload field = .ok n) : castRow payload field = n := by
  simp [castRow, h, Except.toOption]

theorem actsOn_castRow (he : e ∈ idEndpoints) {payload j : Json} {t t' : Tables}
    (h : Commits payload t e j t') : ActsOn t t' (castRow payload) e := by
  cases h with
  | addProject hname => simp [idEndpoints] at he
  | addWorker hname => simp [idEndpoints] at he
  | addTask hname hid hproject =>
      exact ⟨by simp [castRow_eq hid, hproject], _, by rw [castRow_eq hid]⟩
  | assignTask hid hworkerId htask hworker =>
      simp [ActsOn, castRow_eq hid, castRow_eq hworkerId, htask, hworker]
  | unassignTask hid htask => simp [ActsOn, castRow_eq hid, htask]
  | delProject hid hproject => simp [ActsOn, castRow_eq hid, hproject]

/-- A request names the rows it acts on if and only if it fails anyway or each
of its ids is a number that is an `int`. -/
theorem names_rows_iff (he : e ∈ idEndpoints) :
    NamesRows e input db ↔
      (Ready input.payload db.val e → ∀ field ∈ idFields e,
        ∃ v, input.payload.atKey (str field) = .ok v ∧ Exact v) := by
  constructor
  · intro hnames hready field hfield
    obtain ⟨j, t', hcommits⟩ := (exists_commits_iff he).mpr hready
    obtain ⟨w, hrun, -⟩ := call_of_commits hcommits
    rcases hnames with (hnone | ⟨error, herror⟩) | ⟨out, w', row, -, -, hrow⟩
    · simp [hrun] at hnone
    · simp [hrun] at herror
    · obtain ⟨hint, v, hv, hnumeric⟩ := hrow field hfield
      exact ⟨v, hv, row field, hint, hnumeric⟩
  · intro hexact
    by_cases hready : Ready input.payload db.val e
    · obtain ⟨j, t', hcommits⟩ := (exists_commits_iff he).mpr hready
      obtain ⟨w, hrun, hstore⟩ := call_of_commits hcommits
      refine .inr ⟨_, w, castRow input.payload, hrun, hstore ▸ actsOn_castRow he hcommits, ?_⟩
      intro field hfield
      obtain ⟨v, hv, n, hint, hnumeric⟩ := hexact hready field hfield
      have hcast : castRow input.payload field = n :=
        castRow_eq (intField_of_getToInt hv (getToInt_of_numeric hint hnumeric))
      rw [hcast]
      exact ⟨hint, v, hv, hnumeric⟩
    · exact .inl (fails_of_not_ready he hready)

end

def oneProject : Db :=
  ⟨{ Tables.empty with projects := Tables.empty.projects.push (str "p") },
    foreignKeys_push_project foreignKeys_empty _⟩

theorem names_rows_iff_one :
    NamesRows .delProject ⟨.object [(str "id", .numberUnsigned 1)], none⟩ oneProject ↔
      (Ready (.object [(str "id", .numberUnsigned 1)]) oneProject.val .delProject →
        ∀ field ∈ idFields .delProject,
          ∃ v, Json.atKey (.object [(str "id", .numberUnsigned 1)]) (str field) = .ok v ∧
            Exact v) :=
  names_rows_iff (by decide)

/-- Asked to delete project 2 ^ 32 + 1, the endpoint deletes project 1. -/
theorem large_id_deletes_project_one :
    ¬ NamesRows .delProject ⟨.object [(str "id", .numberUnsigned 4294967297)], none⟩
      oneProject := by
  have hproject : oneProject.val.projects.find 1 = some (str "p") := rfl
  have hcommits : Commits (.object [(str "id", .numberUnsigned 4294967297)]) oneProject.val
      .delProject unitToJson (Tables.eraseProject oneProject.val 1) :=
    .delProject rfl hproject
  obtain ⟨w, hrun, -⟩ := @call_of_commits _ ⟨_, none⟩ _ _ _ hcommits
  rintro ((hnone | ⟨error, herror⟩) | ⟨out, w', row, -, -, hrow⟩)
  · rw [hrun] at hnone
    cases hnone
  · rw [hrun] at herror
    cases herror
  · obtain ⟨hint, v, hv, hnumeric⟩ := hrow "id" (by decide)
    cases hv
    have hid : ((4294967297 : ℕ) : ℚ) = (row "id" : ℚ) := by simpa [numeric] using hnumeric
    have hid' : row "id" = 4294967297 := by exact_mod_cast hid.symm
    rw [hid'] at hint
    revert hint
    decide

end MvcBackend.JsonIds
