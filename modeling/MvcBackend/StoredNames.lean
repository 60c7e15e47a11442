import MvcBackend.AnsweredRuns
import MvcBackend.Configuration
import MvcBackend.EscapingExceptions

/-!
Every name in the database is UTF-8, for the payload of a request is dumped
before anything is done with it. So what an endpoint makes of the tables can
always be sent.
-/

namespace MvcBackend.StoredNames

open MvcBackend.JsonValues
open MvcBackend.DataModel
open MvcBackend.Database
open MvcBackend.JsonOutput
open MvcBackend.Authentication
open MvcBackend.Endpoints
open MvcBackend.EndpointSteps
open MvcBackend.HttpHandler
open MvcBackend.AuthenticatorRefinement
open MvcBackend.RouterRefinement
open MvcBackend.HandlerRefinement
open MvcBackend.RequestAtomicity
open MvcBackend.Configuration
open MvcBackend.EscapingExceptions
open MvcBackend.System
open MvcBackend.AnsweredRuns
open MvcBackend.Library.Failures
open MvcBackend.Library.KeyedTable
open MvcBackend.Library.Machines
open MvcBackend.Library.Transaction

structure Encoded (t : Tables) : Prop where
  role : ∀ name perms, t.roles.find name = some perms → isUtf8 name = true
  user : ∀ id roles, t.users.find id = some roles → isUtf8 id = true
  project : ∀ id name, t.projects.find id = some name → isUtf8 name = true
  worker : ∀ id name, t.workers.find id = some name → isUtf8 name = true
  task : ∀ id task, t.tasks.find id = some task → isUtf8 task.name = true

/-! ### What is sent -/

theorem itemsDumpable_iff {items : List Json} :
    itemsDumpable items = true ↔ ∀ item ∈ items, item.dumpable = true := by
  induction items with
  | nil => simp [itemsDumpable]
  | cons item items ih => simp [itemsDumpable, ih]

/-- The keys of the objects that the endpoints send. -/
theorem isUtf8_keys : ∀ key ∈ ["id", "name", "tasks", "perms", "roles", "project", "worker"],
    isUtf8 (str key) = true := by decide

theorem dumpable_array_map {α : Type} {rows : List α} {f : α → Json}
    (h : ∀ row ∈ rows, (f row).dumpable = true) : (Json.array (rows.map f)).dumpable = true := by
  rw [Json.dumpable, itemsDumpable_iff]
  exact List.forall_mem_map.mpr h

theorem dumpable_nameIdJson {name : Str} (h : isUtf8 name = true) (id : Int) :
    (nameIdJson name id).dumpable = true := by
  have hid := isUtf8_keys "id" (by simp)
  have hname := isUtf8_keys "name" (by simp)
  simp [nameIdJson, Json.dumpable, membersDumpable, hid, hname, h]

theorem dumpable_taskJson {name : Str} (h : isUtf8 name = true) (id project : Int)
    (worker : Option Int) : (taskJson id name project worker).dumpable = true := by
  have hid := isUtf8_keys "id" (by simp)
  have hname := isUtf8_keys "name" (by simp)
  have hproject := isUtf8_keys "project" (by simp)
  have hworker := isUtf8_keys "worker" (by simp)
  cases worker <;>
    simp [taskJson, workerField, Json.dumpable, membersDumpable, hid, hname, hproject, hworker, h]

theorem dumpable_ownerJson {name : Str} (h : isUtf8 name = true) (id : Int) {tasks : List Json}
    (htasks : ∀ task ∈ tasks, task.dumpable = true) : (ownerJson id name tasks).dumpable = true := by
  have hid := isUtf8_keys "id" (by simp)
  have hname := isUtf8_keys "name" (by simp)
  have hkey := isUtf8_keys "tasks" (by simp)
  have hitems := itemsDumpable_iff.mpr htasks
  simp [ownerJson, Json.dumpable, membersDumpable, hid, hname, hkey, h, hitems]

theorem dumpable_roleToJson {role : Role} (h : isUtf8 role.name = true) :
    (roleToJson role).dumpable = true := by
  have hid := isUtf8_keys "id" (by simp)
  have hkey := isUtf8_keys "perms" (by simp)
  have hperms : (permsToJson role.perms).dumpable = true := dumpable_array_map fun _ _ => rfl
  simp [roleToJson, Json.dumpable, membersDumpable, hid, hkey, h, hperms]

theorem dumpable_userToJson {user : User} (h : isUtf8 user.id = true)
    (hroles : ∀ role ∈ user.roles, isUtf8 role.name = true) :
    (userToJson user).dumpable = true := by
  have hid := isUtf8_keys "id" (by simp)
  have hkey := isUtf8_keys "roles" (by simp)
  have hitems : (Json.array (user.roles.map roleToJson)).dumpable = true :=
    dumpable_array_map fun role hrole => dumpable_roleToJson (hroles role hrole)
  simp only [Json.dumpable] at hitems
  simp [userToJson, Json.dumpable, membersDumpable, hid, hkey, h, hitems]

theorem dumpable_taskDetailsToJson {details : TaskDetails} (hname : isUtf8 details.name = true)
    (hproject : isUtf8 details.projectName = true)
    (hworker : ∀ name, details.workerName = some name → isUtf8 name = true) :
    (taskDetailsToJson details).dumpable = true := by
  have hkey := isUtf8_keys "id" (by simp)
  have hkey' := isUtf8_keys "name" (by simp)
  have hkey'' := isUtf8_keys "project" (by simp)
  have hkey''' := isUtf8_keys "worker" (by simp)
  obtain ⟨name, id, projectName, projectId, workerName, workerId⟩ := details
  rcases workerId with _ | workerId
  · simp_all [taskDetailsToJson, Json.dumpable, membersDumpable]
  · rcases workerName with _ | workerName
    · simp_all [taskDetailsToJson, Json.dumpable, membersDumpable]
    · simp_all [taskDetailsToJson, Json.dumpable, membersDumpable]

section Outputs

variable {t : Tables}

theorem dumpable_tasksJson (h : Encoded t) (refers : TaskRow → Bool) :
    ∀ task ∈ tasksJson t refers, task.dumpable = true := by
  intro task htask
  obtain ⟨⟨id, row⟩, hrow, rfl⟩ := List.mem_map.mp htask
  obtain ⟨hmem, -⟩ := List.mem_filter.mp hrow
  exact dumpable_taskJson (h.task id row ((t.tasks.mem_rows_iff id row).mp hmem)) _ _ _

theorem dumpable_taskDetails (h : Encoded t) {id : Int} {task : TaskRow}
    (htask : t.tasks.find id = some task) :
    (taskDetailsToJson (taskDetails t id task)).dumpable = true := by
  apply dumpable_taskDetailsToJson (h.task id task htask)
  · show isUtf8 ((t.projects.find task.project).getD []) = true
    rcases hproject : t.projects.find task.project with _ | name
    · rfl
    · exact h.project task.project name hproject
  · intro name hname
    obtain ⟨worker, -, hworker⟩ := Option.bind_eq_some_iff.mp hname
    exact h.worker worker name hworker

theorem dumpable_userRow (h : Encoded t) (sound : ForeignKeys t) {row : Str × List Str}
    (hrow : row ∈ t.users.rows) : (userToJson (userRow t row)).dumpable = true := by
  have huser : t.users.find row.1 = some row.2 := (t.users.mem_rows_iff _ _).mp hrow
  apply dumpable_userToJson (h.user row.1 row.2 huser)
  intro role hrole
  obtain ⟨name, hname, rfl⟩ := List.mem_map.mp hrole
  obtain ⟨perms, hperms⟩ := sound.exists_role huser hname
  exact h.role name perms hperms

/-- Every output of an endpoint can be sent. -/
theorem dumpable_of_step (h : Encoded t) (sound : ForeignKeys t) {e : IEndpoint}
    {input : EndpointInput} {out : EndpointOutput} {o : Option Tables}
    (hstep : step e input t = .ok (some out, o)) : out.payload.dumpable = true := by
  rcases step_cases hstep with ⟨j, t', hout, -, hcommits⟩ | ⟨-, hnone⟩
  · obtain rfl := Option.some.inj hout
    cases hcommits <;> rfl
  · cases e with
    | addProject | addTask | addWorker | assignTask | unassignTask | delProject =>
        cases hnone (by simp [writers])
    | getProjects =>
        cases hstep
        apply dumpable_array_map
        rintro ⟨id, name⟩ hrow
        exact dumpable_nameIdJson (h.project id name ((t.projects.mem_rows_iff _ _).mp hrow)) id
    | getWorkers =>
        cases hstep
        apply dumpable_array_map
        rintro ⟨id, name⟩ hrow
        exact dumpable_nameIdJson (h.worker id name ((t.workers.mem_rows_iff _ _).mp hrow)) id
    | getProject id =>
        obtain ⟨hview, -⟩ := Prod.mk.inj (Except.ok.inj hstep)
        obtain ⟨name, hname, rfl⟩ := Option.map_eq_some_iff.mp hview
        exact dumpable_ownerJson (h.project id.val name hname) _ (dumpable_tasksJson h _)
    | getWorker id =>
        obtain ⟨hview, -⟩ := Prod.mk.inj (Except.ok.inj hstep)
        obtain ⟨name, hname, rfl⟩ := Option.map_eq_some_iff.mp hview
        exact dumpable_ownerJson (h.worker id.val name hname) _ (dumpable_tasksJson h _)
    | getTask id =>
        obtain ⟨hview, -⟩ := Prod.mk.inj (Except.ok.inj hstep)
        obtain ⟨task, htask, rfl⟩ := Option.map_eq_some_iff.mp hview
        exact dumpable_taskDetails h htask
    | getUsers =>
        cases hstep
        exact dumpable_array_map fun row hrow => dumpable_userRow h sound hrow
    | getRoles =>
        cases hstep
        apply dumpable_array_map
        rintro ⟨name, perms⟩ hrow
        exact dumpable_roleToJson (h.role name perms ((t.roles.mem_rows_iff _ _).mp hrow))
    | debug =>
        cases hstep
        rfl

end Outputs

/-! ### What is stored -/

theorem dumpable_of_lookup {members : List (Str × Json)} {key : Str} {member : Json}
    (h : membersDumpable members = true) (hlookup : members.lookup key = some member) :
    member.dumpable = true := by
  induction members with
  | nil => cases hlookup
  | cons first members ih =>
      obtain ⟨key', member'⟩ := first
      simp only [membersDumpable, Bool.and_eq_true] at h
      rw [List.lookup_cons] at hlookup
      split at hlookup
      · obtain rfl := Option.some.inj hlookup
        exact h.1.2
      · exact ih h.2 hlookup

theorem dumpable_of_atKey {j member : Json} {key : Str} (h : j.dumpable = true)
    (hat : j.atKey key = .ok member) : member.dumpable = true := by
  cases j with
  | object members =>
      rcases hlookup : members.lookup key with _ | member'
      · simp [Json.atKey, hlookup] at hat
      · obtain rfl : member' = member := by simpa [Json.atKey, hlookup] using hat
        simp only [Json.dumpable] at h
        exact dumpable_of_lookup h hlookup
  | _ => cases hat

theorem isUtf8_of_getToString {j : Json} {s : Str} (h : j.dumpable = true)
    (hread : j.getToString = .ok s) : isUtf8 s = true := by
  cases j with
  | string s' =>
      obtain rfl := Except.ok.inj hread
      simpa [Json.dumpable] using h
  | _ => cases hread

theorem isUtf8_of_stringField {payload : Json} {key : String} {s : Str}
    (h : payload.dumpable = true) (hfield : stringField payload key = .ok s) : isUtf8 s = true := by
  obtain ⟨member, hmember, hread⟩ := bind_eq_ok.mp (mapError_eq_ok.mp hfield)
  exact isUtf8_of_getToString (dumpable_of_atKey h hmember) hread

theorem dumpable_of_readPayload {libraries : Libraries} {req : HttpRequest} {payload : Json}
    (h : readPayload libraries req = .ok payload) : payload.dumpable = true := by
  rw [readPayload] at h
  split at h
  · obtain ⟨payload', -, h⟩ := bind_eq_ok.mp h
    obtain ⟨_, hdump, h⟩ := bind_eq_ok.mp h
    obtain rfl := Except.ok.inj h
    rw [dump] at hdump
    split at hdump
    · next hdumpable => exact hdumpable
    · cases hdump
  · obtain rfl := Except.ok.inj h
    rfl

section Invariant

variable {t t' : Tables}

theorem encoded_empty : Encoded Tables.empty := by
  constructor <;> simp [Tables.empty]

theorem encoded_setWorker (h : Encoded t) {id : Int} {task : TaskRow}
    (htask : t.tasks.find id = some task) (worker : Option Int) :
    Encoded (setWorker t id task worker) where
  role := h.role
  user := h.user
  project := h.project
  worker := h.worker
  task := by
    intro id' task' hfind
    rw [setWorker, SequencedTable.find_set] at hfind
    split at hfind
    · obtain ⟨old, -, rfl⟩ := Option.map_eq_some_iff.mp hfind
      exact h.task id task htask
    · exact h.task id' task' hfind

theorem Encoded.commits (h : Encoded t) {payload j : Json} {e : IEndpoint}
    (hpayload : payload.dumpable = true) (hcommits : Commits payload t e j t') : Encoded t' := by
  cases hcommits with
  | addProject hname =>
      refine { h with project := fun id name hfind => ?_ }
      rw [SequencedTable.find_push] at hfind
      split at hfind
      · obtain rfl := Option.some.inj hfind
        exact isUtf8_of_stringField hpayload hname
      · exact h.project id name hfind
  | addWorker hname =>
      refine { h with worker := fun id name hfind => ?_ }
      rw [SequencedTable.find_push] at hfind
      split at hfind
      · obtain rfl := Option.some.inj hfind
        exact isUtf8_of_stringField hpayload hname
      · exact h.worker id name hfind
  | addTask hname hid hproject =>
      refine { h with task := fun id task hfind => ?_ }
      rw [SequencedTable.find_push] at hfind
      split at hfind
      · obtain rfl := Option.some.inj hfind
        exact isUtf8_of_stringField hpayload hname
      · exact h.task id task hfind
  | assignTask hid hworkerId htask hworker => exact encoded_setWorker h htask _
  | unassignTask hid htask => exact encoded_setWorker h htask _
  | delProject hid hproject =>
      refine { h with project := fun id name hfind => ?_, task := fun id task hfind => ?_ }
      · rw [Tables.eraseProject, SequencedTable.find_erase] at hfind
        split at hfind
        · cases hfind
        · exact h.project id name hfind
      · rw [Tables.eraseProject, SequencedTable.find_restrict, Option.filter_eq_some_iff] at hfind
        exact h.task id task hfind.1

/-- The names in a configuration are UTF-8. -/
structure EncodedConfig (config : AuthConfig) : Prop where
  adminRole : isUtf8 config.adminRole.val = true
  defaultRole : isUtf8 config.defaultRole.val = true
  bootstrapAdminUser : isUtf8 config.bootstrapAdminUser.val = true

variable {config : AuthConfig}

theorem Encoded.bootstrapAdmin (h : Encoded t) (hconfig : EncodedConfig config) :
    Encoded (bootstrapAdminTables config t) := by
  refine { h with role := fun name perms hfind => ?_, user := fun id roles hfind => ?_ }
  · rcases Table.of_find_insertNew hfind with hold | ⟨rfl, -⟩
    · exact h.role name perms hold
    · exact hconfig.adminRole
  · rcases Table.of_find_insertNew hfind with hold | ⟨rfl, -⟩
    · exact h.user id roles hold
    · exact hconfig.bootstrapAdminUser

theorem Encoded.bootstrapDefault (h : Encoded t) (hconfig : EncodedConfig config) :
    Encoded (bootstrapDefaultTables config t) := by
  refine { h with role := fun name perms hfind => ?_ }
  rcases Table.of_find_insertNew hfind with hold | ⟨rfl, -⟩
  · exact h.role name perms hold
  · exact hconfig.defaultRole

theorem Encoded.next {s : ServerState} {libraries : Libraries} {event : Event}
    (h : Encoded s.db.val)
    (hevent : ∀ config faults, event = .start config faults → EncodedConfig config) :
    Encoded (System.next libraries s event).db.val := by
  rcases event with ⟨config, faults⟩ | ⟨req, faults⟩
  · have hconfig := hevent config faults rfl
    have hadmin := h.bootstrapAdmin hconfig
    rcases next_start_cases libraries s config faults with ⟨-, hdb⟩ | ⟨-, hdb | hdb⟩
    · rw [hdb]
      exact hadmin.bootstrapDefault hconfig
    · rwa [hdb]
    · rwa [hdb]
  · rcases hserver : s.server with _ | config
    · rwa [(reads_of_down libraries req faults hserver).same]
    · rcases writes_or_reads libraries req faults hserver with
        ⟨actor, path, e, payload, j, hwrites⟩ | hreads
      · exact h.commits (dumpable_of_readPayload hwrites.read) hwrites.commits
      · rwa [hreads.same]

end Invariant

/-! ### Configurations -/

/-- nlohmann::json reads no string that is not UTF-8. -/
def ReadsUtf8 (files : Files) : Prop :=
  ∀ text j, files.parseJson text = .ok j → j.dumpable = true

def FromFiles (config : AuthConfig) : Prop :=
  ∃ files path json, ReadsUtf8 files ∧ loadConfig files path = .ok json ∧
    readAuthConfig json = .ok config

section Configurations

variable {files : Files}

theorem dumpable_of_loadJsonFromFile (hfiles : ReadsUtf8 files) {path : Str} {j : Json}
    (h : loadJsonFromFile files path = .ok j) : j.dumpable = true := by
  rw [loadJsonFromFile] at h
  split at h
  · cases h
  · next text _ => exact hfiles text j (mapError_eq_ok.mp h)

theorem membersDumpable_setMember {key : Str} {value : Json} {members : List (Str × Json)}
    (hkey : isUtf8 key = true) (hvalue : value.dumpable = true)
    (h : membersDumpable members = true) : membersDumpable (setMember key value members) = true := by
  induction members with
  | nil => simp [setMember, membersDumpable, hkey, hvalue]
  | cons member members ih =>
      obtain ⟨k, v⟩ := member
      simp only [membersDumpable, Bool.and_eq_true] at h
      rw [setMember]
      split
      · simp [membersDumpable, hkey, hvalue, h.2]
      · simp [membersDumpable, h.1.1, h.1.2, ih h.2]

theorem membersDumpable_of_loadMembers (hfiles : ReadsUtf8 files)
    {named members result : List (Str × Json)} (hnamed : membersDumpable named = true)
    (hmembers : membersDumpable members = true)
    (h : loadMembers files named members = .ok result) : membersDumpable result = true := by
  induction named generalizing members with
  | nil =>
      obtain rfl := Except.ok.inj h
      exact hmembers
  | cons member named ih =>
      obtain ⟨key, name⟩ := member
      simp only [membersDumpable, Bool.and_eq_true] at hnamed
      obtain ⟨value, hvalue, h⟩ := bind_eq_ok.mp h
      obtain ⟨path, -, hload⟩ := loadNamedFile_eq_ok.mp hvalue
      have hdumpable := dumpable_of_loadJsonFromFile hfiles hload
      split at h
      · cases h
      · exact ih hnamed.2 (membersDumpable_setMember hnamed.1.1 hdumpable hmembers) h

theorem dumpable_of_loadConfig (hfiles : ReadsUtf8 files) {path : Str} {config : Json}
    (h : loadConfig files path = .ok config) : config.dumpable = true := by
  obtain ⟨j, hload, h⟩ := bind_eq_ok.mp (mapError_eq_ok.mp h)
  have hj := dumpable_of_loadJsonFromFile hfiles hload
  cases j with
  | object members =>
      simp only [Json.dumpable] at hj
      simp only [loadIndirectKeys] at h
      split at h
      · obtain rfl := Except.ok.inj h
        simpa [Json.dumpable] using hj
      · obtain rfl := Except.ok.inj h
        simpa [Json.dumpable] using hj
      · next named hnamed =>
          have hdumpable := dumpable_of_lookup hj hnamed
          simp only [Json.dumpable] at hdumpable
          rcases hresult : loadMembers files named members with e | result
          · simp [hresult, Except.map] at h
          · simp only [hresult, Except.map, Except.ok.injEq] at h
            rw [← h, Json.dumpable]
            exact membersDumpable_of_loadMembers hfiles hdumpable hj hresult
      · obtain rfl := Except.ok.inj h
        simpa [Json.dumpable] using hj
      · obtain ⟨_, _, h⟩ := bind_eq_ok.mp h
        cases h
      · obtain ⟨_, _, h⟩ := bind_eq_ok.mp h
        cases h
  | null | boolean _ | numberInteger _ | numberUnsigned _ | numberFloat _ | string _ | array _ =>
      obtain rfl := Except.ok.inj h
      exact hj

theorem isUtf8_of_getString {config : Json} {key s : Str} (h : config.dumpable = true)
    (hget : getString config key = .ok s) : isUtf8 s = true := by
  obtain ⟨member, hmember, hread⟩ := bind_eq_ok.mp (mapError_eq_ok.mp hget)
  exact isUtf8_of_getToString (dumpable_of_atKey h hmember) hread

theorem FromFiles.encoded {config : AuthConfig} (h : FromFiles config) : EncodedConfig config := by
  obtain ⟨files, path, json, hfiles, hload, hread⟩ := h
  have hdumpable := dumpable_of_loadConfig hfiles hload
  obtain ⟨publicKey, -, hread⟩ := bind_eq_ok.mp hread
  obtain ⟨issuer, -, hread⟩ := bind_eq_ok.mp hread
  obtain ⟨defaultRole, hdefault, hread⟩ := bind_eq_ok.mp hread
  obtain ⟨adminRole, hadmin, hread⟩ := bind_eq_ok.mp hread
  obtain ⟨user, huser, hread⟩ := bind_eq_ok.mp hread
  obtain ⟨leeway, -, hread⟩ := bind_eq_ok.mp hread
  obtain rfl := Except.ok.inj hread
  exact ⟨isUtf8_of_getString hdumpable hadmin, isUtf8_of_getString hdumpable hdefault,
    isUtf8_of_getString hdumpable huser⟩

end Configurations

theorem encoded_run (moments : List Moment)
    (hstarts : ∀ moment ∈ moments, ∀ config faults, moment.event = .start config faults →
      FromFiles config) : Encoded (server.run pristine moments).db.val := by
  refine server.run_invariant (P := fun s : ServerState => Encoded s.db.val) ?_ encoded_empty
  intro s moment hmoment hs
  exact hs.next fun config faults hevent => (hstarts moment hmoment config faults hevent).encoded

/-! ### What is answered -/

/-- A request that gets as far as the call of its endpoint. -/
structure Reaches (config : AuthConfig) (libraries : Libraries) (req : HttpRequest) (t : Tables)
    (actor : Option Actor) (e : IEndpoint) (payload : Json) : Prop where
  method : req.method ≠ str "OPTIONS"
  login : actorStep config libraries req t = .ok actor
  requests : RequestsEndpoint req e
  met : e.requirements.metBy actor = true
  read : readPayload libraries req = .ok payload

def rendered : Option EndpointOutput → HttpResponse
  | some output => okResponse output.payload
  | none => ⟨200, .json (.object [(str "Err", .array [.string (str ":(")])]), [allowOrigin]⟩

def answered : StepResult → HttpResponse
  | .ok (out, _) => rendered out
  | .error _ => internalError

theorem respond_eq {out : Option EndpointOutput}
    (h : ∀ output, out = some output → output.payload.dumpable = true) :
    respond out = .ok (rendered out) := by
  have hok : isUtf8 (str "Ok") = true := by decide
  cases out with
  | none => rfl
  | some output =>
      have hbody : (Json.object [(str "Ok", output.payload)]).dumpable = true := by
        simp [Json.dumpable, membersDumpable, hok, h output rfl]
      simp [respond, jsonResponseOk, jsonResponse, dump, hbody, rendered, okResponse, bind,
        Except.bind, pure, Except.pure]

/-- Without faults the answer is what the endpoint makes of the tables. -/
theorem answer_of_reaches {s : ServerState} {config : AuthConfig} {libraries : Libraries}
    {req : HttpRequest} {actor : Option Actor} {e : IEndpoint} {payload : Json}
    (hencoded : Encoded s.db.val) (hserver : s.server = some config)
    (h : Reaches config libraries req s.db.val actor e payload) :
    answer libraries s (.request req []) =
      some (answered (step e ⟨payload, actor⟩ s.db.val)) := by
  obtain ⟨path, hpath, hparse⟩ := h.requests
  have hroute : routeStep path ⟨payload, actor⟩ s.db.val = step e ⟨payload, actor⟩ s.db.val := by
    simp [routeStep, matchedEndpoint_iff.mpr hparse, h.met]
  have hatomic := handleRequest_atomic config libraries req
  simp only [answer, hserver]
  rcases hstep : step e ⟨payload, actor⟩ s.db.val with ex | ⟨out, o⟩
  · have hrequest : requestStep config libraries req s.db.val = .error ex := by
      simp [requestStep, h.login, hpath, h.read, hroute, hstep, bind, Except.bind]
    have hexception := failsIn_step e ⟨payload, actor⟩ s.db.val ex hstep
    rw [handle_of_thrown h.method (hatomic.run_error hrequest), ofExcept_apply, hexception]
    rfl
  · have hrespond : respond out = .ok (rendered out) := by
      apply respond_eq
      rintro output rfl
      exact dumpable_of_step hencoded s.db.property hstep
    have hrequest : requestStep config libraries req s.db.val = .ok (rendered out, o) := by
      simp [requestStep, h.login, hpath, h.read, hroute, hstep, hrespond, bind, Except.bind,
        Except.map]
    obtain ⟨w, hrun, -⟩ := hatomic.run_ok hrequest
    rw [handle_of_responded h.method hrun]
    rfl

/-- Only a write can fail. -/
theorem status_of_read {e : IEndpoint} (he : e ∉ writers) (input : EndpointInput) (t : Tables) :
    (answered (step e input t)).status = 200 := by
  have hrendered : ∀ out, (rendered out).status = 200 := by
    intro out
    cases out <;> rfl
  cases e with
  | addProject | addTask | addWorker | assignTask | unassignTask | delProject =>
      simp [writers] at he
  | _ => exact hrendered _

/-- After any run of a server whose configurations were read from files, every
name that is stored is UTF-8; and a request that the database does not fail, by
somebody who may use its endpoint, is answered with what the endpoint makes of
the tables. Reading never ends in an internal error. -/
theorem views_can_be_sent (moments : List Moment)
    (hstarts : ∀ moment ∈ moments, ∀ config faults, moment.event = .start config faults →
      FromFiles config) :
    let s := server.run pristine moments
    Encoded s.db.val ∧
    ∀ config libraries req actor e payload, s.server = some config →
      Reaches config libraries req s.db.val actor e payload →
      answer libraries s (.request req []) =
          some (answered (step e ⟨payload, actor⟩ s.db.val)) ∧
        (e ∉ writers → (answered (step e ⟨payload, actor⟩ s.db.val)).status = 200) := by
  intro s
  have hencoded : Encoded s.db.val := encoded_run moments hstarts
  refine ⟨hencoded, fun config libraries req actor e payload hserver hreaches => ?_⟩
  exact ⟨answer_of_reaches hencoded hserver hreaches, fun he => status_of_read he _ _⟩

/-- The example values of the README, as a configuration file holds them. -/
def readmeJson : Json :=
  .object [(str "auth_public_key", .string []),
    (str "auth_issuer", .string (str "https://dev-ztmxpnax.auth0.com/")),
    (str "auth_default_role", .string (str "default")),
    (str "auth_admin_role", .string (str "administrator")),
    (str "auth_bootstrap_admin_user", .string (str "oath2|xxxx")),
    (str "auth_jwt_leeway_secs", .numberUnsigned 60)]

theorem fromFiles_readme : FromFiles AuthConfig.readme := by
  refine ⟨⟨fun _ => some [], fun _ => .ok readmeJson⟩, [], readmeJson, ?_, rfl, rfl⟩
  intro text j hj
  obtain rfl := Except.ok.inj hj
  decide

def anonymousGet : HttpRequest where
  method := str "GET"
  path := str "/api/get_users"
  headers := []
  body := []

theorem views_can_be_sent_users :
    let s := server.run pristine [⟨trustingLibraries, .start AuthConfig.readme []⟩]
    answer trustingLibraries s (.request anonymousGet []) =
      some (answered (step .getUsers ⟨.null, none⟩ s.db.val)) := by
  intro s
  have hserver : s.server = some AuthConfig.readme :=
    next_start_idle trustingLibraries pristine AuthConfig.readme
  refine ((views_can_be_sent _ ?_).2 AuthConfig.readme trustingLibraries anonymousGet none .getUsers
    .null hserver ?_).1
  · intro moment hmoment config faults hstart
    obtain rfl := List.mem_singleton.mp hmoment
    obtain ⟨rfl, -⟩ := Event.start.inj hstart
    exact fromFiles_readme
  · refine ⟨by decide, rfl, ⟨[str "api", str "get_users"], by decide, ?_⟩, by decide, rfl⟩
    exact matchedEndpoint_iff.mp rfl

end MvcBackend.StoredNames
