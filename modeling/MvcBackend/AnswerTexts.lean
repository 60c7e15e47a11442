import MvcBackend.ClientView
import MvcBackend.RequestTexts

/-!
The texts of answers: whatever the names in the database are, what is sent is
read as the value that was meant.
-/

namespace MvcBackend.AnswerTexts

open MvcBackend.JsonValues
open MvcBackend.DataModel
open MvcBackend.Database
open MvcBackend.JsonOutput
open MvcBackend.Authentication
open MvcBackend.Endpoints
open MvcBackend.EndpointSteps
open MvcBackend.HttpHandler (HttpRequest HttpResponse Libraries ResponseBody handle handleException
  handleRequest jsonResponse jsonResponseErr jsonResponseOk respond allowOrigin trustingLibraries)
open MvcBackend.AuthenticatorRefinement
open MvcBackend.RouterRefinement
open MvcBackend.HandlerRefinement
open MvcBackend.RequestAtomicity
open MvcBackend.System
open MvcBackend.AnsweredRuns
open MvcBackend.AcknowledgedWrites
open MvcBackend.ClientView (firstStart)
open MvcBackend.StoredNames
open MvcBackend.PicoJson (IsInt64)
open MvcBackend.JsonText
open MvcBackend.JsonTextReading
open MvcBackend.JsonTextRoundTrip
open MvcBackend.RequestTexts
open MvcBackend.Library.KeyedTable
open MvcBackend.Library.Machines
open MvcBackend.Library.SortedMap
open MvcBackend.Library.Transaction

/-! ### Values as they are built -/

mutual

/-- The `std::map`s that the initializer lists of `to_json` are put into. -/
def ordered : Json → Json
  | .array items => .array (orderedItems items)
  | .object members => .object (assignAll (orderedMembers members) [])
  | j => j

def orderedItems : List Json → List Json
  | [] => []
  | item :: items => ordered item :: orderedItems items

def orderedMembers : List (Str × Json) → List (Str × Json)
  | [] => []
  | (key, member) :: members => (key, ordered member) :: orderedMembers members

end

variable {doubles : Doubles}

mutual

theorem fits_ordered : ∀ {j : Json}, Fits doubles j → Fits doubles (ordered j)
  | .array _, h => itemsFit_ordered h
  | .object _, h => by
      refine membersFit_iff.mpr ?_
      exact forall_assignAll (P := fun _ j => Fits doubles j)
        (membersFit_iff.mp (membersFit_ordered h)) (by simp)
  | .null, h | .boolean _, h | .numberInteger _, h | .numberUnsigned _, h | .numberFloat _, h
  | .string _, h => h

theorem itemsFit_ordered : ∀ {items : List Json}, ItemsFit doubles items →
    ItemsFit doubles (orderedItems items)
  | [], _ => trivial
  | _ :: _, h => ⟨fits_ordered h.1, itemsFit_ordered h.2⟩

theorem membersFit_ordered : ∀ {members : List (Str × Json)}, MembersFit doubles members →
    MembersFit doubles (orderedMembers members)
  | [], _ => trivial
  | (_, _) :: _, h => ⟨fits_ordered h.1, membersFit_ordered h.2⟩

end

theorem membersDumpable_iff {members : List (Str × Json)} :
    membersDumpable members = true ↔
      ∀ m ∈ members, isUtf8 m.1 = true ∧ m.2.dumpable = true := by
  induction members with
  | nil => simp [membersDumpable]
  | cons m members ih => simp [membersDumpable, ih, and_assoc]

mutual

theorem dumpable_ordered : ∀ {j : Json}, j.dumpable = true → (ordered j).dumpable = true
  | .array _, h => itemsDumpable_ordered h
  | .object _, h => by
      refine membersDumpable_iff.mpr ?_
      exact forall_assignAll (P := fun key (j : Json) => isUtf8 key = true ∧ j.dumpable = true)
        (membersDumpable_iff.mp (membersDumpable_ordered h)) (by simp)
  | .null, h | .boolean _, h | .numberInteger _, h | .numberUnsigned _, h | .numberFloat _, h
  | .string _, h => h

theorem itemsDumpable_ordered : ∀ {items : List Json}, itemsDumpable items = true →
    itemsDumpable (orderedItems items) = true
  | [], h => h
  | _ :: _, h => by
      rw [itemsDumpable, Bool.and_eq_true] at h
      rw [orderedItems, itemsDumpable, dumpable_ordered h.1, itemsDumpable_ordered h.2]
      rfl

theorem membersDumpable_ordered : ∀ {members : List (Str × Json)},
    membersDumpable members = true → membersDumpable (orderedMembers members) = true
  | [], h => h
  | (_, _) :: _, h => by
      rw [membersDumpable, Bool.and_eq_true, Bool.and_eq_true] at h
      rw [orderedMembers, membersDumpable, h.1.1, dumpable_ordered h.1.2,
        membersDumpable_ordered h.2]
      rfl

end

mutual

/-- The order in which members are given is not read back. -/
theorem reread_ordered : ∀ j : Json, reread (ordered j) = reread j
  | .array items => by rw [ordered, reread, reread, rereadItems_ordered items]
  | .object members => by
      rw [ordered, reread, reread, rereadMembers_eq, map_assignAll, ← rereadMembers_eq,
        rereadMembers_ordered members, List.map_nil, assignAll_assignAll]
  | .null | .boolean _ | .numberInteger _ | .numberUnsigned _ | .numberFloat _ | .string _ => rfl

theorem rereadItems_ordered : ∀ items : List Json,
    rereadItems (orderedItems items) = rereadItems items
  | [] => rfl
  | item :: items => by
      rw [orderedItems, rereadItems, rereadItems, reread_ordered item, rereadItems_ordered items]

theorem rereadMembers_ordered : ∀ members : List (Str × Json),
    rereadMembers (orderedMembers members) = rereadMembers members
  | [] => rfl
  | (key, member) :: members => by
      rw [orderedMembers, rereadMembers, rereadMembers, reread_ordered member,
        rereadMembers_ordered members]

end

/-- What is sent for a body. -/
def answerText (doubles : Doubles) (body : Json) : Except JsonException Str :=
  dump doubles (ordered body)

theorem exists_answerText {body : Json} (hfits : Fits doubles body)
    (hdumpable : body.dumpable = true) :
    ∃ text, answerText doubles body = .ok text ∧ IsTextOf doubles text (reread body) := by
  obtain ⟨text, htext, hreads⟩ := exists_dump (fits_ordered hfits) (dumpable_ordered hdumpable)
  rw [reread_ordered] at hreads
  exact ⟨text, htext, hreads.isTextOf⟩

/-! ### Ids -/

/-- The ids that were given out are positive and below the bound. -/
structure Numbered (bound : Int) (t : Tables) : Prop where
  project : ∀ id, (t.projects.find id).isSome → 0 < id
  worker : ∀ id, (t.workers.find id).isSome → 0 < id
  task : ∀ id, (t.tasks.find id).isSome → 0 < id
  projects : t.projects.nextKey ≤ bound
  workers : t.workers.nextKey ≤ bound
  tasks : t.tasks.nextKey ≤ bound

section Numbers

variable {bound : Int} {t t' : Tables}

theorem numbered_empty : Numbered 1 Tables.empty where
  project := by simp [Tables.empty]
  worker := by simp [Tables.empty]
  task := by simp [Tables.empty]
  projects := le_rfl
  workers := le_rfl
  tasks := le_rfl

theorem Numbered.mono (h : Numbered bound t) {bound' : Int} (hle : bound ≤ bound') :
    Numbered bound' t :=
  { h with
    projects := h.projects.trans hle
    workers := h.workers.trans hle
    tasks := h.tasks.trans hle }

theorem Numbered.of_sameDomain (h : Numbered bound t) (hsame : SameDomain t t') :
    Numbered bound t' := by
  obtain ⟨roles, users, projects, workers, tasks⟩ := t
  obtain ⟨roles', users', projects', workers', tasks'⟩ := t'
  obtain ⟨rfl, rfl, rfl⟩ := hsame
  exact ⟨h.project, h.worker, h.task, h.projects, h.workers, h.tasks⟩

theorem pos_of_push {α : Type} {table : SequencedTable α} {a : α}
    (h : ∀ id, (table.find id).isSome → 0 < id) :
    ∀ id, ((table.push a).find id).isSome → 0 < id := by
  intro id hfind
  rw [SequencedTable.find_push] at hfind
  split at hfind
  · next hid => exact hid ▸ table.nextKey_pos
  · exact h id hfind

theorem pos_of_restrict {α : Type} {table : SequencedTable α} {keep : Int → α → Bool}
    (h : ∀ id, (table.find id).isSome → 0 < id) :
    ∀ id, ((table.restrict keep).find id).isSome → 0 < id := by
  intro id hfind
  rw [SequencedTable.find_restrict] at hfind
  obtain ⟨a, ha⟩ := Option.isSome_iff_exists.mp hfind
  exact h id (Option.isSome_of_mem (Option.filter_eq_some_iff.mp ha).1)

theorem Numbered.setWorker (h : Numbered bound t) (id : Int) (task : TaskRow)
    (worker : Option Int) : Numbered bound (setWorker t id task worker) := by
  refine { h with task := fun id' hfind => h.task id' ?_ }
  rw [EndpointSteps.setWorker, SequencedTable.find_set] at hfind
  split at hfind
  · rwa [Option.isSome_map] at hfind
  · exact hfind

/-- A write gives out one id at most. -/
theorem Numbered.commits (h : Numbered bound t) {payload j : Json} {e : IEndpoint}
    (hcommits : Commits payload t e j t') : Numbered (bound + 1) t' := by
  have hnext := h.mono (show bound ≤ bound + 1 by omega)
  cases hcommits with
  | addProject hname =>
      refine { hnext with project := pos_of_push h.project, projects := ?_ }
      have := h.projects
      rw [SequencedTable.nextKey_push]
      omega
  | addWorker hname =>
      refine { hnext with worker := pos_of_push h.worker, workers := ?_ }
      have := h.workers
      rw [SequencedTable.nextKey_push]
      omega
  | addTask hname hid hproject =>
      refine { hnext with task := pos_of_push h.task, tasks := ?_ }
      have := h.tasks
      rw [SequencedTable.nextKey_push]
      omega
  | assignTask hid hworkerId htask hworker => exact hnext.setWorker _ _ _
  | unassignTask hid htask => exact hnext.setWorker _ _ _
  | delProject hid hproject =>
      exact { hnext with project := pos_of_restrict h.project, task := pos_of_restrict h.task }

theorem Numbered.next {s : ServerState} (h : Numbered bound s.db.val) (moment : Moment) :
    Numbered (bound + 1) (server.next s moment).db.val := by
  obtain ⟨libraries, event⟩ := moment
  rcases event with ⟨config, faults⟩ | ⟨req, faults⟩
  · have hsame := h.of_sameDomain (sameDomain_start libraries s config faults)
    exact hsame.mono (show bound ≤ bound + 1 by omega)
  · obtain ⟨-, hdb | ⟨e, payload, j, hcommits⟩⟩ := next_request_cases libraries s req faults
    · show Numbered (bound + 1) (System.next libraries s (.request req faults)).db.val
      rw [hdb]
      exact h.mono (by omega)
    · exact h.commits hcommits

theorem numbered_run (moments : List Moment) :
    Numbered (moments.length + 1) (server.run pristine moments).db.val := by
  have hnext : ∀ (n : Nat) (s : ServerState) (moment : Moment), Numbered (n + 1) s.db.val →
      Numbered ((n + 1 : Nat) + 1) (server.next s moment).db.val := by
    intro n s moment h
    rw [Nat.cast_succ]
    exact h.next moment
  have hrun := server.run_counted (P := fun n s => Numbered (n + 1) s.db.val) hnext
    (n := 0) (s := pristine) numbered_empty moments
  rwa [Nat.zero_add] at hrun

end Numbers

/-! ### What is answered -/

section Outputs

variable {bound : Int} {t : Tables}

theorem fits_array_map {α : Type} {rows : List α} {f : α → Json}
    (h : ∀ row ∈ rows, Fits doubles (f row)) : Fits doubles (.array (rows.map f)) :=
  itemsFit_iff.mpr (List.forall_mem_map.mpr h)

theorem Numbered.projectId (h : Numbered bound t) (hbound : bound ≤ 2 ^ 63) {id : Int} {name : Str}
    (hfind : t.projects.find id = some name) : IsInt64 id := by
  have hpos := h.project id (Option.isSome_of_mem hfind)
  have hlt := t.projects.key_lt_nextKey hfind
  have hle := h.projects
  constructor <;> omega

theorem Numbered.workerId (h : Numbered bound t) (hbound : bound ≤ 2 ^ 63) {id : Int} {name : Str}
    (hfind : t.workers.find id = some name) : IsInt64 id := by
  have hpos := h.worker id (Option.isSome_of_mem hfind)
  have hlt := t.workers.key_lt_nextKey hfind
  have hle := h.workers
  constructor <;> omega

theorem Numbered.taskId (h : Numbered bound t) (hbound : bound ≤ 2 ^ 63) {id : Int} {task : TaskRow}
    (hfind : t.tasks.find id = some task) : IsInt64 id := by
  have hpos := h.task id (Option.isSome_of_mem hfind)
  have hlt := t.tasks.key_lt_nextKey hfind
  have hle := h.tasks
  constructor <;> omega

theorem fits_tasksJson (h : Numbered bound t) (hbound : bound ≤ 2 ^ 63) (sound : ForeignKeys t)
    (refers : TaskRow → Bool) : ∀ task ∈ tasksJson t refers, Fits doubles task := by
  intro task htask
  obtain ⟨⟨id, row⟩, hrow, rfl⟩ := List.mem_map.mp htask
  have hfind := (t.tasks.mem_rows_iff id row).mp (List.mem_filter.mp hrow).1
  obtain ⟨projectName, hproject⟩ := sound.exists_project hfind
  have hid := h.taskId hbound hfind
  have hprojectId := h.projectId hbound hproject
  rcases hworker : row.worker with _ | worker
  · simp [taskRowJson, taskJson, workerField, Fits, MembersFit, hworker, hid, hprojectId]
  · obtain ⟨workerName, hfound⟩ := sound.exists_worker hfind hworker
    have hworkerId := h.workerId hbound hfound
    simp [taskRowJson, taskJson, workerField, Fits, MembersFit, hworker, hid, hprojectId, hworkerId]

theorem fits_taskDetails (h : Numbered bound t) (hbound : bound ≤ 2 ^ 63) (sound : ForeignKeys t)
    {id : Int} {task : TaskRow} (hfind : t.tasks.find id = some task) :
    Fits doubles (taskDetailsToJson (taskDetails t id task)) := by
  obtain ⟨projectName, hproject⟩ := sound.exists_project hfind
  have hid := h.taskId hbound hfind
  have hprojectId := h.projectId hbound hproject
  rcases hworker : task.worker with _ | worker
  · simp [taskDetailsToJson, taskDetails, Fits, MembersFit, hworker, hproject, hid, hprojectId]
  · obtain ⟨workerName, hfound⟩ := sound.exists_worker hfind hworker
    have hworkerId := h.workerId hbound hfound
    simp [taskDetailsToJson, taskDetails, Fits, MembersFit, hworker, hproject, hfound, hid,
      hprojectId, hworkerId]

theorem fits_ownerJson {id : Int} (hid : IsInt64 id) (name : Str) {tasks : List Json}
    (htasks : ∀ task ∈ tasks, Fits doubles task) : Fits doubles (ownerJson id name tasks) :=
  ⟨hid, trivial, itemsFit_iff.mpr htasks, trivial⟩

theorem fits_roleToJson (role : Role) : Fits doubles (roleToJson role) := by
  have hperms : Fits doubles (permsToJson role.perms) := by
    refine fits_array_map fun p _ => ?_
    show IsInt64 p.value
    cases p <;> decide
  exact ⟨trivial, hperms, trivial⟩

theorem fits_userToJson (user : User) : Fits doubles (userToJson user) :=
  ⟨trivial, fits_array_map fun role _ => fits_roleToJson role, trivial⟩

/-- The integers in what an endpoint puts out are ids and permissions. -/
theorem fits_of_step (h : Numbered bound t) (hbound : bound < 2 ^ 63) (sound : ForeignKeys t)
    {e : IEndpoint} {input : EndpointInput} {out : EndpointOutput} {o : Option Tables}
    (hstep : step e input t = .ok (some out, o)) : Fits doubles out.payload := by
  have hle := hbound.le
  have hnew : ∀ {id : Int}, 0 < id → id ≤ bound → Fits doubles (.numberInteger id) := by
    intro id hpos hid
    show IsInt64 id
    constructor <;> omega
  rcases step_cases hstep with ⟨j, t', hout, -, hcommits⟩ | ⟨-, hnone⟩
  · obtain rfl := Option.some.inj hout
    cases hcommits with
    | addProject => exact hnew t.projects.nextKey_pos h.projects
    | addWorker => exact hnew t.workers.nextKey_pos h.workers
    | addTask => exact hnew t.tasks.nextKey_pos h.tasks
    | assignTask | unassignTask | delProject => trivial
  · cases e with
    | addProject | addTask | addWorker | assignTask | unassignTask | delProject =>
        cases hnone (by simp [writers])
    | getProjects =>
        cases hstep
        apply fits_array_map
        rintro ⟨id, name⟩ hrow
        exact ⟨h.projectId hle ((t.projects.mem_rows_iff _ _).mp hrow), trivial, trivial⟩
    | getWorkers =>
        cases hstep
        apply fits_array_map
        rintro ⟨id, name⟩ hrow
        exact ⟨h.workerId hle ((t.workers.mem_rows_iff _ _).mp hrow), trivial, trivial⟩
    | getProject id =>
        obtain ⟨hview, -⟩ := Prod.mk.inj (Except.ok.inj hstep)
        obtain ⟨name, hname, rfl⟩ := Option.map_eq_some_iff.mp hview
        exact fits_ownerJson (h.projectId hle hname) name (fits_tasksJson h hle sound _)
    | getWorker id =>
        obtain ⟨hview, -⟩ := Prod.mk.inj (Except.ok.inj hstep)
        obtain ⟨name, hname, rfl⟩ := Option.map_eq_some_iff.mp hview
        exact fits_ownerJson (h.workerId hle hname) name (fits_tasksJson h hle sound _)
    | getTask id =>
        obtain ⟨hview, -⟩ := Prod.mk.inj (Except.ok.inj hstep)
        obtain ⟨task, htask, rfl⟩ := Option.map_eq_some_iff.mp hview
        exact fits_taskDetails h hle sound htask
    | getUsers =>
        cases hstep
        exact fits_array_map fun row _ => fits_userToJson _
    | getRoles =>
        cases hstep
        exact fits_array_map fun row _ => fits_roleToJson _
    | debug =>
        cases hstep
        trivial

end Outputs

theorem body_of_jsonResponse {code : Nat} {body : Json} {response : HttpResponse}
    (h : jsonResponse code body = .ok response) :
    response.body = .json body ∧ body.dumpable = true := by
  obtain ⟨_, hdump, h⟩ := bind_eq_ok.mp h
  obtain rfl := Except.ok.inj h
  exact ⟨rfl, dumpable_of_dump hdump⟩

/-- A body whose numbers fit and that was dumped to be sent. -/
def Sendable (doubles : Doubles) (response : HttpResponse) : Prop :=
  ∀ body, response.body = .json body → Fits doubles body ∧ body.dumpable = true

theorem sendable_of_jsonResponse {code : Nat} {key : Str} {body : Json} {response : HttpResponse}
    (hfits : Fits doubles body) (h : jsonResponse code (.object [(key, body)]) = .ok response) :
    Sendable doubles response := by
  obtain ⟨hbody, hdumpable⟩ := body_of_jsonResponse h
  intro body' hbody'
  obtain rfl := ResponseBody.json.inj (hbody.symm.trans hbody')
  exact ⟨⟨hfits, trivial⟩, hdumpable⟩

theorem sendable_of_handleException {ex : Exc} {response : HttpResponse}
    (h : handleException ex = .ok response) : Sendable doubles response := by
  have hstring : ∀ what, Fits doubles (.array [.string what]) := fun _ => ⟨trivial, trivial⟩
  have hnull : Fits doubles .null := trivial
  cases ex with
  | userError what | authError what => exact sendable_of_jsonResponse (hstring what) h
  | thrown code => cases h
  | undefined => cases h
  | _ => exact sendable_of_jsonResponse hnull h

theorem sendable_of_respond {out : Option EndpointOutput} {response : HttpResponse}
    (hfits : ∀ output, out = some output → Fits doubles output.payload)
    (h : respond out = .ok response) : Sendable doubles response := by
  cases out with
  | none =>
      have hface : Fits doubles (.array [.string (str ":(")]) := ⟨trivial, trivial⟩
      exact sendable_of_jsonResponse hface h
  | some output => exact sendable_of_jsonResponse (hfits output rfl) h

theorem server_answer (s : ServerState) (moment : Moment) :
    server.answer s moment = answer moment.libraries s moment.event := rfl

theorem sendable_of_answer {s : ServerState} {bound : Int} (hnumbered : Numbered bound s.db.val)
    (hbound : bound < 2 ^ 63) {moment : Moment} {response : HttpResponse}
    (h : server.answer s moment = some response) : Sendable doubles response := by
  obtain ⟨libraries, config | ⟨req, faults⟩⟩ := moment
  · cases h
  · simp only [server, answer] at h
    rcases hserver : s.server with _ | config
    · simp [hserver] at h
    · simp only [hserver] at h
      split at h
      · next response' w hrun =>
          obtain rfl := Option.some.inj h
          by_cases hmethod : req.method = str "OPTIONS"
          · intro body hbody
            rw [handle, if_pos hmethod] at hrun
            cases hrun
            cases hbody
          · rcases hrequest : handleRequest config libraries req (World.idle s.db faults) with
              ⟨response, w'⟩ | ⟨ex, w'⟩
            · rw [handle_of_responded hmethod hrequest] at hrun
              obtain ⟨rfl, rfl⟩ := EStateM.Result.ok.inj hrun
              obtain ⟨-, o, hstep, -⟩ := (handleRequest_atomic config libraries req).of_ok
                (World.idle_current _ _) hrequest
              obtain ⟨actor, path, payload, out, -, -, -, hroute, hrespond⟩ :=
                requestStep_cases hstep
              obtain ⟨e, -, -, hstep'⟩ := routeStep_eq_ok hroute
              refine sendable_of_respond ?_ hrespond
              rintro output rfl
              exact fits_of_step hnumbered hbound s.db.property hstep'
            · rw [handle_of_thrown hmethod hrequest] at hrun
              rcases hexception : handleException ex with ex' | response
              · rw [hexception] at hrun
                cases hrun
              · rw [hexception] at hrun
                obtain ⟨rfl, -⟩ := EStateM.Result.ok.inj hrun
                exact sendable_of_handleException hexception
      · cases h

/-- Every answer that any run gives is read, from the text that is sent, as the
value it was made of, as long as the ids can be counted: whatever the names in
the database are, they stay inside their strings. -/
theorem answers_read_back (doubles : Doubles) (moments : List Moment)
    (hcount : moments.length < 2 ^ 31) :
    ∀ entry ∈ server.transcript pristine moments, ∀ response body,
      entry.2 = some response → response.body = .json body →
      ∃ text, answerText doubles body = .ok text ∧ IsTextOf doubles text (reread body) := by
  intro entry hentry response body hresponse hbody
  obtain ⟨before, moment, after, rfl, rfl⟩ := server.mem_transcript.mp hentry
  have hbound : ((before.length : Int) + 1) < 2 ^ 63 := by
    rw [List.length_append] at hcount
    omega
  obtain ⟨hfits, hdumpable⟩ :=
    sendable_of_answer (numbered_run before) hbound hresponse body hbody
  exact exists_answerText hfits hdumpable

theorem answers_read_back_users :
    let t := (server.run pristine firstStart).db.val
    let users := t.users.rows.map fun row => userToJson (userRow t row)
    let body := Json.object [(str "Ok", .array users)]
    ∃ text, answerText noDoubles body = .ok text ∧ IsTextOf noDoubles text (reread body) := by
  intro t users body
  have hserver : (server.run pristine firstStart).server = some AuthConfig.readme :=
    next_start_idle trustingLibraries pristine AuthConfig.readme
  have hencoded : Encoded t := by
    refine encoded_run firstStart fun moment hmoment config faults hstart => ?_
    obtain rfl := List.mem_singleton.mp hmoment
    obtain ⟨rfl, -⟩ := Event.start.inj hstart
    exact fromFiles_readme
  have hreaches :
      Reaches AuthConfig.readme trustingLibraries anonymousGet t none .getUsers .null := by
    refine ⟨by decide, rfl, ⟨[str "api", str "get_users"], by decide, ?_⟩, by decide, rfl⟩
    exact matchedEndpoint_iff.mp rfl
  have hanswer := answer_of_reaches hencoded hserver hreaches
  have hmem : (⟨trustingLibraries, .request anonymousGet []⟩,
        some (answered (step .getUsers ⟨.null, none⟩ t))) ∈
      server.transcript pristine
        (firstStart ++ [⟨trustingLibraries, .request anonymousGet []⟩]) := by
    refine server.mem_transcript.mpr ⟨firstStart, _, [], rfl, ?_⟩
    rw [server_answer, ← hanswer]
  exact answers_read_back noDoubles _ (by simp [firstStart]) _ hmem _ body rfl rfl

end MvcBackend.AnswerTexts
