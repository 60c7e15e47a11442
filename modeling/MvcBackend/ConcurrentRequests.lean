import MvcBackend.HandlerRefinement
import MvcBackend.Library.Serialization

/-!
Requests of many clients at once. A request logs in by one transaction and is
answered by another, on whatever the other clients have left in between.
-/

namespace MvcBackend.ConcurrentRequests

open MvcBackend.JsonValues
open MvcBackend.DataModel
open MvcBackend.Database
open MvcBackend.JsonOutput
open MvcBackend.Authentication
open MvcBackend.ApiParse
open MvcBackend.Endpoints
open MvcBackend.EndpointSteps
open MvcBackend.ApiRouter
open MvcBackend.HttpHandler
open MvcBackend.EndpointRefinement
open MvcBackend.AuthenticatorRefinement
open MvcBackend.RouterRefinement
open MvcBackend.HandlerRefinement
open MvcBackend.Library.Serialization
open MvcBackend.Library.Transaction

/-- A request, and the faults that its engine calls will meet. -/
structure Client where
  req : HttpRequest
  faults : List (Option Str)

/-- A response, or an exception that no catch clause takes. -/
abbrev Answer := Except Exc HttpResponse

/-- What a client keeps of its login: the actor, and the faults yet to come. -/
abbrev Seen := Option Actor × List (Option Str)

def outcome {α : Type} : EStateM.Result Exc AppWorld α → Except Exc α × Db
  | .ok a w => (.ok a, w.store)
  | .error e w => (.error e, w.store)

/-- The answer after the catch clauses. -/
def caught : Except Exc HttpResponse → Answer
  | .ok response => .ok response
  | .error e => handleException e

section Phases

variable (config : AuthConfig) (libraries : Libraries) (client : Client)

/-- A request up to the end of its login transaction. -/
def loginPhase (db : Db) : Except Answer Seen × Db :=
  if client.req.method = str "OPTIONS" then (.error (.ok optionsResponse), db)
  else
    match HttpHandler.verifyAuth config libraries client.req (World.idle db client.faults) with
    | .ok actor w => (.ok (actor, w.faults), w.store)
    | .error e w => (.error (handleException e), w.store)

/-- The rest of a request, with the one transaction of its endpoint. -/
def endpointPhase (seen : Seen) (db : Db) : Answer × Db :=
  let result := outcome (respondTo libraries client.req seen.1 (World.idle db seen.2))
  (caught result.1, result.2)

/-- The whole request, with nobody else around. -/
def handled (db : Db) : Answer × Db :=
  outcome (handle config libraries client.req (World.idle db client.faults))

/-- Whether a call with this payload opens a transaction. -/
def opensTransaction (payload : Json) : IEndpoint → Bool
  | .addProject | .addWorker => (stringField payload "name").isOk
  | .addTask => (stringField payload "name").isOk && (intField payload "project_id").isOk
  | .assignTask => (intField payload "task_id").isOk && (intField payload "worker_id").isOk
  | .unassignTask => (intField payload "task_id").isOk
  | .delProject => (intField payload "id").isOk
  | .debug => false
  | _ => true

/-- Whether the database that the injector constructs cannot be opened. -/
def injectorFails (path : ApiPath) (faults : List (Option Str)) : Bool :=
  constructsEndpoint path && faults.head?.join.isSome

/-- Whether a request gets to the transaction of its endpoint. -/
def reachesTransaction (seen : Seen) : Bool :=
  match splitRequestPath client.req, readPayload libraries client.req with
  | .ok path, .ok payload =>
      !injectorFails path seen.2 &&
        match matchedEndpoint path with
        | some e => e.requirements.metBy seen.1 && opensTransaction payload e
        | none => false
  | _, _ => false

end Phases

/-! ### What a login sees -/

theorem load_userID {t : Tables} (sound : ForeignKeys t) (subject : Str) :
    Persistent.load t (⟨subject⟩ : UserID) =
      .ok ((t.users.find subject).map fun roles => userRow t (subject, roles)) := by
  rcases huser : t.users.find subject with _ | roles
  · exact load_user_none huser
  · exact load_user sound huser

/-- A login makes two calls to the engine, whatever it finds. -/
theorem getPerms_eq (config : AuthConfig) (subject : Str) (db : Db) (faults : List (Option Str)) :
    Authenticator.getPerms config subject (World.idle db faults) =
      (do
        engineCall
        engineCall
        ofExcept (getPermsStep subject db.val) : App (Finset Perm)) (World.idle db faults) := by
  have hload := load_userID db.property subject
  have hnested : Engine.alreadyInTransaction Tables = Exc.alreadyInTransaction := rfl
  rcases faults with _ | ⟨_ | fault, _ | ⟨_ | fault', faults⟩⟩
  all_goals
    rcases huser : db.val.users.find subject with _ | roles
    all_goals
      simp [Authenticator.getPerms, Authenticator.getDefaultRole, transaction, begin, bind_apply,
        findValue, access, findProgram, engineCall, World.idle, hload, huser, getPermsStep,
        userPerms, ofExcept_apply, rollback, Except.map, flattenRoles_userRow, hnested]

theorem userPerms_congr {t t' : Tables} (hroles : t'.roles = t.roles) (husers : t'.users = t.users)
    (subject : Str) : userPerms t' subject = userPerms t subject := by
  rw [userPerms, userPerms, husers]
  congr 1
  funext roles
  rw [grantedPerms, grantedPerms, hroles]

section Login

variable (config : AuthConfig) (libraries : Libraries) (client : Client)

theorem loginPhase_store (db : Db) : (loginPhase config libraries client db).2 = db := by
  rw [loginPhase]
  split
  · rfl
  · have hobserves := verifyAuth_observes config libraries client.req
    rcases hrun : HttpHandler.verifyAuth config libraries client.req
      (World.idle db client.faults) with ⟨actor, w⟩ | ⟨e, w⟩
    · exact (hobserves.of_ok (World.idle_current _ _) hrun).2.2.store
    · exact (hobserves.of_error (World.idle_current _ _) hrun).2.1.store

/-- A login depends on the roles and the users alone. -/
theorem loginPhase_congr {db db' : Db} (hroles : db'.val.roles = db.val.roles)
    (husers : db'.val.users = db.val.users) :
    (loginPhase config libraries client db').1 = (loginPhase config libraries client db).1 := by
  rw [loginPhase, loginPhase]
  split
  · rfl
  · rw [HttpHandler.verifyAuth]
    rcases getJwt client.req with _ | token
    · rfl
    · simp only [Authenticator.auth, bind_apply, ofExcept_apply]
      rcases Authentication.verifyAuth libraries.jwt config token with e | subject
      · rfl
      · simp only [getPerms_eq, getPermsStep, userPerms_congr hroles husers]
        rcases userPerms db.val subject with _ | perms
        all_goals
          rcases client.faults with _ | ⟨_ | fault, _ | ⟨_ | fault', faults⟩⟩
          all_goals rfl

end Login

variable {ι : Type} (config : AuthConfig) (libraries : Libraries) (clients : ι → Client)

def protocol : Protocol ι Db Seen Answer where
  look i := loginPhase config libraries (clients i)
  act i := endpointPhase libraries (clients i)

theorem outcome_ofExcept {α : Type} (x : Except Exc α) (w : AppWorld) :
    outcome ((ofExcept x : App α) w) = (x, w.store) := by
  rw [ofExcept_apply]
  rcases x with e | a
  · rfl
  · rfl

/-- The catch clauses are after the request, wherever it threw. -/
theorem outcome_handle {config : AuthConfig} {libraries : Libraries} {req : HttpRequest}
    (hmethod : req.method ≠ str "OPTIONS") (w : AppWorld) :
    outcome (handle config libraries req w) =
      (caught (outcome (handleRequest config libraries req w)).1,
        (outcome (handleRequest config libraries req w)).2) := by
  rcases hrun : handleRequest config libraries req w with ⟨response, w'⟩ | ⟨e, w'⟩
  · rw [handle_of_responded hmethod hrun]
    rfl
  · rw [handle_of_thrown hmethod hrun, outcome_ofExcept]
    rfl

/-- Served alone, a request runs its two phases one after the other. -/
theorem serve_eq_handled (i : ι) (db : Db) :
    (protocol config libraries clients).serve i db = handled config libraries (clients i) db := by
  have hobserves := verifyAuth_observes config libraries (clients i).req
  simp only [Protocol.serve, protocol, loginPhase, handled]
  by_cases hmethod : (clients i).req.method = str "OPTIONS"
  · simp [hmethod, handle, outcome, World.idle]
  · simp only [hmethod, ↓reduceIte]
    rcases hrun : HttpHandler.verifyAuth config libraries (clients i).req
      (World.idle db (clients i).faults) with ⟨actor, ⟨store, current, faults, commits⟩⟩ | ⟨e, w⟩
    · obtain ⟨hcurrent, -, hsame⟩ := hobserves.of_ok (World.idle_current _ _) hrun
      obtain rfl : current = none := hcurrent
      obtain rfl : commits = 0 := hsame.commits
      rw [outcome_handle hmethod, handleRequest_of_verified hrun]
      rfl
    · rw [outcome_handle hmethod, handleRequest_of_unverified hrun]
      rfl

/-! ### What an endpoint does to the store -/

theorem endpointPhase_frame (libraries : Libraries) (client : Client) (seen : Seen) (db : Db) :
    let db' := (endpointPhase libraries client seen db).2
    db'.val.roles = db.val.roles ∧ db'.val.users = db.val.users := by
  have hatomic := respondTo_atomic libraries client.req seen.1
  simp only [endpointPhase]
  rcases hrun : respondTo libraries client.req seen.1 (World.idle db seen.2) with
    ⟨response, w⟩ | ⟨e, w⟩
  · obtain ⟨-, o, hstep, hsettled⟩ := hatomic.of_ok (World.idle_current _ _) hrun
    show w.store.val.roles = db.val.roles ∧ w.store.val.users = db.val.users
    rcases o with _ | t'
    · have hstore : w.store = db := hsettled.store
      rw [hstore]
      exact ⟨rfl, rfl⟩
    · obtain ⟨path, payload, out, -, -, hroute, -⟩ := respondStep_cases hstep
      obtain ⟨e, j, -, -, hcommits⟩ := routeStep_commits hroute
      rw [hsettled.1]
      exact hcommits.frame
  · have hstore : w.store = db := (hatomic.of_error (World.idle_current _ _) hrun).2.1.store
    show w.store.val.roles = db.val.roles ∧ w.store.val.users = db.val.users
    rw [hstore]
    exact ⟨rfl, rfl⟩

/-- With these faults in store, `m` comes out the same on every database and
leaves it alone. -/
def Quiet {α : Type} (m : App α) (faults : List (Option Str)) : Prop :=
  ∃ x faults', ∀ db, m (World.idle db faults) = (ofExcept x : App α) (World.idle db faults')

namespace Quiet

variable {α β : Type} {faults : List (Option Str)}

theorem ofExcept (x : Except Exc α) : Quiet (MonadExcept.ofExcept x : App α) faults :=
  ⟨x, faults, fun _ => rfl⟩

theorem bind {m : App α} {k : α → App β} {x : Except Exc α} {faults' : List (Option Str)}
    (hm : ∀ db, m (World.idle db faults) = (MonadExcept.ofExcept x : App α) (World.idle db faults'))
    (hk : ∀ a, x = .ok a → Quiet (k a) faults') : Quiet (m >>= k) faults := by
  rcases x with e | a
  · refine ⟨.error e, faults', fun db => ?_⟩
    rw [bind_apply, hm]
    rfl
  · obtain ⟨y, faults'', hy⟩ := hk a rfl
    refine ⟨y, faults'', fun db => ?_⟩
    rw [bind_apply, hm, ← hy]
    rfl

theorem thenExcept {m : App α} (hm : Quiet m faults) (f : α → Except Exc β) :
    Quiet (m >>= fun a => MonadExcept.ofExcept (f a)) faults := by
  obtain ⟨x, faults', hx⟩ := hm
  exact bind hx fun a _ => ofExcept (f a)

end Quiet

theorem quiet_call {e : IEndpoint} {input : EndpointInput} (faults : List (Option Str))
    (h : opensTransaction input.payload e = false) : Quiet (e.call input) faults := by
  cases e with
  | debug => exact Quiet.ofExcept (.ok (output unitToJson))
  | addProject | addWorker =>
      refine Quiet.bind (fun _ => rfl) fun name hname => ?_
      simp [opensTransaction, hname, Except.isOk, Except.toBool] at h
  | addTask =>
      refine Quiet.bind (fun _ => rfl) fun name hname => ?_
      refine Quiet.bind (fun _ => rfl) fun id hid => ?_
      simp [opensTransaction, hname, hid, Except.isOk, Except.toBool] at h
  | assignTask =>
      refine Quiet.bind (fun _ => rfl) fun id hid => ?_
      refine Quiet.bind (fun _ => rfl) fun worker hworker => ?_
      simp [opensTransaction, hid, hworker, Except.isOk, Except.toBool] at h
  | unassignTask | delProject =>
      refine Quiet.bind (fun _ => rfl) fun id hid => ?_
      simp [opensTransaction, hid, Except.isOk, Except.toBool] at h
  | _ => cases h

/-- Parsing a path never looks at the database. -/
theorem parse_idle (path : ApiPath) (faults : List (Option Str)) :
    ∃ x faults', (∀ db, parse path (World.idle db faults) =
      (ofExcept x : App (Option IEndpoint)) (World.idle db faults')) ∧
        ∀ found, x = .ok found →
          found = matchedEndpoint path ∧ injectorFails path faults = false := by
  have hparse : (do return parsedEndpoint (← ofParse (apiParse path))) =
      (pure (matchedEndpoint path) : App (Option IEndpoint)) := by
    rw [apiParse_eq]
    rcases matchedEndpoint path with _ | e
    · rfl
    · rfl
  rw [parse, hparse]
  rcases hconstructs : constructsEndpoint path with _ | _
  · exact ⟨.ok (matchedEndpoint path), faults, fun db => rfl, by simp [injectorFails, hconstructs]⟩
  · rcases faults with _ | ⟨_ | fault, faults⟩
    · exact ⟨.ok (matchedEndpoint path), [], fun db => rfl, by simp [injectorFails]⟩
    · exact ⟨.ok (matchedEndpoint path), faults, fun db => rfl, by simp [injectorFails]⟩
    · exact ⟨.error (.databaseException fault), faults, fun db => rfl, by simp⟩

theorem quiet_respondTo {libraries : Libraries} {client : Client} {seen : Seen}
    (h : reachesTransaction libraries client seen = false) :
    Quiet (respondTo libraries client.req seen.1) seen.2 := by
  refine Quiet.bind (fun _ => rfl) fun path hpath => ?_
  refine Quiet.bind (fun _ => rfl) fun payload hpayload => ?_
  apply Quiet.thenExcept
  obtain ⟨x, faults', hparse, hfound⟩ := parse_idle path seen.2
  refine Quiet.bind hparse fun found hx => ?_
  obtain ⟨rfl, hinjector⟩ := hfound found hx
  simp only [reachesTransaction, hpath, hpayload, hinjector, Bool.not_false, Bool.true_and] at h
  rcases hmatched : matchedEndpoint path with _ | e
  · exact Quiet.ofExcept (.error (.userError (str "Bad route")))
  · simp only [hmatched, Bool.and_eq_false_iff] at h
    rcases hmet : e.requirements.metBy seen.1 with _ | _
    · simp only [hmet]
      exact Quiet.ofExcept (.error (.authError (str "nope")))
    · have hcall : Quiet (e.call ⟨payload, seen.1⟩) faults' :=
        quiet_call faults' (h.resolve_left (by simp [hmet]))
      simpa [hmet] using hcall

theorem protocol_serial : (protocol config libraries clients).Serial
    fun i seen => reachesTransaction libraries (clients i) seen where
  look_store i db := loginPhase_store config libraries (clients i) db
  look_act i j seen db := by
    obtain ⟨hroles, husers⟩ := endpointPhase_frame libraries (clients j) seen db
    exact loginPhase_congr config libraries (clients i) hroles husers
  quiet i seen h := by
    obtain ⟨x, faults', hx⟩ := quiet_respondTo h
    refine ⟨caught x, fun db => ?_⟩
    show (caught (outcome _).1, (outcome _).2) = _
    rw [hx, outcome_ofExcept]
    rfl

variable [DecidableEq ι]

/-- The requests one after another. -/
def handledInTurn (order : List ι) (db : Db) : Snapshot ι Db Seen Answer :=
  order.foldl (fun c i =>
    let result := handled config libraries (clients i) c.store
    c.put i result.2 (.done result.1)) (.start db)

theorem inTurn_eq_handledInTurn (order : List ι) (db : Db) :
    (protocol config libraries clients).inTurn order (.start db) =
      handledInTurn config libraries clients order db := by
  simp only [Protocol.inTurn, handledInTurn, serve_eq_handled]

/-- The clients whose requests reach the transaction of their endpoint, in the
order of these transactions. -/
def transactionOrder (schedule : List ι) (db : Db) : List ι :=
  (protocol config libraries clients).reaching
    (fun i seen => reachesTransaction libraries (clients i) seen) schedule (.start db)

/-- Requests in any interleaving are answered, and leave the database, as if
they were handled one after another in any order that keeps the order of the
transactions of their endpoints; and there is such an order. -/
theorem concurrent_requests_serializable (schedule : List ι)
    (hcomplete : ∀ i, 2 ≤ schedule.count i) (db : Db) :
    let end_ := (protocol config libraries clients).run schedule (.start db)
    (∀ i, ∃ answer, end_.progress i = .done answer) ∧
    (∀ order : List ι, order.Nodup → (∀ i, i ∈ order) →
      (transactionOrder config libraries clients schedule db).Sublist order →
        end_ = handledInTurn config libraries clients order db) ∧
    ∃ order : List ι, order.Nodup ∧ (∀ i, i ∈ order) ∧
      (transactionOrder config libraries clients schedule db).Sublist order := by
  have h := protocol_serial config libraries clients
  refine ⟨h.answered hcomplete, ?_, h.exists_order hcomplete⟩
  intro order hnodup hall horder
  rw [← inTurn_eq_handledInTurn]
  exact h.run_eq_inTurn hcomplete hnodup hall horder

/-- The bootstrap administrator lists the projects while it adds one. -/
def twoClients (i : Fin 2) : Client where
  req :=
    { method := if i = 0 then str "GET" else str "POST"
      path := if i = 0 then str "/api/get_projects" else str "/api/add_project"
      headers := [(str "Authorization", str "Bearer oath2|xxxx")]
      body := [] }
  faults := []

/-- Libraries that trust every token and read every body as this name. -/
def namingLibraries : Libraries :=
  ⟨trustingJwt, fun _ => .ok (.object [(str "name", .string (str "p"))])⟩

theorem concurrent_requests_serializable_twoClients :
    ∃ order : List (Fin 2), order.Nodup ∧
      (protocol AuthConfig.readme namingLibraries twoClients).run [0, 1, 1, 0] (.start readmeDb) =
        handledInTurn AuthConfig.readme namingLibraries twoClients order readmeDb := by
  obtain ⟨-, hserial, order, hnodup, hall, horder⟩ := concurrent_requests_serializable
    AuthConfig.readme namingLibraries twoClients [0, 1, 1, 0] (by decide) readmeDb
  exact ⟨order, hnodup, hserial order hnodup hall horder⟩

end MvcBackend.ConcurrentRequests
