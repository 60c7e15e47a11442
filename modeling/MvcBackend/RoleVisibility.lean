import MvcBackend.CompleteMediation

/-!
Who sees the permissions of roles. The list of roles is guarded by a permission
of its own, but the list of users, which anybody may read, contains the roles of
the users with their permissions.
-/

namespace MvcBackend.RoleVisibility

open MvcBackend.JsonValues
open MvcBackend.DataModel
open MvcBackend.Database
open MvcBackend.JsonOutput
open MvcBackend.Authentication
open MvcBackend.ApiParse
open MvcBackend.Endpoints
open MvcBackend.EndpointSteps
open MvcBackend.ApiRouter
open MvcBackend.AuthenticatorRefinement
open MvcBackend.RouterRefinement
open MvcBackend.CompleteMediation
open MvcBackend.Library.KeyedTable
open MvcBackend.Library.Transaction

/-- The tables are the same but for the permissions of the roles. -/
structure DifferInPerms (t t' : Tables) : Prop where
  roleNames : t'.roles.rows.map Prod.fst = t.roles.rows.map Prod.fst
  users : t'.users = t.users
  projects : t'.projects = t.projects
  workers : t'.workers = t.workers
  tasks : t'.tasks = t.tasks

/-- What `route` returns or throws. -/
def response (db : Db) (path : ApiPath) (input : EndpointInput) :
    Except Exc (Option EndpointOutput) :=
  match route path input (World.idle db []) with
  | .ok out _ => .ok out
  | .error e _ => .error e

/-- No actor, or one that may not view roles. -/
def MayNotViewRoles (actor : Option Actor) : Prop :=
  ∀ a ∈ actor, .administrate ∉ a.perms ∧ .viewRole ∉ a.perms

/-- Every role that some user holds has the same permissions in both tables. -/
def SameHeldRoles (t t' : Tables) : Prop :=
  ∀ user ∈ t.users.rows, ∀ name ∈ user.2, t.roles.find name = t'.roles.find name

variable {db db' : Db} {t t' : Tables} {path : ApiPath} {input : EndpointInput} {e : IEndpoint}

theorem response_eq (db : Db) (path : ApiPath) (input : EndpointInput) :
    response db path input = (routeStep path input db.val).map Prod.fst := by
  rw [response]
  rcases hstep : routeStep path input db.val with error | ⟨out, o⟩
  · rw [(route_atomic path input).run_error hstep]
    rfl
  · obtain ⟨w, hrun, -⟩ := (route_atomic path input).run_ok hstep
    rw [hrun]
    rfl

theorem value_injective : Function.Injective Perm.value := by
  intro p q h
  exact (List.idxOf_inj (mem_all p)).mp h

theorem permsToJson_injective : Function.Injective permsToJson := by
  intro perms perms' h
  have hjson : Function.Injective fun p : Perm => Json.numberInteger p.value := by
    intro p q hpq
    exact value_injective (Int.ofNat.inj (Json.numberInteger.inj hpq))
  have hfilter := List.map_injective_iff.mpr hjson (Json.array.inj h)
  ext p
  have hmem : p ∈ Perm.all.filter (· ∈ perms) ↔ p ∈ Perm.all.filter (· ∈ perms') := by
    rw [hfilter]
  simpa [mem_all p] using hmem

theorem userToJson_eq_iff {row : Str × List Str} :
    userToJson (userRow t row) = userToJson (userRow t' row) ↔
      ∀ name ∈ row.2, (t.roles.find name).getD ∅ = (t'.roles.find name).getD ∅ := by
  have hrole : ∀ (name : Str) (perms perms' : Finset Perm),
      roleToJson ⟨name, perms⟩ = roleToJson ⟨name, perms'⟩ ↔ perms = perms' := by
    intro name perms perms'
    simp [roleToJson, permsToJson_injective.eq_iff]
  simp [userToJson, userRow, hrole]

theorem isSome_find_iff (h : DifferInPerms t t') (name : Str) :
    (t'.roles.find name).isSome ↔ (t.roles.find name).isSome := by
  have hnone := (t'.roles.find_eq_none_iff name).trans
    ((t.roles.find_eq_none_iff name).trans (by rw [h.roleNames])).symm
  rw [← Option.ne_none_iff_isSome, ← Option.ne_none_iff_isSome, not_iff_not]
  exact hnone

theorem getUsersStep_eq_iff (h : DifferInPerms db.val db'.val) :
    (getUsersStep db.val).map Prod.fst = (getUsersStep db'.val).map Prod.fst ↔
      SameHeldRoles db.val db'.val := by
  have hlist : (getUsersStep db.val).map Prod.fst = (getUsersStep db'.val).map Prod.fst ↔
      ∀ user ∈ db.val.users.rows,
        userToJson (userRow db.val user) = userToJson (userRow db'.val user) := by
    simp [getUsersStep, Except.map, output, h.users]
  rw [hlist]
  refine forall₂_congr fun user huser => ?_
  rw [userToJson_eq_iff]
  refine forall₂_congr fun name hname => ?_
  have hfind := (db.val.users.mem_rows_iff user.1 user.2).mp huser
  obtain ⟨perms, hperms⟩ := db.property.exists_role hfind hname
  obtain ⟨perms', hperms'⟩ := Option.isSome_iff_exists.mp
    ((isSome_find_iff h name).mpr (by simp [hperms]))
  simp [hperms, hperms']

theorem map_bind_congr {ε α β γ : Type} {x : Except ε α} {f f' : α → Except ε β} {g : β → γ}
    (h : ∀ a, (f a).map g = (f' a).map g) : (x >>= f).map g = (x >>= f').map g := by
  rcases x with error | a
  · rfl
  · exact h a

/-- The other endpoints do not read the roles. -/
theorem step_eq_of_differInPerms (h : DifferInPerms t t') (husers : e ≠ .getUsers)
    (hroles : e ≠ .getRoles) (input : EndpointInput) :
    (step e input t).map Prod.fst = (step e input t').map Prod.fst := by
  obtain ⟨roles, users, projects, workers, tasks⟩ := t
  obtain ⟨roles', users', projects', workers', tasks'⟩ := t'
  obtain ⟨-, rfl, rfl, rfl, rfl⟩ := h
  -- an endpoint that writes reads its fields, and then branches on what it finds
  cases e with
  | getUsers => exact absurd rfl husers
  | getRoles => exact absurd rfl hroles
  | addProject | addWorker =>
      apply map_bind_congr
      intro name
      rfl
  | addTask =>
      apply map_bind_congr
      intro name
      apply map_bind_congr
      intro project
      rcases projects'.find project with _ | projectName
      · rfl
      · rfl
  | assignTask =>
      apply map_bind_congr
      intro id
      apply map_bind_congr
      intro worker
      rcases tasks'.find id with _ | task
      · rfl
      · rcases workers'.find worker with _ | name
        · rfl
        · rfl
  | unassignTask =>
      apply map_bind_congr
      intro id
      rcases tasks'.find id with _ | task
      · rfl
      · rfl
  | delProject =>
      apply map_bind_congr
      intro id
      rcases projects'.find id with _ | name
      · rfl
      · rfl
  | _ => rfl

theorem metBy_getUsers (actor : Option Actor) :
    IEndpoint.getUsers.requirements.metBy actor = true :=
  (metBy_iff .getUsers actor).mpr (Admitted.of_anonymous (.inr (.inr ⟨rfl, rfl⟩)) actor)

theorem not_metBy_getRoles {actor : Option Actor} (h : MayNotViewRoles actor) :
    ¬ IEndpoint.getRoles.requirements.metBy actor = true := by
  rw [metBy_iff]
  rintro (⟨a, hactor, hadmin⟩ | ⟨a, hactor, hreqs⟩ | ⟨-, hreqs⟩)
  · exact (h a hactor).1 hadmin
  · exact (h a hactor).2 (hreqs (by decide))
  · revert hreqs
    decide

/-- Whoever may not view roles gets the same answer in both states, unless the
path is that of the users and some user holds a role that differs. -/
theorem response_eq_iff (h : DifferInPerms db.val db'.val) (hactor : MayNotViewRoles input.actor) :
    response db path input = response db' path input ↔
      (apiParse path = .ok (some (.object .getUsers)) → SameHeldRoles db.val db'.val) := by
  rw [response_eq, response_eq, ← matchedEndpoint_iff, routeStep, routeStep]
  rcases matchedEndpoint path with _ | e
  · simp
  · simp only [Option.some.injEq]
    by_cases husers : e = .getUsers
    · subst husers
      simp only [metBy_getUsers, ↓reduceIte, forall_const]
      exact getUsersStep_eq_iff h
    · simp only [husers, IsEmpty.forall_iff, iff_true]
      split
      · next hmet =>
          have hroles : e ≠ .getRoles := by
            rintro rfl
            exact not_metBy_getRoles hactor hmet
          exact step_eq_of_differInPerms h husers hroles input
      · rfl

/-- The database after a first start, had the administrators these permissions. -/
def administratorsWith (perms : Finset Perm) : Tables :=
  { readmeDb.val with roles := readmeDb.val.roles.set (str "administrator") perms }

/-- The database after a first start, had the administrators no permissions. -/
def powerlessDb : Db := ⟨administratorsWith ∅, by decide⟩

theorem differInPerms_powerlessDb : DifferInPerms readmeDb.val powerlessDb.val :=
  ⟨rfl, rfl, rfl, rfl, rfl⟩

theorem response_eq_iff_getProjects :
    response readmeDb [str "api", str "get_projects"] ⟨.null, none⟩ =
      response powerlessDb [str "api", str "get_projects"] ⟨.null, none⟩ := by
  refine (response_eq_iff differInPerms_powerlessDb (by simp [MayNotViewRoles])).mpr ?_
  intro hpath
  have hmatched : matchedEndpoint [str "api", str "get_projects"] = some .getUsers :=
    matchedEndpoint_iff.mpr hpath
  exact absurd hmatched (by decide)

/-- Anybody learns whether the administrators may do anything. -/
theorem get_users_shows_perms :
    DifferInPerms readmeDb.val powerlessDb.val ∧
      response readmeDb [str "api", str "get_users"] ⟨.null, none⟩ ≠
        response powerlessDb [str "api", str "get_users"] ⟨.null, none⟩ := by
  refine ⟨differInPerms_powerlessDb, fun h => ?_⟩
  have hmatched : matchedEndpoint [str "api", str "get_users"] = some .getUsers := rfl
  rw [response_eq, response_eq, routeStep, routeStep, hmatched] at h
  have hheld := (getUsersStep_eq_iff differInPerms_powerlessDb).mp h
  have hadministrator := hheld (str "oath2|xxxx", [str "administrator"]) (by decide)
    (str "administrator") (by simp)
  revert hadministrator
  decide

end MvcBackend.RoleVisibility
