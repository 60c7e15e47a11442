import MvcBackend.FirstLogin
import MvcBackend.System

/-!
Under one configuration no run of the system hands out a permission: roles and
users stay what the bootstrap made them.
-/

namespace MvcBackend.PrivilegeInvariant

open MvcBackend.JsonValues
open MvcBackend.DataModel
open MvcBackend.Database
open MvcBackend.Authentication
open MvcBackend.HttpHandler
open MvcBackend.AuthenticatorRefinement
open MvcBackend.FirstLogin
open MvcBackend.System
open MvcBackend.Library.KeyedTable
open MvcBackend.Library.Transaction

variable (config : AuthConfig)

structure Confined (t : Tables) : Prop where
  roles : ∀ role perms, t.roles.find role = some perms →
    (role = config.adminRole.val ∧ perms = {.administrate}) ∨
      (role = config.defaultRole.val ∧ perms = ∅)
  users : ∀ user roles, t.users.find user = some roles →
    user = config.bootstrapAdminUser.val ∧ roles = [config.adminRole.val]

structure Present (t : Tables) : Prop where
  adminRole : (t.roles.find config.adminRole.val).isSome
  defaultRole : (t.roles.find config.defaultRole.val).isSome
  adminUser : (t.users.find config.bootstrapAdminUser.val).isSome

variable {config} {t t' : Tables}

theorem confined_empty : Confined config Tables.empty := by
  constructor
  · intro role perms h
    simp [Tables.empty] at h
  · intro user roles h
    simp [Tables.empty] at h

theorem Confined.of_frame (h : Confined config t) (hroles : t'.roles = t.roles)
    (husers : t'.users = t.users) : Confined config t' := by
  constructor
  · simpa only [hroles] using h.roles
  · simpa only [husers] using h.users

theorem Present.of_frame (h : Present config t) (hroles : t'.roles = t.roles)
    (husers : t'.users = t.users) : Present config t' := by
  constructor
  · simpa only [hroles] using h.adminRole
  · simpa only [hroles] using h.defaultRole
  · simpa only [husers] using h.adminUser

theorem Confined.bootstrapAdmin (h : Confined config t) :
    Confined config (bootstrapAdminTables config t) := by
  constructor
  · intro role perms hfind
    rcases Table.of_find_insertNew hfind with hold | ⟨rfl, rfl⟩
    · exact h.roles role perms hold
    · exact .inl ⟨rfl, rfl⟩
  · intro user roles hfind
    rcases Table.of_find_insertNew hfind with hold | ⟨rfl, rfl⟩
    · exact h.users user roles hold
    · exact ⟨rfl, rfl⟩

theorem Confined.bootstrapDefault (h : Confined config t) :
    Confined config (bootstrapDefaultTables config t) := by
  constructor
  · intro role perms hfind
    rcases Table.of_find_insertNew hfind with hold | ⟨rfl, rfl⟩
    · exact h.roles role perms hold
    · exact .inr ⟨rfl, rfl⟩
  · exact h.users

theorem Present.bootstrapAdmin (h : Present config t) :
    Present config (bootstrapAdminTables config t) := by
  constructor
  · exact Table.isSome_find_insertNew.mpr (.inl rfl)
  · exact Table.isSome_find_insertNew.mpr (.inr h.defaultRole)
  · exact Table.isSome_find_insertNew.mpr (.inl rfl)

theorem present_construct (t : Tables) : Present config (constructTables config t) := by
  constructor
  · apply Table.isSome_find_insertNew.mpr
    exact .inr (Table.isSome_find_insertNew.mpr (.inl rfl))
  · exact Table.isSome_find_insertNew.mpr (.inl rfl)
  · exact Table.isSome_find_insertNew.mpr (.inl rfl)

def StartsWith (config : AuthConfig) (events : List Event) : Prop :=
  ∀ config' faults, .start config' faults ∈ events → config' = config

variable {libraries : Libraries}

theorem confined_next {s : ServerState} {event : Event} (h : Confined config s.db.val)
    (hevent : ∀ config' faults, event = .start config' faults → config' = config) :
    Confined config (next libraries s event).db.val := by
  apply next_invariant libraries Confined.of_frame _ h
  intro config' faults heq
  obtain rfl := hevent config' faults heq
  exact ⟨h.bootstrapAdmin, h.bootstrapAdmin.bootstrapDefault⟩

theorem present_next {s : ServerState} {event : Event} (h : Present config s.db.val)
    (hevent : ∀ config' faults, event = .start config' faults → config' = config) :
    Present config (next libraries s event).db.val := by
  apply next_invariant libraries Present.of_frame _ h
  intro config' faults heq
  obtain rfl := hevent config' faults heq
  exact ⟨h.bootstrapAdmin, present_construct _⟩

theorem StartsWith.left {before after : List Event} (h : StartsWith config (before ++ after)) :
    StartsWith config before :=
  fun config' faults hmem => h config' faults (List.mem_append_left after hmem)

theorem StartsWith.last {events : List Event} {event : Event}
    (h : StartsWith config (events ++ [event])) :
    ∀ config' faults, event = .start config' faults → config' = config := by
  rintro config' faults rfl
  exact h config' faults (by simp)

theorem run_concat (events : List Event) (event : Event) :
    run libraries (events ++ [event]) = next libraries (run libraries events) event := by
  simp [run_append]

theorem confined_run {events : List Event} (h : StartsWith config events) :
    Confined config (run libraries events).db.val := by
  induction events using List.reverseRecOn with
  | nil => exact confined_empty
  | append_singleton events event ih =>
      rw [run_concat]
      exact confined_next (ih h.left) h.last

/-- A process that is up has made its bootstrap. -/
theorem present_of_server {events : List Event} (h : StartsWith config events)
    (hserver : (run libraries events).server.isSome) :
    Present config (run libraries events).db.val := by
  induction events using List.reverseRecOn with
  | nil => simp [run] at hserver
  | append_singleton events event ih =>
      rw [run_concat] at hserver ⊢
      rcases event with ⟨config', faults⟩ | ⟨req, faults⟩
      · obtain rfl := h.last config' faults rfl
        rcases next_start_cases libraries (run libraries events) config' faults with
          ⟨-, hdb⟩ | ⟨hdown, -⟩
        · rw [hdb]
          exact present_construct _
        · simp [hdown] at hserver
      · obtain ⟨hsame, -⟩ :=
          next_request_cases libraries (run libraries events) req faults
        rw [hsame] at hserver
        exact present_next (ih h.left hserver) h.last

theorem present_run {before after : List Event} (h : StartsWith config (before ++ after))
    (hserver : (run libraries before).server.isSome) :
    Present config (run libraries (before ++ after)).db.val := by
  induction after using List.reverseRecOn with
  | nil =>
      rw [List.append_nil] at h ⊢
      exact present_of_server h hserver
  | append_singleton after event ih =>
      rw [← List.append_assoc] at h ⊢
      rw [run_concat]
      exact present_next (ih h.left) h.last

/-- What the tables of roles and users hold once the process has been up. A row
of any other user would be one that a login made. -/
structure Bootstrapped (config : AuthConfig) (libraries : Libraries) (events : List Event)
    (t : Tables) : Prop where
  roles : ∀ role, t.roles.find role =
    if role = config.adminRole.val then some {.administrate}
    else if role = config.defaultRole.val then some ∅ else none
  adminUser : t.users.find config.bootstrapAdminUser.val = some [config.adminRole.val]
  users : ∀ user roles, user ≠ config.bootstrapAdminUser.val →
    t.users.find user = some roles → roles = [config.defaultRole.val] ∧
      ∃ req faults token, .request req faults ∈ events ∧ getJwt req = some token ∧
        Authentication.verifyAuth libraries.jwt config token = .ok user

theorem bootstrapped_of_confined {events : List Event} (hne : config.adminRole ≠ config.defaultRole)
    (hconfined : Confined config t) (hpresent : Present config t) :
    Bootstrapped config libraries events t := by
  have hnames : config.defaultRole.val ≠ config.adminRole.val := fun h => hne (RoleID.ext h.symm)
  constructor
  · intro role
    cases hfind : t.roles.find role with
    | none =>
        have hadmin : role ≠ config.adminRole.val := by
          rintro rfl
          simpa [hfind] using hpresent.adminRole
        have hdefault : role ≠ config.defaultRole.val := by
          rintro rfl
          simpa [hfind] using hpresent.defaultRole
        simp [hadmin, hdefault]
    | some perms =>
        rcases hconfined.roles role perms hfind with ⟨rfl, rfl⟩ | ⟨rfl, rfl⟩
        · simp
        · simp [hnames]
  · obtain ⟨roles, hroles⟩ := Option.isSome_iff_exists.mp hpresent.adminUser
    rw [hroles, (hconfined.users _ roles hroles).2]
  · intro user roles huser hfind
    exact absurd (hconfined.users user roles hfind).1 huser

theorem Bootstrapped.userPerms {events : List Event} (h : Bootstrapped config libraries events t) :
    userPerms t config.bootstrapAdminUser.val = some {.administrate} := by
  simp [AuthenticatorRefinement.userPerms, h.adminUser, grantedPerms, h.roles]

theorem row_of_auth {jwt : Jwt} {token : Str} {db : Db} {faults : List (Option Str)}
    {actor : Actor} {w : AppWorld}
    (h : Authenticator.auth config jwt token (World.idle db faults) = .ok actor w) :
    ∃ roles, db.val.users.find actor.uniqueId = some roles := by
  obtain ⟨-, hauth, -⟩ := (auth_observes config jwt token).of_ok rfl h
  obtain ⟨subject, -, hauth⟩ := bind_eq_ok.mp hauth
  obtain ⟨perms, hperms, hactor⟩ := bind_eq_ok.mp hauth
  cases hactor
  simp only [getPermsStep] at hperms
  split at hperms
  · next found hfound =>
      obtain ⟨roles, hroles, -⟩ := Option.map_eq_some_iff.mp hfound
      exact ⟨roles, hroles⟩
  · cases hperms

/-- Once a start has come to its end, every state of the run is bootstrapped: a
row keeps its permissions, and only the administrator has any. -/
theorem no_escalation {before after : List Event} (hne : config.adminRole ≠ config.defaultRole)
    (hstarts : StartsWith config (before ++ after))
    (hstarted : (run libraries before).server.isSome) :
    let events := before ++ after
    let db := (run libraries events).db
    Bootstrapped config libraries events db.val ∧
    (∀ subject roles, (run libraries before).db.val.users.find subject = some roles →
      ∃ perms,
        Authenticator.getPerms config subject (World.idle (run libraries before).db []) =
          .ok perms (World.idle (run libraries before).db []) ∧
        Authenticator.getPerms config subject (World.idle db []) =
          .ok perms (World.idle db [])) ∧
    ∀ token faults actor w,
      Authenticator.auth config libraries.jwt token (World.idle db faults) = .ok actor w →
      actor.perms ≠ ∅ → actor.uniqueId = config.bootstrapAdminUser.val := by
  intro events db
  have hconfined : Confined config db.val := confined_run hstarts
  have hboot : Bootstrapped config libraries events db.val :=
    bootstrapped_of_confined hne hconfined (present_run hstarts hstarted)
  have hboot' : Bootstrapped config libraries before (run libraries before).db.val :=
    bootstrapped_of_confined hne (confined_run hstarts.left)
      (present_of_server hstarts.left hstarted)
  refine ⟨hboot, ?_, ?_⟩
  · intro subject roles hrow
    obtain ⟨rfl, -⟩ := (confined_run hstarts.left).users subject roles hrow
    have hlogin := getPerms_observes config config.bootstrapAdminUser.val
    refine ⟨{.administrate}, hlogin.run_ok ?_, hlogin.run_ok ?_⟩
    · simp [getPermsStep, hboot'.userPerms]
    · simp [getPermsStep, hboot.userPerms]
  · intro token faults actor w hauth _
    obtain ⟨roles, hrow⟩ := row_of_auth hauth
    exact (hconfined.users _ _ hrow).1

/-- A POST of somebody else. -/
def intruding (path : String) : HttpRequest where
  method := str "POST"
  path := str path
  headers := [(str "Authorization", str "Bearer eve")]
  body := []

/-- A start with the values of the README, two requests of somebody else, and a start
that the database cuts short. -/
theorem no_escalation_readme :
    let events := [.start AuthConfig.readme [], .request (intruding "/api/get_roles") [],
      .request (intruding "/api/add_project") [],
      .start AuthConfig.readme [some (str "disk full")]]
    Bootstrapped AuthConfig.readme trustingLibraries events (run trustingLibraries events).db.val := by
  have hne : AuthConfig.readme.adminRole ≠ AuthConfig.readme.defaultRole := by decide
  have hstarts : StartsWith AuthConfig.readme
      ([.start AuthConfig.readme []] ++ [.request (intruding "/api/get_roles") [],
        .request (intruding "/api/add_project") [],
        .start AuthConfig.readme [some (str "disk full")]]) := by
    intro config' faults h
    simp only [List.cons_append, List.nil_append, List.mem_cons, List.not_mem_nil, or_false,
      Event.start.injEq, reduceCtorEq, false_or] at h
    rcases h with ⟨rfl, -⟩ | ⟨rfl, -⟩ <;> rfl
  have hstarted : (run trustingLibraries [.start AuthConfig.readme []]).server.isSome := by
    rw [run, List.foldl_cons, List.foldl_nil, next_start_idle]
    rfl
  exact (no_escalation hne hstarts hstarted).1

end MvcBackend.PrivilegeInvariant
