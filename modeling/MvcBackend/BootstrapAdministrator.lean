import MvcBackend.System

/-!
What a start makes of the bootstrap administrator. The README gives the admin
role to that user upon any login, but a start gives roles to new rows only and
permissions to new roles only.
-/

namespace MvcBackend.BootstrapAdministrator

open MvcBackend.JsonValues
open MvcBackend.DataModel
open MvcBackend.Database
open MvcBackend.Authentication
open MvcBackend.HttpHandler
open MvcBackend.AuthenticatorRefinement
open MvcBackend.System
open MvcBackend.Library.KeyedTable
open MvcBackend.Library.Transaction

def IsAdministrator (config : AuthConfig) (t : Tables) : Prop :=
  ∃ roles, t.users.find config.bootstrapAdminUser.val = some roles ∧
    config.adminRole.val ∈ roles ∧ .administrate ∈ grantedPerms t roles

/-- The user is new and a role of that name, if there is one, has full
permissions; or the user is there already, with the role and the permissions. -/
def CanBootstrap (config : AuthConfig) (t : Tables) : Prop :=
  match t.users.find config.bootstrapAdminUser.val with
  | none => ∀ perms, t.roles.find config.adminRole.val = some perms → .administrate ∈ perms
  | some roles => config.adminRole.val ∈ roles ∧ .administrate ∈ grantedPerms t roles

variable {config : AuthConfig} {t : Tables}

theorem constructTables_user (config : AuthConfig) (t : Tables) :
    (constructTables config t).users.find config.bootstrapAdminUser.val =
      some ((t.users.find config.bootstrapAdminUser.val).getD [config.adminRole.val]) := by
  simp [constructTables, bootstrapDefaultTables, bootstrapAdminTables, Table.find_insertNew]

theorem constructTables_adminRole (config : AuthConfig) (t : Tables) :
    (constructTables config t).roles.find config.adminRole.val =
      some ((t.roles.find config.adminRole.val).getD {.administrate}) := by
  apply Table.find_insertNew_of_some
  simp [bootstrapAdminTables, Table.find_insertNew]

theorem grantedPerms_constructTables (sound : ForeignKeys t) {user : Str} {roles : List Str}
    (huser : t.users.find user = some roles) :
    grantedPerms (constructTables config t) roles = grantedPerms t roles := by
  apply Finset.biUnion_congr rfl
  intro name hname
  obtain ⟨perms, hperms⟩ := sound.exists_role huser (List.mem_toFinset.mp hname)
  have hkept : (constructTables config t).roles.find name = some perms :=
    Table.find_insertNew_of_some (Table.find_insertNew_of_some hperms)
  rw [hkept, hperms]

theorem isAdministrator_constructTables (sound : ForeignKeys t) :
    IsAdministrator config (constructTables config t) ↔ CanBootstrap config t := by
  rw [IsAdministrator, CanBootstrap, constructTables_user]
  cases huser : t.users.find config.bootstrapAdminUser.val with
  | none =>
      cases hrole : t.roles.find config.adminRole.val with
      | none => simp [grantedPerms, constructTables_adminRole, hrole]
      | some perms => simp [grantedPerms, constructTables_adminRole, hrole]
  | some roles => simp [grantedPerms_constructTables sound huser]

/-- After any run, a start makes the bootstrap user an administrator if and
only if it could. -/
theorem bootstrap_administrator_iff {libraries : Libraries} {events : List Event}
    {faults : List (Option Str)} {w : AppWorld}
    (hstart : Authenticator.construct config (World.idle (run libraries events).db faults) =
      .ok () w) :
    IsAdministrator config w.store.val ↔ CanBootstrap config (run libraries events).db.val := by
  have h := construct_cases config (World.idle_current (run libraries events).db faults)
  rw [hstart] at h
  simp only at h
  rw [h]
  exact isAdministrator_constructTables (run libraries events).db.property

def renamedAdminRole : AuthConfig := { AuthConfig.readme with adminRole := ⟨str "root"⟩ }

/-- A start with another admin role comes first. -/
theorem bootstrap_administrator_readme :
    let db := (run trustingLibraries [.start renamedAdminRole []]).db
    ∃ w, Authenticator.construct AuthConfig.readme (World.idle db []) = .ok () w ∧
      (IsAdministrator AuthConfig.readme w.store.val ↔ CanBootstrap AuthConfig.readme db.val) := by
  intro db
  obtain ⟨w, hrun, -⟩ := construct_idle AuthConfig.readme db
  exact ⟨w, hrun, bootstrap_administrator_iff hrun⟩

/-- Restarted with another admin role, the bootstrap user does not get it. -/
theorem renamed_admin_role_not_held :
    ∃ w, Authenticator.construct renamedAdminRole
        (World.idle (run trustingLibraries [.start AuthConfig.readme []]).db []) = .ok () w ∧
      ¬ IsAdministrator renamedAdminRole w.store.val := by
  obtain ⟨w, hrun, hstore⟩ := construct_idle renamedAdminRole
    (run trustingLibraries [.start AuthConfig.readme []]).db
  refine ⟨w, hrun, ?_⟩
  rw [hstore, run_start_db,
    isAdministrator_constructTables (foreignKeys_constructTables _ foreignKeys_empty), CanBootstrap]
  have huser := constructTables_user AuthConfig.readme Tables.empty
  simp only [renamedAdminRole, huser]
  rintro ⟨hrole, -⟩
  revert hrole
  decide

end MvcBackend.BootstrapAdministrator
