import Mathlib.Data.Finset.Union
import MvcBackend.EndpointRefinement

/-!
The steps of the `Authenticator`: logging in reads the permissions of a stored
user, and the two bootstrap transactions add the rows that are missing.
-/

namespace MvcBackend.AuthenticatorRefinement

open MvcBackend.JsonValues
open MvcBackend.DataModel
open MvcBackend.Database
open MvcBackend.Authentication
open MvcBackend.Authentication.Authenticator
open MvcBackend.EndpointSteps
open MvcBackend.EndpointRefinement
open MvcBackend.Library.KeyedTable
open MvcBackend.Library.Transaction

variable {t : Tables}

/-- The union of the permissions of the roles with these names. -/
def grantedPerms (t : Tables) (roles : List Str) : Finset Perm :=
  roles.toFinset.biUnion fun name => (t.roles.find name).getD ∅

def userPerms (t : Tables) (subject : Str) : Option (Finset Perm) :=
  (t.users.find subject).map (grantedPerms t)

theorem mem_flattenRoles (roles : List Role) (p : Perm) :
    p ∈ flattenRoles roles ↔ ∃ role ∈ roles, p ∈ role.perms := by
  have h : ∀ (roles : List Role) (perms : Finset Perm),
      p ∈ roles.foldl (fun perms role => perms ∪ role.perms) perms ↔
        p ∈ perms ∨ ∃ role ∈ roles, p ∈ role.perms := by
    intro roles
    induction roles with
    | nil => simp
    | cons role roles ih =>
        intro perms
        simp [ih, or_assoc]
  simpa [flattenRoles] using h roles ∅

theorem flattenRoles_userRow (row : Str × List Str) :
    flattenRoles (userRow t row).roles = grantedPerms t row.2 := by
  ext p
  simp [mem_flattenRoles, userRow, grantedPerms]

theorem load_user (sound : ForeignKeys t) {subject : Str} {roles : List Str}
    (h : t.users.find subject = some roles) :
    Persistent.load t (⟨subject⟩ : UserID) = .ok (some (userRow t (subject, roles))) := by
  have hrow := loadUser_eq sound ((t.users.mem_rows_iff subject roles).mpr h)
  simp only at hrow
  simp [Persistent.load, h, hrow, Except.map]

theorem load_user_none {id : UserID} (h : t.users.find id.val = none) :
    Persistent.load t id = .ok none := by
  simp [Persistent.load, h]

theorem load_role {id : RoleID} {perms : Finset Perm} (h : t.roles.find id.val = some perms) :
    Persistent.load t id = .ok (some ⟨id.val, perms⟩) := by
  simp [Persistent.load, h]

theorem load_role_none {id : RoleID} (h : t.roles.find id.val = none) :
    Persistent.load t id = .ok none := by
  simp [Persistent.load, h]

/-- Only a stored user can log in. -/
def getPermsStep (subject : Str) (t : Tables) : Except Exc (Finset Perm) :=
  match userPerms t subject with
  | some perms => .ok perms
  | none => .error .alreadyInTransaction

theorem getPerms_observes (config : AuthConfig) (subject : Str) :
    Observes (getPerms config subject) (getPermsStep subject) := by
  apply Atomic.transaction
  intro t sound
  rw [getPermsStep, userPerms]
  cases huser : t.users.find subject with
  | some roles =>
      apply Concludes.bind (inside_find (load_user sound huser))
      simp only [Option.map_some, ← flattenRoles_userRow (subject, roles)]
      exact Concludes.pure _
  | none =>
      apply Concludes.bind (inside_find (load_user_none huser))
      exact Concludes.bind_error (Inside.transaction _)

def authStep (config : AuthConfig) (jwt : Jwt) (token : Str) (t : Tables) :
    Except Exc Actor := do
  let subject ← verifyAuth jwt config token
  let perms ← getPermsStep subject t
  return ⟨subject, perms⟩

theorem auth_observes (config : AuthConfig) (jwt : Jwt) (token : Str) :
    Observes (auth config jwt token) (authStep config jwt token) := by
  apply Observes.bind (Observes.ofExcept _)
  intro subject
  apply Observes.bind (getPerms_observes config subject)
  intro perms
  exact Observes.pure _

/-! ### The bootstrap -/

section

variable (config : AuthConfig)

def bootstrapAdminTables (t : Tables) : Tables :=
  { t with
    roles := t.roles.insertNew config.adminRole.val {.administrate}
    users := t.users.insertNew config.bootstrapAdminUser.val [config.adminRole.val] }

def bootstrapDefaultTables (t : Tables) : Tables :=
  { t with roles := t.roles.insertNew config.defaultRole.val ∅ }

def constructTables (t : Tables) : Tables :=
  bootstrapDefaultTables config (bootstrapAdminTables config t)

theorem foreignKeys_insertRole (sound : ForeignKeys t) (role : Str) (perms : Finset Perm) :
    ForeignKeys { t with roles := t.roles.insertNew role perms } := by
  refine .of_find (fun _ _ huser _ hname => ?_) (fun _ _ htask => ?_) fun _ _ htask w hw => ?_
  · exact Table.isSome_find_insertNew.mpr (.inr (sound.isSome_role huser hname))
  · exact sound.isSome_project htask
  · exact sound.isSome_worker htask hw

theorem foreignKeys_insertUser (sound : ForeignKeys t) {role : Str}
    (hrole : (t.roles.find role).isSome) (user : Str) :
    ForeignKeys { t with users := t.users.insertNew user [role] } := by
  refine .of_find (fun _ _ huser name hname => ?_) (fun _ _ htask => ?_)
    fun _ _ htask w hw => ?_
  · rcases Table.of_find_insertNew huser with hold | ⟨rfl, rfl⟩
    · exact sound.isSome_role hold hname
    · obtain rfl : name = role := by simpa using hname
      exact hrole
  · exact sound.isSome_project htask
  · exact sound.isSome_worker htask hw

theorem inside_persistRole {role : Role} (fresh : t.roles.find role.name = none) :
    Inside t (persistOwn role)
      (.ok (some ⟨role.name⟩, { t with roles := t.roles.insertNew role.name role.perms })) := by
  apply Inside.access
  simp [OwnId.insert, fresh, Table.insertNew_of_none]

theorem inside_persistUser {user : User} (fresh : t.users.find user.id = none) :
    Inside t (persistOwn user)
      (.ok (some ⟨user.id⟩,
        { t with users := t.users.insertNew user.id (user.roles.map Role.name) })) := by
  apply Inside.access
  simp [OwnId.insert, fresh, Table.insertNew_of_none]

/-- The role is there afterwards, with whatever permissions it has. -/
theorem inside_adminRole :
    ∃ found, Persistent.load t config.adminRole = .ok found ∧
      ∃ perms, Inside t
        (match found with
          | some role => return role
          | none => do
              let role : Role := ⟨config.adminRole.val, {.administrate}⟩
              let _ ← persistOwn role
              return role : App Role)
        (.ok (⟨config.adminRole.val, perms⟩,
          { t with roles := t.roles.insertNew config.adminRole.val {.administrate} })) := by
  cases hrole : t.roles.find config.adminRole.val with
  | none =>
      have fresh : t.roles.find (⟨config.adminRole.val, {.administrate}⟩ : Role).name = none := hrole
      refine ⟨none, load_role_none hrole, {.administrate}, ?_⟩
      exact (inside_persistRole fresh).bind (Inside.pure _)
  | some perms =>
      rw [t.roles.insertNew_of_some _ hrole]
      refine ⟨some ⟨config.adminRole.val, perms⟩, load_role hrole, perms, ?_⟩
      exact Inside.pure _

theorem inside_adminUser (sound : ForeignKeys t) (perms : Finset Perm) :
    ∃ found, Persistent.load t config.bootstrapAdminUser = .ok found ∧
      ∃ id, Inside t
        (match found with
          | some _ => return none
          | none => persistOwn (⟨config.bootstrapAdminUser.val,
              [⟨config.adminRole.val, perms⟩]⟩ : User) : App (Option UserID))
        (.ok (id, { t with
          users := t.users.insertNew config.bootstrapAdminUser.val [config.adminRole.val] })) := by
  cases huser : t.users.find config.bootstrapAdminUser.val with
  | none =>
      have fresh : t.users.find (⟨config.bootstrapAdminUser.val,
        [⟨config.adminRole.val, perms⟩]⟩ : User).id = none := huser
      exact ⟨none, load_user_none huser, _, inside_persistUser fresh⟩
  | some roles =>
      rw [t.users.insertNew_of_some _ huser]
      exact ⟨_, load_user sound huser, none, Inside.pure _⟩

theorem bootstrapAdmin_atomic :
    Atomic (bootstrapAdmin config) fun t => .ok ((), some (bootstrapAdminTables config t)) := by
  apply Atomic.transaction
  intro t sound
  obtain ⟨foundRole, hfindRole, perms, hrole⟩ := inside_adminRole (t := t) config
  have sound' := foreignKeys_insertRole sound config.adminRole.val {.administrate}
  obtain ⟨foundUser, hfindUser, id, huser⟩ := inside_adminUser config sound' perms
  apply Concludes.bind (inside_find hfindRole)
  apply Concludes.bind hrole
  apply Concludes.bind (inside_find hfindUser)
  apply Concludes.bind huser
  apply Concludes.commit
  apply foreignKeys_insertUser sound'
  simp [Table.find_insertNew]

theorem foreignKeys_constructTables (sound : ForeignKeys t) :
    ForeignKeys (constructTables config t) := by
  apply foreignKeys_insertRole
  apply foreignKeys_insertUser (foreignKeys_insertRole sound config.adminRole.val {.administrate})
  simp [Table.find_insertNew]

def readmeDb : Db :=
  ⟨constructTables AuthConfig.readme Tables.empty,
    foreignKeys_constructTables AuthConfig.readme foreignKeys_empty⟩

/-- Nothing is committed where the role is there. -/
theorem bootstrapDefault_atomic :
    Atomic (bootstrapDefault config) fun t => .ok ((),
      if (t.roles.find config.defaultRole.val).isSome then none
      else some (bootstrapDefaultTables config t)) := by
  apply Atomic.transaction
  intro t sound
  cases hrole : t.roles.find config.defaultRole.val with
  | none =>
      have fresh : t.roles.find (⟨config.defaultRole.val, ∅⟩ : Role).name = none := hrole
      apply Concludes.bind (inside_find (load_role_none hrole))
      apply Concludes.bind (inside_persistRole fresh)
      exact Concludes.commit (foreignKeys_insertRole sound _ _)
  | some perms =>
      apply Concludes.bind (inside_find (load_role hrole))
      exact Concludes.pure _

/-- The constructor makes both steps, or a fault stops it before or between them. -/
theorem construct_cases {w : AppWorld} (hw : w.current = none) :
    match construct config w with
    | .ok _ w' => w'.store.val = constructTables config w.store.val
    | .error e w' =>
        (w'.store.val = w.store.val ∨
          w'.store.val = bootstrapAdminTables config w.store.val) ∧
        ∃ fault, some fault ∈ w.faults ∧ e = .databaseException fault := by
  rw [construct, bind_apply]
  rcases hrun : bootstrapAdmin config w with ⟨u, w'⟩ | ⟨e, w'⟩
  · obtain ⟨hcurrent, o, hstep, hsettled⟩ := (bootstrapAdmin_atomic config).of_ok hw hrun
    cases hstep
    have hstore : w'.store.val = bootstrapAdminTables config w.store.val := hsettled.1
    simp only
    rcases hrun' : bootstrapDefault config w' with ⟨u', w''⟩ | ⟨e, w''⟩
    · obtain ⟨-, o, hstep, hsettled'⟩ := (bootstrapDefault_atomic config).of_ok hcurrent hrun'
      rw [hstore] at hstep
      show w''.store.val = _
      split at hstep
      · next hpresent =>
          cases hstep
          obtain ⟨perms, hperms⟩ := Option.isSome_iff_exists.mp hpresent
          rw [hsettled'.store, hstore, constructTables, bootstrapDefaultTables,
            Table.insertNew_of_some _ _ hperms]
      · cases hstep
        exact hsettled'.1
    · obtain ⟨-, hsame, hraised⟩ := (bootstrapDefault_atomic config).of_error hcurrent hrun'
      exact ⟨.inr (by rw [hsame.store, hstore]),
        (hraised.mono hsettled.faults).resolve_left (by simp)⟩
  · obtain ⟨-, hsame, hraised⟩ := (bootstrapAdmin_atomic config).of_error hw hrun
    exact ⟨.inl (congrArg Subtype.val hsame.store), hraised.resolve_left (by simp)⟩

theorem construct_idle (db : Db) :
    ∃ w, construct config (World.idle db []) = .ok () w ∧
      w.store.val = constructTables config db.val := by
  have h := construct_cases config (World.idle_current db [])
  cases hrun : construct config (World.idle db []) with
  | ok u w =>
      rw [hrun] at h
      exact ⟨w, rfl, h⟩
  | error e w =>
      rw [hrun] at h
      obtain ⟨-, fault, hmem, -⟩ := h
      simp [World.idle] at hmem

end

end MvcBackend.AuthenticatorRefinement
