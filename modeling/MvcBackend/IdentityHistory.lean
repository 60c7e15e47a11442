import MvcBackend.AnsweredRuns

/-!
The history of the Role and User tables under any configurations: they hold the
rows of the bootstrap transactions that went through, the first of each name.
-/

namespace MvcBackend.IdentityHistory

open MvcBackend.JsonValues
open MvcBackend.DataModel
open MvcBackend.Database
open MvcBackend.Authentication
open MvcBackend.Authentication.Authenticator
open MvcBackend.HttpHandler
open MvcBackend.AuthenticatorRefinement
open MvcBackend.System
open MvcBackend.AnsweredRuns
open MvcBackend.Library.KeyedTable
open MvcBackend.Library.Machines
open MvcBackend.Library.Transaction

/-- A bootstrap transaction, and the configuration it was made under. -/
inductive Bootstrap where
  | admin (config : AuthConfig)
  | default (config : AuthConfig)

namespace Bootstrap

def roleRow : Bootstrap → Str × Finset Perm
  | admin config => (config.adminRole.val, {.administrate})
  | default config => (config.defaultRole.val, ∅)

def userRow : Bootstrap → Option (Str × List Str)
  | admin config => some (config.bootstrapAdminUser.val, [config.adminRole.val])
  | default _ => none

end Bootstrap

/-- The transactions of a start that go through: none, the first, or both. -/
def bootstraps (s : ServerState) : Event → List Bootstrap
  | .request _ _ => []
  | .start config faults =>
      match bootstrapAdmin config (World.idle s.db faults) with
      | .error _ _ => []
      | .ok _ w =>
          match bootstrapDefault config w with
          | .error _ _ => [.admin config]
          | .ok _ _ => [.admin config, .default config]

/-- The server, watched for its bootstrap transactions. -/
def watched : Machine ServerState Moment (List Bootstrap) where
  next := server.next
  answer s moment := bootstraps s moment.event

def bootstrapLog (moments : List Moment) : List Bootstrap :=
  (watched.transcript pristine moments).flatMap Prod.snd

/-- The tables of roles and users are what these transactions inserted. -/
structure Records (log : List Bootstrap) (t : Tables) : Prop where
  roles : t.roles = .gather (log.map Bootstrap.roleRow)
  users : t.users = .gather (log.filterMap Bootstrap.userRow)

variable {log : List Bootstrap} {t t' : Tables}

theorem records_pristine : Records [] pristine.db.val := ⟨rfl, rfl⟩

theorem Records.of_frame (h : Records log t) (hroles : t'.roles = t.roles)
    (husers : t'.users = t.users) : Records log t' :=
  ⟨hroles.trans h.roles, husers.trans h.users⟩

theorem Records.admin (h : Records log t) (config : AuthConfig) :
    Records (log ++ [.admin config]) (bootstrapAdminTables config t) where
  roles := by
    rw [List.map_append, Table.gather_append, ← h.roles]
    rfl
  users := by
    rw [List.filterMap_append, Table.gather_append, ← h.users]
    rfl

theorem Records.default (h : Records log t) (config : AuthConfig) :
    Records (log ++ [.default config]) (bootstrapDefaultTables config t) where
  roles := by
    rw [List.map_append, Table.gather_append, ← h.roles]
    rfl
  users := by
    rw [List.filterMap_append, Table.gather_append, ← h.users]
    rfl

theorem bootstrapDefault_store {config : AuthConfig} {w w' : AppWorld} (hw : w.current = none)
    (hrun : bootstrapDefault config w = .ok () w') :
    w'.store.val = bootstrapDefaultTables config w.store.val := by
  obtain ⟨-, o, hstep, hsettled⟩ := (bootstrapDefault_atomic config).of_ok hw hrun
  split at hstep
  · next hpresent =>
      cases hstep
      rw [hsettled.store, bootstrapDefaultTables, Table.insertNew_of_isSome _ hpresent]
  · cases hstep
    exact hsettled.1

theorem Records.start {s : ServerState} (h : Records log s.db.val) (libraries : Libraries)
    (config : AuthConfig) (faults : List (Option Str)) :
    Records (log ++ bootstraps s (.start config faults))
      (next libraries s (.start config faults)).db.val := by
  simp only [bootstraps, next, construct, bind_apply]
  rcases hadmin : bootstrapAdmin config (World.idle s.db faults) with ⟨u, w⟩ | ⟨e, w⟩
  · obtain ⟨hcurrent, o, hstep, hsettled⟩ :=
      (bootstrapAdmin_atomic config).of_ok (World.idle_current _ _) hadmin
    cases hstep
    have hstore : w.store.val = bootstrapAdminTables config s.db.val := hsettled.1
    have hrecords := h.admin config
    simp only
    rcases hdefault : bootstrapDefault config w with ⟨u', w'⟩ | ⟨e, w'⟩
    · have hstore' := bootstrapDefault_store hcurrent hdefault
      simp only
      rw [hstore', hstore]
      simpa using hrecords.default config
    · obtain ⟨-, hsame, -⟩ := (bootstrapDefault_atomic config).of_error hcurrent hdefault
      simp only
      rw [hsame.store, hstore]
      exact hrecords
  · obtain ⟨-, hsame, -⟩ :=
      (bootstrapAdmin_atomic config).of_error (World.idle_current _ _) hadmin
    simp only [List.append_nil]
    rw [hsame.store]
    exact h

theorem Records.next {s : ServerState} (h : Records log s.db.val) (moment : Moment) :
    Records (log ++ watched.answer s moment) (watched.next s moment).db.val := by
  obtain ⟨libraries, event⟩ := moment
  rcases event with ⟨config, faults⟩ | ⟨req, faults⟩
  · exact h.start libraries config faults
  · obtain ⟨hroles, husers⟩ := next_request_frame libraries s req faults
    have hlog : log ++ watched.answer s ⟨libraries, .request req faults⟩ = log := List.append_nil log
    rw [hlog]
    exact h.of_frame hroles husers

theorem records_run (moments : List Moment) :
    Records (bootstrapLog moments) (server.run pristine moments).db.val :=
  watched.log_invariant (P := fun log (s : ServerState) => Records log s.db.val)
    (fun _ _ moment h => h.next moment) records_pristine moments

/-- The first row of a list that is under this key. -/
def firstUnder {α : Type} (key : Str) (rows : List (Str × α)) : Option α :=
  (rows.find? fun row => row.1 = key).map Prod.snd

theorem exists_role_of_userRow {user : Str} {roles : List Str}
    (h : firstUnder user (log.filterMap Bootstrap.userRow) = some roles) :
    ∃ role, roles = [role] := by
  obtain ⟨row, hfind, rfl⟩ := Option.map_eq_some_iff.mp h
  obtain ⟨bootstrap, -, hrow⟩ := List.mem_filterMap.mp (List.mem_of_find?_eq_some hfind)
  cases bootstrap with
  | admin config =>
      obtain rfl := Option.some.inj hrow
      exact ⟨_, rfl⟩
  | default config => cases hrow

theorem Records.userPerms_eq_some_iff (h : Records log t) (sound : ForeignKeys t) {subject : Str}
    {perms : Finset Perm} :
    userPerms t subject = some perms ↔
      ∃ role, firstUnder subject (log.filterMap Bootstrap.userRow) = some [role] ∧
        firstUnder role (log.map Bootstrap.roleRow) = some perms := by
  have hroles : ∀ role, t.roles.find role = firstUnder role (log.map Bootstrap.roleRow) :=
    fun role => h.roles ▸ Table.find_gather _ role
  have husers : ∀ user, t.users.find user = firstUnder user (log.filterMap Bootstrap.userRow) :=
    fun user => h.users ▸ Table.find_gather _ user
  simp only [← hroles, ← husers]
  constructor
  · intro hperms
    obtain ⟨roles, hrow, hgranted⟩ := Option.map_eq_some_iff.mp hperms
    obtain ⟨role, rfl⟩ := exists_role_of_userRow ((husers subject).symm.trans hrow)
    obtain ⟨perms', hperms'⟩ := sound.exists_role hrow List.mem_cons_self
    refine ⟨role, hrow, ?_⟩
    rw [hperms', ← hgranted]
    simp [grantedPerms, hperms']
  · rintro ⟨role, hrow, hperms⟩
    simp [userPerms, hrow, grantedPerms, hperms]

/-- Whatever configurations a run goes through and wherever a start is cut
short: the rows of roles and users are, in order, those that the bootstrap
transactions asked for, the first for each name, and no request adds or changes
one. So whoever logs in gets what the first transaction that named that user,
and the first that named its role, made of it. -/
theorem identity_history (moments : List Moment) :
    let log := bootstrapLog moments
    let db := (server.run pristine moments).db
    db.val.roles = .gather (log.map Bootstrap.roleRow) ∧
    db.val.users = .gather (log.filterMap Bootstrap.userRow) ∧
    ∀ config subject perms,
      getPerms config subject (World.idle db []) = .ok perms (World.idle db []) ↔
        ∃ role, firstUnder subject (log.filterMap Bootstrap.userRow) = some [role] ∧
          firstUnder role (log.map Bootstrap.roleRow) = some perms := by
  intro log db
  have hrecords : Records log db.val := records_run moments
  refine ⟨hrecords.roles, hrecords.users, fun config subject perms => ?_⟩
  rw [← hrecords.userPerms_eq_some_iff db.property]
  have hobserves := getPerms_observes config subject
  constructor
  · intro hrun
    obtain ⟨-, hstep, -⟩ := hobserves.of_ok (World.idle_current _ _) hrun
    simp only [getPermsStep] at hstep
    split at hstep
    · next found hfound => rwa [Except.ok.inj hstep] at hfound
    · cases hstep
  · intro hperms
    apply hobserves.run_ok
    simp [getPermsStep, hperms]

end MvcBackend.IdentityHistory
