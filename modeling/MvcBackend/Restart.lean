import MvcBackend.RequestAtomicity

/-!
A start adds the rows of the bootstrap that are missing and touches no other
row, so a second start finds nothing to do.
-/

namespace MvcBackend.Restart

open MvcBackend.JsonValues
open MvcBackend.DataModel
open MvcBackend.Database
open MvcBackend.Authentication
open MvcBackend.AuthenticatorRefinement
open MvcBackend.RequestAtomicity
open MvcBackend.Library.KeyedTable
open MvcBackend.Library.Transaction

/-- Every row stays as it is and where it is; only rows of the bootstrap are
added, and only those whose names were not taken. -/
structure OnlyAdds (config : AuthConfig) (t t' : Tables) : Prop where
  roles : t.roles.Extends t'.roles
    [(config.adminRole.val, {.administrate}), (config.defaultRole.val, ∅)]
  users : t.users.Extends t'.users [(config.bootstrapAdminUser.val, [config.adminRole.val])]
  domain : SameDomain t t'

variable (config : AuthConfig) (t : Tables)

theorem onlyAdds_refl : OnlyAdds config t t := ⟨.refl _ _, .refl _ _, rfl, rfl, rfl⟩

theorem onlyAdds_bootstrapAdminTables : OnlyAdds config t (bootstrapAdminTables config t) where
  roles := ((Table.Extends.refl t.roles []).insertNew _ _).mono (by simp)
  users := (Table.Extends.refl t.users []).insertNew _ _
  domain := ⟨rfl, rfl, rfl⟩

theorem onlyAdds_constructTables : OnlyAdds config t (constructTables config t) where
  roles := ((Table.Extends.refl t.roles []).insertNew _ _).insertNew _ _
  users := (Table.Extends.refl t.users []).insertNew _ _
  domain := ⟨rfl, rfl, rfl⟩

theorem bootstrapAdminTables_constructTables :
    bootstrapAdminTables config (constructTables config t) = constructTables config t := by
  have hrole : ((constructTables config t).roles.find config.adminRole.val).isSome :=
    Table.isSome_find_insertNew.mpr (.inr (Table.isSome_find_insertNew.mpr (.inl rfl)))
  have huser : ((constructTables config t).users.find config.bootstrapAdminUser.val).isSome :=
    Table.isSome_find_insertNew.mpr (.inl rfl)
  rw [bootstrapAdminTables, Table.insertNew_of_isSome _ hrole, Table.insertNew_of_isSome _ huser]

theorem constructTables_idem :
    constructTables config (constructTables config t) = constructTables config t := by
  have hrole : ((constructTables config t).roles.find config.defaultRole.val).isSome :=
    Table.isSome_find_insertNew.mpr (.inl rfl)
  calc
    constructTables config (constructTables config t) =
        bootstrapDefaultTables config (constructTables config t) := by
      rw [constructTables, bootstrapAdminTables_constructTables]
    _ = constructTables config t := by
      rw [bootstrapDefaultTables, Table.insertNew_of_isSome _ hrole]

/-- A fault can stop a start before or between its two steps. -/
theorem construct_store (db : Db) (faults : List (Option Str)) :
    let t' := (worldAfter (Authenticator.construct config) (World.idle db faults)).store.val
    t' = db.val ∨ t' = bootstrapAdminTables config db.val ∨ t' = constructTables config db.val := by
  have h := construct_cases config (World.idle_current db faults)
  simp only [worldAfter]
  rcases hrun : Authenticator.construct config (World.idle db faults) with ⟨u, w⟩ | ⟨e, w⟩
  · rw [hrun] at h
    exact .inr (.inr h)
  · rw [hrun] at h
    exact h.1.imp_right .inl

/-- Whatever the environment does, a start only adds rows; and where a start
succeeded, the next one changes nothing, even if it fails. -/
theorem restart_idempotent (db : Db) (faults : List (Option Str)) :
    OnlyAdds config db.val
      (worldAfter (Authenticator.construct config) (World.idle db faults)).store.val ∧
    (∀ w, Authenticator.construct config (World.idle db faults) = .ok () w →
      ∀ faults', (worldAfter (Authenticator.construct config)
        (World.idle w.store faults')).store = w.store) ∧
    ∃ w, Authenticator.construct config (World.idle db []) = .ok () w := by
  refine ⟨?_, ?_, ?_⟩
  · rcases construct_store config db faults with h | h | h
    · rw [h]
      exact onlyAdds_refl config db.val
    · rw [h]
      exact onlyAdds_bootstrapAdminTables config db.val
    · rw [h]
      exact onlyAdds_constructTables config db.val
  · intro w hrun faults'
    have hfirst := construct_cases config (World.idle_current db faults)
    rw [hrun] at hfirst
    have hstore : w.store.val = constructTables config db.val := hfirst
    apply Subtype.ext
    rcases construct_store config w.store faults' with h | h | h
    · exact h
    · rw [h, hstore, bootstrapAdminTables_constructTables]
    · rw [h, hstore, constructTables_idem]
  · obtain ⟨w, hrun, -⟩ := construct_idle config db
    exact ⟨w, hrun⟩

/-- The two roles of the configuration are one. -/
def oneRole : AuthConfig := { AuthConfig.readme with defaultRole := AuthConfig.readme.adminRole }

theorem restart_idempotent_oneRole :
    ∃ w, Authenticator.construct oneRole (World.idle Db.empty []) = .ok () w ∧
      (worldAfter (Authenticator.construct oneRole)
        (World.idle w.store [none, some (str "disk I/O error")])).store = w.store := by
  obtain ⟨-, hsecond, w, hrun⟩ := restart_idempotent oneRole Db.empty []
  exact ⟨w, hrun, hsecond w hrun _⟩

end MvcBackend.Restart
