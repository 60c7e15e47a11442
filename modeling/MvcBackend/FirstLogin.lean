import MvcBackend.AuthenticatorRefinement

/-!
The first login of a user, who has no row yet. `getPerms` holds its guard while
`getDefaultRole` opens a second one on the same thread, so nobody gets through.
-/

namespace MvcBackend.FirstLogin

open MvcBackend.JsonValues
open MvcBackend.DataModel
open MvcBackend.Database
open MvcBackend.Authentication
open MvcBackend.AuthenticatorRefinement
open MvcBackend.Library.Transaction

/-- Logging in with this token gives the subject its row with the default role,
and logging in once more finds it there. -/
def Provisions (config : AuthConfig) (jwt : Jwt) (token subject : Str) (db : Db) : Prop :=
  ∃ actor w, Authenticator.auth config jwt token (World.idle db []) = .ok actor w ∧
    actor.uniqueId = subject ∧
    db.val.roles.find config.defaultRole.val = some actor.perms ∧
    w.commits = 1 ∧ w.store.val.roles = db.val.roles ∧
    (∀ user, w.store.val.users.find user =
      if user = subject then some [config.defaultRole.val] else db.val.users.find user) ∧
    Authenticator.auth config jwt token (World.idle w.store []) =
      .ok actor (World.idle w.store [])

variable {config : AuthConfig} {jwt : Jwt} {token subject : Str} {db : Db}

theorem authStep_missing {t : Tables} (htoken : verifyAuth jwt config token = .ok subject)
    (hmissing : t.users.find subject = none) :
    authStep config jwt token t = .error .alreadyInTransaction := by
  refine bind_eq_error.mpr (.inr ⟨subject, htoken, bind_eq_error.mpr (.inl ?_)⟩)
  simp [getPermsStep, userPerms, hmissing]

theorem auth_missing (htoken : verifyAuth jwt config token = .ok subject)
    (hmissing : db.val.users.find subject = none) :
    Authenticator.auth config jwt token (World.idle db []) =
      .error .alreadyInTransaction (World.idle db []) :=
  (auth_observes config jwt token).run_error (authStep_missing htoken hmissing)

theorem not_provisions_of_missing (htoken : verifyAuth jwt config token = .ok subject)
    (hmissing : db.val.users.find subject = none) : ¬ Provisions config jwt token subject db := by
  rintro ⟨actor, w, hrun, -⟩
  simp [auth_missing htoken hmissing] at hrun

/-- A subject without a row is never let in and never gets one, whatever the
database does. -/
theorem first_login_fails (htoken : verifyAuth jwt config token = .ok subject)
    (hmissing : db.val.users.find subject = none) :
    ¬ Provisions config jwt token subject db ∧
      ∀ faults, ∃ e w, Authenticator.auth config jwt token (World.idle db faults) = .error e w ∧
        w.store = db := by
  refine ⟨not_provisions_of_missing htoken hmissing, fun faults => ?_⟩
  have hobserves := auth_observes config jwt token
  rcases hrun : Authenticator.auth config jwt token (World.idle db faults) with
    ⟨actor, w⟩ | ⟨e, w⟩
  · obtain ⟨-, hstep, -⟩ := hobserves.of_ok rfl hrun
    simp [World.idle, authStep_missing htoken hmissing] at hstep
  · obtain ⟨-, hsame, -⟩ := hobserves.of_error rfl hrun
    exact ⟨e, w, rfl, hsame.store⟩

theorem first_login_fails_alice :
    ¬ Provisions AuthConfig.readme trustingJwt (str "alice") (str "alice") readmeDb ∧
      ∀ faults, ∃ e w, Authenticator.auth AuthConfig.readme trustingJwt (str "alice")
        (World.idle readmeDb faults) = .error e w ∧ w.store = readmeDb :=
  first_login_fails rfl (by decide)

theorem alice_cannot_log_in :
    ∃ w, Authenticator.construct AuthConfig.readme (World.idle Db.empty []) = .ok () w ∧
      verifyAuth trustingJwt AuthConfig.readme (str "alice") = .ok (str "alice") ∧
      w.store.val.users.find (str "alice") = none ∧
      ¬ Provisions AuthConfig.readme trustingJwt (str "alice") (str "alice") w.store := by
  obtain ⟨w, hrun, hstore⟩ := construct_idle AuthConfig.readme Db.empty
  have hmissing : w.store.val.users.find (str "alice") = none := by
    rw [hstore]
    decide
  exact ⟨w, hrun, rfl, hmissing, not_provisions_of_missing rfl hmissing⟩

end MvcBackend.FirstLogin
