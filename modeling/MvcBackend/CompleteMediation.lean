import MvcBackend.AuthenticatorRefinement
import MvcBackend.RouterRefinement

/-!
The router calls the endpoint that a path names for those actors, and only
those, that the endpoint admits.
-/

namespace MvcBackend.CompleteMediation

open MvcBackend.JsonValues
open MvcBackend.DataModel
open MvcBackend.Database
open MvcBackend.Authentication
open MvcBackend.ApiParse
open MvcBackend.Endpoints
open MvcBackend.ApiRouter
open MvcBackend.AuthenticatorRefinement
open MvcBackend.RouterRefinement
open MvcBackend.Library.KeyedTable
open MvcBackend.Library.Transaction

def Admitted (e : IEndpoint) (actor : Option Actor) : Prop :=
  (∃ a, actor = some a ∧ .administrate ∈ a.perms) ∨
    (∃ a, actor = some a ∧ e.requirements.reqs ⊆ a.perms) ∨
      (actor = none ∧ e.requirements.reqs = ∅)

theorem mem_all (p : Perm) : p ∈ Perm.all := by
  cases p <;> decide

theorem hasAll_iff (perms : Finset Perm) (reqs : List Perm) :
    Requirements.hasAll perms reqs = true ↔ ∀ req ∈ reqs, req ∈ perms := by
  induction reqs with
  | nil => simp [Requirements.hasAll]
  | cons req reqs ih =>
      rw [Requirements.hasAll]
      split
      · next h => simp [h]
      · next h => simp [ih, not_not.mp h]

theorem metBy_iff (e : IEndpoint) (actor : Option Actor) :
    e.requirements.metBy actor = true ↔ Admitted e actor := by
  cases actor with
  | none => simp [Requirements.metBy, Admitted]
  | some a =>
      simp only [Requirements.metBy]
      split
      · next h => simp [Admitted, h]
      · next h => simp [Admitted, h, hasAll_iff, Finset.subset_iff, mem_all]

section Routing

variable (db : Db) (path : ApiPath) (input : EndpointInput)

/-- The call of `e` is run, whatever it does. -/
def Runs (e : IEndpoint) : Prop :=
  ∀ call, routeTo call path input (World.idle db []) = call e input (World.idle db [])

/-- No call is run; the error is thrown and nothing has changed. -/
def Refuses (error : Exc) : Prop :=
  ∀ call, routeTo call path input (World.idle db []) = .error error (World.idle db [])

variable {db path input}

/-- The path is checked first, then the requirements. -/
theorem routeTo_idle (call : IEndpoint → EndpointInput → Call) :
    routeTo call path input (World.idle db []) =
      match matchedEndpoint path with
      | none => .error (.userError (str "Bad route")) (World.idle db [])
      | some e =>
          if e.requirements.metBy input.actor then call e input (World.idle db [])
          else .error (.authError (str "nope")) (World.idle db []) := by
  rw [routeTo, bind_apply, (parse_observes path).run_ok rfl]
  cases matchedEndpoint path with
  | none => rfl
  | some e =>
      cases hmet : e.requirements.metBy input.actor with
      | true => simp [hmet]
      | false => simp [hmet]; rfl

theorem runs_iff {e : IEndpoint} :
    Runs db path input e ↔
      apiParse path = .ok (some (.object e)) ∧ Admitted e input.actor := by
  rw [← matchedEndpoint_iff, ← metBy_iff]
  constructor
  · intro h
    -- tell `e` apart from every other endpoint, and from an error
    have hcall := h fun e' _ => if e' = e then return none else throw .undefined
    rw [routeTo_idle] at hcall
    split at hcall
    · simp at hcall
    · next e' hmatched =>
        split at hcall
        · next hmet =>
            by_cases heq : e' = e
            · subst heq
              exact ⟨hmatched, hmet⟩
            · simp [heq] at hcall
        · simp at hcall
  · rintro ⟨hmatched, hmet⟩ call
    simp [routeTo_idle, hmatched, hmet]

theorem refuses_unparsable (h : ∀ e, apiParse path ≠ .ok (some (.object e))) :
    Refuses db path input (.userError (str "Bad route")) := by
  intro call
  rw [routeTo_idle]
  cases hmatched : matchedEndpoint path with
  | none => rfl
  | some e => exact absurd (matchedEndpoint_iff.mp hmatched) (h e)

theorem refuses_unmet {e : IEndpoint} (hpath : apiParse path = .ok (some (.object e)))
    (h : ¬ Admitted e input.actor) : Refuses db path input (.authError (str "nope")) := by
  intro call
  have hmet : e.requirements.metBy input.actor = false :=
    Bool.eq_false_iff.mpr fun hmet => h ((metBy_iff e input.actor).mp hmet)
  simp [routeTo_idle, matchedEndpoint_iff.mpr hpath, hmet]

end Routing

/-! ### Actors that logged in -/

section Login

variable {config : AuthConfig} {jwt : Jwt} {token subject : Str} {t t' : Tables}

theorem auth_idle {db : Db} {perms : Finset Perm}
    (htoken : verifyAuth jwt config token = .ok subject)
    (hperms : userPerms db.val subject = some perms) :
    Authenticator.auth config jwt token (World.idle db []) =
      .ok ⟨subject, perms⟩ (World.idle db []) := by
  apply (auth_observes config jwt token).run_ok
  have hstep : getPermsStep subject db.val = .ok perms := by simp [getPermsStep, hperms]
  exact bind_eq_ok.mpr ⟨subject, htoken, bind_eq_ok.mpr ⟨perms, hstep, rfl⟩⟩

/-- One more role of a user, or one more permission of a role. -/
inductive Grants (t : Tables) : Tables → Prop where
  | addRole {user : Str} {roles : List Str} (huser : t.users.find user = some roles)
      (role : Str) : Grants t { t with users := t.users.set user (roles ++ [role]) }
  | addPerm {role : Str} {perms : Finset Perm} (hrole : t.roles.find role = some perms)
      (p : Perm) : Grants t { t with roles := t.roles.set role (insert p perms) }

theorem Grants.perms_mono (h : Grants t t') {perms : Finset Perm}
    (hperms : userPerms t subject = some perms) :
    ∃ perms', userPerms t' subject = some perms' ∧ perms ⊆ perms' := by
  obtain ⟨roles, hroles, rfl⟩ := Option.map_eq_some_iff.mp hperms
  cases h with
  | @addRole user stored huser role =>
      by_cases hsubject : subject = user
      · subst hsubject
        obtain rfl : roles = stored := by simpa [hroles] using huser
        refine ⟨_, by simp [userPerms, Table.find_set, hroles]; rfl, ?_⟩
        intro p
        simp only [grantedPerms, Finset.mem_biUnion, List.mem_toFinset, List.mem_append]
        rintro ⟨name, hname, hp⟩
        exact ⟨name, .inl hname, hp⟩
      · exact ⟨_, by simp [userPerms, Table.find_set, hsubject, hroles]; rfl, subset_rfl⟩
  | @addPerm role stored hrole p =>
      refine ⟨_, by simp [userPerms, hroles]; rfl, ?_⟩
      intro q
      simp only [grantedPerms, Finset.mem_biUnion, Table.find_set]
      rintro ⟨name, hname, hq⟩
      refine ⟨name, hname, ?_⟩
      split
      · next heq =>
          rw [heq, hrole] at hq ⊢
          exact Finset.mem_insert_of_mem hq
      · exact hq

theorem Admitted.mono {e : IEndpoint} {a a' : Actor} (h : Admitted e (some a))
    (hperms : a.perms ⊆ a'.perms) : Admitted e (some a') := by
  rcases h with ⟨_, ⟨⟩, hadmin⟩ | ⟨_, ⟨⟩, hreqs⟩ | ⟨hnone, -⟩
  · exact .inl ⟨a', rfl, hperms hadmin⟩
  · exact .inr (.inl ⟨a', rfl, hreqs.trans hperms⟩)
  · cases hnone

theorem Admitted.of_anonymous {e : IEndpoint} (h : Admitted e none) (actor : Option Actor) :
    Admitted e actor := by
  rcases h with ⟨_, hnone, -⟩ | ⟨_, hnone, -⟩ | ⟨-, hreqs⟩
  · cases hnone
  · cases hnone
  · cases actor with
    | none => exact .inr (.inr ⟨rfl, hreqs⟩)
    | some a => exact .inr (.inl ⟨a, rfl, by simp [hreqs]⟩)

end Login

/-- The call of the endpoint that a path names is run if and only if the actor
is admitted. For an actor that logged in, the roles of its row decide, and more
roles or permissions never take a request away from it. -/
theorem complete_mediation :
    (∀ (db : Db) (path : ApiPath) (input : EndpointInput),
      (∀ e, Runs db path input e ↔
        apiParse path = .ok (some (.object e)) ∧ Admitted e input.actor) ∧
      ((∀ e, apiParse path ≠ .ok (some (.object e))) →
        Refuses db path input (.userError (str "Bad route"))) ∧
      (∀ e, apiParse path = .ok (some (.object e)) → ¬ Admitted e input.actor →
        Refuses db path input (.authError (str "nope")))) ∧
    (∀ (config : AuthConfig) (jwt : Jwt) (token subject : Str) (db : Db) (roles : List Str),
      verifyAuth jwt config token = .ok subject → db.val.users.find subject = some roles →
      ∃ actor, Authenticator.auth config jwt token (World.idle db []) =
          .ok actor (World.idle db []) ∧
        (∀ e, Admitted e (some actor) ↔
          .administrate ∈ grantedPerms db.val roles ∨
            e.requirements.reqs ⊆ grantedPerms db.val roles) ∧
        ∀ db' : Db, Grants db.val db'.val →
          ∃ actor', Authenticator.auth config jwt token (World.idle db' []) =
              .ok actor' (World.idle db' []) ∧
            ∀ path payload e, Runs db path ⟨payload, some actor⟩ e →
              Runs db' path ⟨payload, some actor'⟩ e) ∧
    ∀ (db : Db) (path : ApiPath) (payload : Json) (e : IEndpoint),
      Runs db path ⟨payload, none⟩ e → ∀ actor, Runs db path ⟨payload, some actor⟩ e := by
  refine ⟨fun db path input => ⟨fun e => runs_iff, refuses_unparsable, fun e => refuses_unmet⟩,
    ?_, ?_⟩
  · intro config jwt token subject db roles htoken huser
    have hperms : userPerms db.val subject = some (grantedPerms db.val roles) := by
      simp [userPerms, huser]
    refine ⟨⟨subject, grantedPerms db.val roles⟩, auth_idle htoken hperms, ?_, ?_⟩
    · intro e
      simp [Admitted]
    · intro db' hgrants
      obtain ⟨perms', hperms', hsubset⟩ := hgrants.perms_mono hperms
      refine ⟨⟨subject, perms'⟩, auth_idle htoken hperms', ?_⟩
      intro path payload e hruns
      obtain ⟨hpath, hadmitted⟩ := runs_iff.mp hruns
      exact runs_iff.mpr ⟨hpath, hadmitted.mono hsubset⟩
  · intro db path payload e hruns actor
    obtain ⟨hpath, hadmitted⟩ := runs_iff.mp hruns
    exact runs_iff.mpr ⟨hpath, hadmitted.of_anonymous (some actor)⟩

/-- Anybody may list the users, and the bootstrap administrator may do anything. -/
theorem complete_mediation_readme :
    Runs readmeDb [str "api", str "get_users"] ⟨.null, none⟩ .getUsers ∧
      ∃ actor, Authenticator.auth AuthConfig.readme trustingJwt (str "oath2|xxxx")
          (World.idle readmeDb []) = .ok actor (World.idle readmeDb []) ∧
        ∀ e, Admitted e (some actor) := by
  have huser : readmeDb.val.users.find (str "oath2|xxxx") = some [str "administrator"] := rfl
  have hadmin : Perm.administrate ∈ grantedPerms readmeDb.val [str "administrator"] := by decide
  obtain ⟨actor, hauth, hadmitted, -⟩ :=
    complete_mediation.2.1 AuthConfig.readme trustingJwt _ _ readmeDb _ rfl huser
  refine ⟨((complete_mediation.1 readmeDb _ _).1 .getUsers).mpr ⟨rfl, .inr (.inr ⟨rfl, rfl⟩)⟩,
    actor, hauth, fun e => (hadmitted e).mpr (.inl hadmin)⟩

end MvcBackend.CompleteMediation
