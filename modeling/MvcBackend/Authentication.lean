import MvcBackend.Database

/-!
Actors, the requirements of endpoints, and the `Authenticator`: its two
bootstrap steps and the login of a token.
-/

namespace MvcBackend.Authentication

open MvcBackend.JsonValues
open MvcBackend.DataModel
open MvcBackend.Database
open MvcBackend.Library.Transaction

structure Actor where
  uniqueId : Str
  perms : Finset Perm

structure Requirements where
  reqs : Finset Perm

def makeReqs (perms : List Perm) : Requirements := ⟨perms.toFinset⟩

namespace Requirements

/-- The loop over the required permissions, which stops at the first one missing. -/
def hasAll (perms : Finset Perm) : List Perm → Bool
  | [] => true
  | req :: rest => if req ∉ perms then false else hasAll perms rest

def metBy (requirements : Requirements) : Option Actor → Bool
  | none => requirements.reqs = ∅
  | some actor =>
      if .administrate ∈ actor.perms then true
      else hasAll actor.perms (Perm.all.filter (· ∈ requirements.reqs))

end Requirements

structure AuthConfig where
  publicKey : Str
  issuer : Str
  defaultRole : RoleID
  adminRole : RoleID
  bootstrapAdminUser : UserID
  jwtLeewaySecs : Nat

/-- The example values of the README. -/
def AuthConfig.readme : AuthConfig where
  publicKey := []
  issuer := str "https://dev-ztmxpnax.auth0.com/"
  defaultRole := ⟨str "default"⟩
  adminRole := ⟨str "administrator"⟩
  bootstrapAdminUser := ⟨str "oath2|xxxx"⟩
  jwtLeewaySecs := 60

/-- jwt-cpp: decode a token, verify it with this leeway, public key and issuer,
and read its subject, or throw an exception with this text. -/
abbrev Jwt := (leeway : Nat) → (publicKey issuer token : Str) → Except Str Str

def trustingJwt : Jwt := fun _ _ _ token => .ok token

def verifyAuth (jwt : Jwt) (config : AuthConfig) (token : Str) : Except Exc Str :=
  match jwt config.jwtLeewaySecs config.publicKey config.issuer token with
  | .ok subject => .ok subject
  | .error what => .error (.authError what)

def flattenRoles (roles : List Role) : Finset Perm :=
  roles.foldl (fun perms role => perms ∪ role.perms) ∅

namespace Authenticator

variable (config : AuthConfig)

def bootstrapAdmin : App Unit := transaction do
  let found ← findShared config.adminRole
  let adminRole ← (match found with
    | some role => return role
    | none => do
        let role : Role := ⟨config.adminRole.val, {.administrate}⟩
        let _ ← persistOwn role
        return role)
  let adminUser ← findShared config.bootstrapAdminUser
  let _ ← (match adminUser with
    | some _ => return none
    | none => persistOwn (⟨config.bootstrapAdminUser.val, [adminRole]⟩ : User))
  commit

def bootstrapDefault : App Unit := transaction do
  let defaultRole ← findShared config.defaultRole
  match defaultRole with
  | some _ => return ()
  | none => do
      let _ ← persistOwn (⟨config.defaultRole.val, ∅⟩ : Role)
      commit

def construct : App Unit := do
  bootstrapAdmin config
  bootstrapDefault config

def getDefaultRole : App Role := transaction do
  let role ← findShared config.defaultRole
  match role with
  | some role => return role
  | none =>
      throw (.runtimeError (str "Authenticator: default role '" ++ config.defaultRole.val ++
        str "' does not exist in database"))

/-- The guard of this function is still open when `getDefaultRole` opens its own. -/
def getPerms (subject : Str) : App (Finset Perm) := transaction do
  let user ← findValue (⟨subject⟩ : UserID)
  match user with
  | some user => return flattenRoles user.roles
  | none => do
      let defaultRole ← getDefaultRole config
      let newUser : User := ⟨subject, [defaultRole]⟩
      let _ ← persistOwn newUser
      commit
      return flattenRoles newUser.roles

def auth (jwt : Jwt) (token : Str) : App Actor := do
  let subject ← ofExcept (verifyAuth jwt config token)
  let perms ← getPerms config subject
  return ⟨subject, perms⟩

end Authenticator

end MvcBackend.Authentication
