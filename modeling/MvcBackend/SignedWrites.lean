import MvcBackend.IdentityHistory
import MvcBackend.Purge
import MvcBackend.AcknowledgedWrites
import MvcBackend.BearerTokens
import MvcBackend.TokenAcceptance

/-!
With jwt-cpp as it is: whatever happens to projects, workers and tasks was asked
for with a signed token, by somebody whom a bootstrap transaction had named.
-/

namespace MvcBackend.SignedWrites

open MvcBackend.JsonValues
open MvcBackend.DataModel
open MvcBackend.Authentication
open MvcBackend.Endpoints
open MvcBackend.EndpointSteps
open MvcBackend.HttpHandler
open MvcBackend.AuthenticatorRefinement
open MvcBackend.HandlerRefinement
open MvcBackend.RequestAtomicity
open MvcBackend.RouterRefinement
open MvcBackend.System
open MvcBackend.AnsweredRuns
open MvcBackend.AcknowledgedWrites
open MvcBackend.IdentityHistory
open MvcBackend.Purge
open MvcBackend.BearerTokens
open MvcBackend.PicoJson (IsInt64)
open MvcBackend.PicoJsonRoundTrip (Value.Plain)
open MvcBackend.TokenVerification
open MvcBackend.TokenDates
open MvcBackend.TokenAcceptance
open MvcBackend.Library.Transaction

/-- The bearer token of a request, and what it says to a server under this
configuration at this moment. -/
def Bears (p : Platform) (config : AuthConfig) (req : HttpRequest) (subject : Str) : Prop :=
  ∃ token jwt, getJwt req = some token ∧ Decodes p token jwt ∧
    Verifies p config.jwtLeewaySecs config.publicKey config.issuer jwt ∧
    jwt.payloadClaims.lookup (str "sub") = some (.string subject)

/-- What the bootstrap transactions so far have made of a name. -/
def Named (log : List Bootstrap) (subject : Str) (perms : Finset Perm) : Prop :=
  ∃ role, firstUnder subject (log.filterMap Bootstrap.userRow) = some [role] ∧
    firstUnder role (log.map Bootstrap.roleRow) = some perms

/-- A request that may do what it does. -/
structure Justified (p : Platform) (config : AuthConfig) (log : List Bootstrap) (req : HttpRequest)
    (subject : Str) (perms : Finset Perm) (e : IEndpoint) : Prop where
  method : req.method = str "POST"
  bears : Bears p config req subject
  named : Named log subject perms
  requests : RequestsEndpoint req e
  met : e.requirements.metBy (some ⟨subject, perms⟩) = true

theorem justified_of_writes {p : Platform} {extractJson : HttpRequest → Except BodyError Json}
    {config : AuthConfig} {s : ServerState} {log : List Bootstrap} (hlog : Records log s.db.val)
    {req : HttpRequest} {faults : List (Option Str)} {actor : Option Actor}
    {path : ApiParse.ApiPath} {e : IEndpoint} {payload j : Json}
    (h : Writes config ⟨p.jwt, extractJson⟩ req s faults actor path e payload j) :
    ∃ subject perms, Justified p config log req subject perms e := by
  obtain ⟨user, rfl, hlogin⟩ := login_of_writes h
  obtain ⟨token, htoken, hverified, hperms⟩ := login_of_actorStep hlogin
  obtain ⟨jwt, hdecodes, hverifies, hsubject⟩ := accepted_iff.mp (verifyAuth_eq_ok.mp hverified)
  refine ⟨user.uniqueId, user.perms, post_of_writes h, ?_, ?_, ?_, h.met⟩
  · exact ⟨token, jwt, htoken, hdecodes, hverifies, hsubject⟩
  · exact (hlog.userPerms_eq_some_iff s.db.property).mp hperms
  · exact ⟨path, h.split, matchedEndpoint_iff.mp h.matched⟩

/-- After any run, under any configurations, clocks and keys: an event leaves
projects, workers and tasks as they are, or it is a POST to a writing endpoint
whose bearer token, signed for the configuration that is up and in time, names
somebody whom a bootstrap transaction of the run has given what the endpoint
requires; and then it makes the one change that its payload asks for, and says so. -/
theorem changes_are_signed (before : List Moment) (p : Platform)
    (extractJson : HttpRequest → Except BodyError Json) (event : Event) :
    let s := server.run pristine before
    let moment : Moment := ⟨⟨p.jwt, extractJson⟩, event⟩
    let s' := server.next s moment
    SameDomain s.db.val s'.db.val ∨
      ∃ req faults config subject perms e payload j, event = .request req faults ∧
        s.server = some config ∧
        Justified p config (bootstrapLog before) req subject perms e ∧
        readPayload moment.libraries req = .ok payload ∧
        Commits payload s.db.val e j s'.db.val ∧
        server.answer s moment = some (okResponse j) := by
  intro s moment s'
  rcases event with ⟨config, faults⟩ | ⟨req, faults⟩
  · exact .inl (sameDomain_start ⟨p.jwt, extractJson⟩ s config faults)
  · have hsame : SameDomain s.db.val s.db.val := ⟨rfl, rfl, rfl⟩
    rcases hserver : s.server with _ | config
    · have hstay : s' = s := (reads_of_down ⟨p.jwt, extractJson⟩ req faults hserver).same
      exact .inl (hstay ▸ hsame)
    · rcases writes_or_reads ⟨p.jwt, extractJson⟩ req faults hserver with
        ⟨actor, path, e, payload, j, hwrites⟩ | hreads
      · obtain ⟨subject, perms, hjustified⟩ := justified_of_writes (records_run before) hwrites
        exact .inr ⟨req, faults, config, subject, perms, e, payload, j, rfl, rfl, hjustified,
          hwrites.read, hwrites.commits, hwrites.answered⟩
      · have hstay : s' = s := hreads.same
        exact .inl (hstay ▸ hsame)

/-! ### Requests that are justified -/

theorem actorStep_of_bears {p : Platform} (extractJson : HttpRequest → Except BodyError Json)
    {config : AuthConfig} {req : HttpRequest} {subject : Str} {perms : Finset Perm} {t : Tables}
    (hbears : Bears p config req subject) (hperms : userPerms t subject = some perms) :
    actorStep config ⟨p.jwt, extractJson⟩ req t = .ok (some ⟨subject, perms⟩) := by
  obtain ⟨token, jwt, htoken, hdecodes, hverifies, hsubject⟩ := hbears
  have hverified : Authentication.verifyAuth p.jwt config token = .ok subject :=
    verifyAuth_eq_ok.mpr (accepted_iff.mpr ⟨jwt, hdecodes, hverifies, hsubject⟩)
  simp [actorStep, htoken, authStep, hverified, getPermsStep, hperms, bind, Except.bind, pure,
    Except.pure]

/-- The other way round: where the database does not fail, whoever may do what
the payload asks for gets it done, after any run. -/
theorem signed_requests_are_done (before : List Moment) (p : Platform)
    (extractJson : HttpRequest → Except BodyError Json) {config : AuthConfig} {req : HttpRequest}
    {subject : Str} {perms : Finset Perm} {e : IEndpoint} {payload j : Json} {t' : Tables}
    (hserver : (server.run pristine before).server = some config)
    (hjustified : Justified p config (bootstrapLog before) req subject perms e)
    (hread : readPayload ⟨p.jwt, extractJson⟩ req = .ok payload)
    (hcommits : Commits payload (server.run pristine before).db.val e j t') :
    let moment : Moment := ⟨⟨p.jwt, extractJson⟩, .request req []⟩
    server.answer (server.run pristine before) moment = some (okResponse j) ∧
      (server.next (server.run pristine before) moment).db.val = t' := by
  intro moment
  have hlog := records_run before
  generalize server.run pristine before = s at hserver hcommits hlog ⊢
  have hperms := (hlog.userPerms_eq_some_iff s.db.property).mpr hjustified.named
  have hactor := actorStep_of_bears extractJson hjustified.bears hperms
  obtain ⟨path, hpath, hparse⟩ := hjustified.requests
  have hmethod : req.method ≠ str "OPTIONS" := by
    rw [hjustified.method]
    decide
  obtain ⟨hwrites, hdb⟩ := writes_of_commits hserver hmethod hactor hpath
    (matchedEndpoint_iff.mpr hparse) hjustified.met hread hcommits
  exact ⟨hwrites.answered, hdb⟩

def adminClaims : Claims :=
  [(str "exp", .int64 1700000030), (str "iss", .string echoConfig.issuer),
    (str "sub", .string echoConfig.bootstrapAdminUser.val)]

/-- A POST for `add_worker`, with a token that is signed for the bootstrap administrator. -/
def workerPost : HttpRequest where
  method := str "POST"
  path := str "/api/add_worker"
  headers := [(str "Authorization", str "Bearer" ++ 0x20 :: sign id [] adminClaims)]
  body := []

def workerPayload : Json := .object [(str "name", .string (str "w"))]

theorem bears_workerPost :
    Bears echoPlatform echoConfig workerPost echoConfig.bootstrapAdminUser.val := by
  have hexp : Value.Plain (.int64 1700000030) := by
    show IsInt64 1700000030
    decide
  have hplain : Value.Plain (.object adminClaims) := ⟨by decide, hexp, trivial, trivial, trivial⟩
  have htime : InTime echoPlatform echoConfig.jwtLeewaySecs adminClaims := by
    refine ⟨fun claim h => ?_, fun claim h => ?_, fun claim h => ?_⟩
    · exact ⟨1700000030, (Option.some.inj h).symm, by decide⟩
    · cases h
    · cases h
  have hempty : Value.Plain (.object []) := ⟨List.Pairwise.nil, trivial⟩
  have haccepted : echoPlatform.jwt echoConfig.jwtLeewaySecs echoConfig.publicKey
      echoConfig.issuer (sign id [] adminClaims) = .ok echoConfig.bootstrapAdminUser.val :=
    (accepted_sign_iff id rs256_echoConfig rsaVerify_echo hempty hplain).mpr ⟨htime, rfl, rfl⟩
  obtain ⟨jwt, hdecodes, hverifies, hsubject⟩ := accepted_iff.mp haccepted
  have hscheme : (str "Bearer").map toLower = str "bearer" := by decide
  obtain ⟨hbearer, htoken⟩ := header_of_bearer hscheme (sign id [] adminClaims)
  exact ⟨_, jwt, getJwt_eq_some_iff.mpr ⟨_, rfl, hbearer, htoken.symm⟩, hdecodes, hverifies,
    hsubject⟩

def started : List Moment := [⟨trustingLibraries, .start echoConfig []⟩]

theorem signed_requests_are_done_worker :
    let s := server.run pristine started
    let moment : Moment :=
      ⟨⟨echoPlatform.jwt, fun _ => .ok workerPayload⟩, .request workerPost []⟩
    server.answer s moment = some (okResponse (.numberInteger s.db.val.workers.nextKey)) ∧
      (server.next s moment).db.val =
        { s.db.val with workers := s.db.val.workers.push (str "w") } := by
  have hdb : (server.run pristine started).db.val = constructTables echoConfig Tables.empty :=
    run_start_db trustingLibraries echoConfig
  have hserver : (server.run pristine started).server = some echoConfig :=
    next_start_idle trustingLibraries pristine echoConfig
  let perms := grantedPerms (constructTables echoConfig Tables.empty) [echoConfig.adminRole.val]
  have hrow : (constructTables echoConfig Tables.empty).users.find
      echoConfig.bootstrapAdminUser.val = some [echoConfig.adminRole.val] := rfl
  have hperms : userPerms (server.run pristine started).db.val
      echoConfig.bootstrapAdminUser.val = some perms := by
    rw [userPerms, hdb, hrow]
    rfl
  have hjustified : Justified echoPlatform echoConfig (bootstrapLog started) workerPost
      echoConfig.bootstrapAdminUser.val perms .addWorker := by
    refine ⟨rfl, bears_workerPost, ?_, ?_, by decide⟩
    · exact ((records_run started).userPerms_eq_some_iff (Subtype.property _)).mp hperms
    · exact ⟨[str "api", str "add_worker"], by decide, matchedEndpoint_iff.mp rfl⟩
  have hread : readPayload ⟨echoPlatform.jwt, fun _ => .ok workerPayload⟩ workerPost =
      .ok workerPayload := rfl
  exact signed_requests_are_done started echoPlatform _ hserver hjustified hread (.addWorker rfl)

end MvcBackend.SignedWrites
