import MvcBackend.RequestAtomicity

/-!
Payloads of the wrong shape. A body that is no JSON is the client's error, but
a JSON body without the fields that an endpoint reads is an internal one.
-/

namespace MvcBackend.BadInput

open MvcBackend.JsonValues
open MvcBackend.DataModel
open MvcBackend.Database
open MvcBackend.Authentication
open MvcBackend.Endpoints
open MvcBackend.EndpointSteps
open MvcBackend.HttpHandler
open MvcBackend.AuthenticatorRefinement
open MvcBackend.RouterRefinement
open MvcBackend.HandlerRefinement
open MvcBackend.RequestAtomicity
open MvcBackend.Library.Transaction

/-- The C++ types that the endpoints read fields at. -/
inductive FieldType where
  | string
  | int

/-- An `int` is read from any number and from a boolean. -/
def FieldType.Accepts : FieldType → Json → Prop
  | string, .string _ => True
  | int, .numberInteger _ | int, .numberUnsigned _ | int, .numberFloat _ | int, .boolean _ => True
  | _, _ => False

def fieldsRead : IEndpoint → List (String × FieldType)
  | .addProject | .addWorker => [("name", .string)]
  | .addTask => [("name", .string), ("project_id", .int)]
  | .assignTask => [("task_id", .int), ("worker_id", .int)]
  | .unassignTask => [("task_id", .int)]
  | .delProject => [("id", .int)]
  | _ => []

/-- `payload` is an object that holds this field. -/
def Holds (payload : Json) (field : String × FieldType) : Prop :=
  ∃ members member, payload = .object members ∧ members.lookup (str field.1) = some member ∧
    field.2.Accepts member

/-- The body of the request is a JSON object that holds every field that `e` reads.
A body that is not read at all, as for its content type, is not well shaped. -/
def WellShaped (libraries : Libraries) (req : HttpRequest) (e : IEndpoint) : Prop :=
  ∃ payload, libraries.extractJson req = .ok payload ∧ ∀ field ∈ fieldsRead e, Holds payload field

def badInputResponse : HttpResponse :=
  ⟨400, .json (.object [(str "Err", .array [.string (str "Invalid JSON input")])]), [allowOrigin]⟩

section

variable (config : AuthConfig) (libraries : Libraries) (req : HttpRequest) (db : Db)
  (faults : List (Option Str)) (e : IEndpoint)

/-- A POST to an endpoint that writes, by somebody who may use it. -/
structure AuthorisedPost : Prop where
  method : req.method = str "POST"
  writes : e ∈ writers
  requests : RequestsEndpoint req e
  login : ∃ actor w, HttpHandler.verifyAuth config libraries req (World.idle db faults) =
    .ok actor w ∧ e.requirements.metBy actor = true

/-- A body of the wrong shape is answered like one that is no JSON, and nothing
is written. -/
def AnswersBadInput : Prop :=
  ¬ WellShaped libraries req e → ∃ w,
    handle config libraries req (World.idle db faults) = .ok badInputResponse w ∧ w.store = db

end

theorem accepts_of_getToString {j : Json} {s : Str} (h : j.getToString = .ok s) :
    FieldType.string.Accepts j := by
  cases j with
  | string s => trivial
  | _ => cases h

theorem accepts_of_getToInt {j : Json} {n : Int} (h : j.getToInt = .ok n) :
    FieldType.int.Accepts j := by
  cases j with
  | boolean | numberInteger | numberUnsigned | numberFloat => trivial
  | _ => cases h

theorem exists_member_of_atKey {payload member : Json} {key : Str}
    (h : payload.atKey key = .ok member) :
    ∃ members, payload = .object members ∧ members.lookup key = some member := by
  cases payload with
  | object members =>
      rcases hlookup : members.lookup key with _ | member'
      · simp [Json.atKey, hlookup] at h
      · obtain rfl : member' = member := by simpa [Json.atKey, hlookup] using h
        exact ⟨members, rfl, hlookup⟩
  | _ => cases h

/-- A field is read only where `payload` holds it. -/
theorem holds_of_read {α : Type} {payload : Json} {key : String} {type : FieldType}
    {read : Json → Except JsonException α} {a : α}
    (haccepts : ∀ member, read member = .ok a → type.Accepts member)
    (h : ((payload.atKey (str key)).bind read).mapError Exc.json = .ok a) :
    Holds payload (key, type) := by
  obtain ⟨member, hmember, hread⟩ := bind_eq_ok.mp (mapError_eq_ok.mp h)
  obtain ⟨members, rfl, hlookup⟩ := exists_member_of_atKey hmember
  exact ⟨members, member, rfl, hlookup, haccepts member hread⟩

theorem holds_of_stringField {payload : Json} {key : String} {s : Str}
    (h : stringField payload key = .ok s) : Holds payload (key, .string) :=
  holds_of_read (fun _ => accepts_of_getToString) h

theorem holds_of_intField {payload : Json} {key : String} {n : Int}
    (h : intField payload key = .ok n) : Holds payload (key, .int) :=
  holds_of_read (fun _ => accepts_of_getToInt) h

theorem holds_of_commits {payload j : Json} {t t' : Tables} {e : IEndpoint}
    (h : Commits payload t e j t') : ∀ field ∈ fieldsRead e, Holds payload field := by
  cases h with
  | addProject hname | addWorker hname => simpa [fieldsRead] using holds_of_stringField hname
  | addTask hname hid =>
      simpa [fieldsRead] using ⟨holds_of_stringField hname, holds_of_intField hid⟩
  | assignTask hid hworkerId =>
      simpa [fieldsRead] using ⟨holds_of_intField hid, holds_of_intField hworkerId⟩
  | unassignTask hid | delProject hid => simpa [fieldsRead] using holds_of_intField hid

/-- An exception that the last catch clause turns into an internal error. -/
def Internal : Exc → Prop
  | .userError _ | .authError _ => False
  | _ => True

def FailsInternally {α : Type} (x : Except Exc α) : Prop := ∀ ex, x = .error ex → Internal ex

namespace FailsInternally

variable {α β : Type}

theorem ok (a : α) : FailsInternally (.ok a) := by
  intro ex h
  cases h

theorem bind {x : Except Exc α} {f : α → Except Exc β} (hx : FailsInternally x)
    (hf : ∀ a, FailsInternally (f a)) : FailsInternally (x >>= f) := by
  intro ex h
  rcases bind_eq_error.mp h with hleft | ⟨a, -, hright⟩
  · exact hx ex hleft
  · exact hf a ex hright

theorem map {x : Except Exc α} (hx : FailsInternally x) (f : α → β) :
    FailsInternally (x.map f) := by
  intro ex h
  rcases x with ex' | a
  · cases h
    exact hx ex rfl
  · cases h

theorem mapError_json (x : Except JsonException α) : FailsInternally (x.mapError .json) := by
  intro ex h
  rcases x with what | a
  · cases h
    trivial
  · cases h

end FailsInternally

theorem dump_failsInternally (j : Json) : FailsInternally (dump j) := by
  intro ex h
  rw [dump] at h
  split at h
  · cases h
  · cases h
    trivial

theorem respond_failsInternally (out : Option EndpointOutput) : FailsInternally (respond out) := by
  cases out with
  | none => exact (dump_failsInternally _).bind fun _ => .ok _
  | some output => exact (dump_failsInternally _).bind fun _ => .ok _

theorem step_failsInternally (e : IEndpoint) (input : EndpointInput) (t : Tables) :
    FailsInternally (step e input t) := by
  cases e with
  | addProject | addWorker =>
      apply FailsInternally.bind (.mapError_json _)
      exact fun name => .ok _
  | addTask =>
      apply FailsInternally.bind (.mapError_json _)
      intro name
      apply FailsInternally.bind (.mapError_json _)
      intro project
      split
      · exact .ok _
      · exact .ok _
  | assignTask =>
      apply FailsInternally.bind (.mapError_json _)
      intro id
      apply FailsInternally.bind (.mapError_json _)
      intro worker
      split
      · exact .ok _
      · exact .ok _
  | unassignTask =>
      apply FailsInternally.bind (.mapError_json _)
      intro id
      split
      · exact .ok _
      · exact .ok _
  | delProject =>
      apply FailsInternally.bind (.mapError_json _)
      intro id
      split
      · exact .ok _
      · intro ex h
        cases h
        trivial
  | _ => exact .ok _

theorem readPayload_failsInternally {libraries : Libraries} {req : HttpRequest}
    (h : libraries.extractJson req ≠ .error .jsonException) :
    FailsInternally (readPayload libraries req) := by
  rw [readPayload]
  split
  · apply FailsInternally.bind
    · intro ex hex
      rw [extractReqJson] at hex
      split at hex
      · cases hex
      · next hjson => exact absurd hjson h
      · cases hex
        trivial
    · exact fun payload => (dump_failsInternally payload).bind fun _ => .ok _
  · exact .ok _

theorem status_of_internal {ex : Exc} (h : Internal ex) {response : HttpResponse}
    (hresponse : handleException ex = .ok response) : response.status = 500 := by
  cases ex with
  | userError what => cases h
  | authError what => cases h
  | thrown code => cases hresponse
  | undefined => cases hresponse
  | runtimeError | json | alreadyInTransaction | notInTransaction | objectNotPersistent
  | databaseException | libraryException => rw [jsonResponse_eq hresponse]

theorem status_of_respond {out : Option EndpointOutput} {response : HttpResponse}
    (h : respond out = .ok response) : response.status = 200 := by
  cases out with
  | none => rw [jsonResponse_eq h]
  | some output => rw [jsonResponse_eq h]

variable {config : AuthConfig} {libraries : Libraries} {req : HttpRequest} {db : Db}
  {faults : List (Option Str)} {e : IEndpoint}

theorem AuthorisedPost.not_options (h : AuthorisedPost config libraries req db faults e) :
    req.method ≠ str "OPTIONS" := by
  rw [h.method]
  decide

theorem AuthorisedPost.requestStep_failsInternally
    (h : AuthorisedPost config libraries req db faults e)
    (hjson : libraries.extractJson req ≠ .error .jsonException) :
    FailsInternally (requestStep config libraries req db.val) := by
  obtain ⟨path, hpath, hparse⟩ := h.requests
  obtain ⟨actor, w, hlogin, hmet⟩ := h.login
  have hobserves := verifyAuth_observes config libraries req
  obtain ⟨-, hactor, -⟩ := hobserves.of_ok (World.idle_current _ _) hlogin
  have hactor : actorStep config libraries req db.val = .ok actor := hactor
  rw [requestStep, hactor, hpath]
  apply FailsInternally.bind (readPayload_failsInternally hjson)
  intro payload
  have hroute : routeStep path ⟨payload, actor⟩ db.val = step e ⟨payload, actor⟩ db.val := by
    simp [routeStep, matchedEndpoint_iff.mpr hparse, hmet]
  rw [hroute]
  apply FailsInternally.bind (step_failsInternally e _ _)
  exact fun result => (respond_failsInternally result.1).map _

/-- Once the body is read as JSON, nothing is the client's error any more. -/
theorem AuthorisedPost.status_ne (h : AuthorisedPost config libraries req db faults e)
    (hjson : libraries.extractJson req ≠ .error .jsonException) {response : HttpResponse}
    {w : AppWorld} (hrun : handle config libraries req (World.idle db faults) = .ok response w) :
    response.status ≠ 400 := by
  have hatomic := handleRequest_atomic config libraries req
  rcases hrequest : handleRequest config libraries req (World.idle db faults) with
    ⟨response', w'⟩ | ⟨ex, w'⟩
  · rw [handle_of_responded h.not_options hrequest] at hrun
    obtain ⟨rfl, -⟩ : response' = response ∧ w' = w := by simpa using hrun
    obtain ⟨-, o, hstep, -⟩ := hatomic.of_ok (World.idle_current _ _) hrequest
    obtain ⟨actor, path, payload, out, -, -, -, -, hrespond⟩ := requestStep_cases hstep
    rw [status_of_respond hrespond]
    decide
  · obtain ⟨-, -, hraised⟩ := hatomic.of_error (World.idle_current _ _) hrequest
    have hinternal : Internal ex := by
      rcases hraised with hstep | ⟨fault, -, rfl⟩
      · exact h.requestStep_failsInternally hjson ex hstep
      · trivial
    rw [handle_of_thrown h.not_options hrequest] at hrun
    obtain ⟨hexception, -⟩ := ofExcept_eq_ok_iff.mp hrun
    rw [status_of_internal hinternal hexception]
    decide

theorem AuthorisedPost.answers_notJson (h : AuthorisedPost config libraries req db faults e)
    (hjson : libraries.extractJson req = .error .jsonException) :
    ∃ w, handle config libraries req (World.idle db faults) = .ok badInputResponse w ∧
      w.store = db := by
  obtain ⟨path, hpath, -⟩ := h.requests
  obtain ⟨actor, w, hlogin, -⟩ := h.login
  have hobserves := verifyAuth_observes config libraries req
  obtain ⟨-, -, hsame⟩ := hobserves.of_ok (World.idle_current _ _) hlogin
  have hpayload : readPayload libraries req = .error (.userError (str "Invalid JSON input")) := by
    simp only [readPayload, h.method, ↓reduceIte, extractReqJson, hjson]
    rfl
  have hrequest : handleRequest config libraries req (World.idle db faults) =
      .error (.userError (str "Invalid JSON input")) w := by
    rw [handleRequest_of_verified hlogin, respondTo]
    simp only [bind_apply, ofExcept_apply, hpath, hpayload]
  refine ⟨w, ?_, hsame.store⟩
  rw [handle_of_thrown h.not_options hrequest]
  rfl

/-- A body of the wrong shape writes nothing. -/
theorem AuthorisedPost.store_eq (h : AuthorisedPost config libraries req db faults e)
    (hshape : ¬ WellShaped libraries req e) :
    (worldAfter (handle config libraries req) (World.idle db faults)).store = db := by
  rcases handle_store config libraries req (World.idle_current db faults) with
    hsame | ⟨path, e', payload, j, hpath, hmatched, hpayload, hcommits⟩
  · exact hsame
  · obtain rfl := h.requests.eq_of_matched hpath hmatched
    rw [readPayload, if_pos h.method] at hpayload
    obtain ⟨payload', hextract, hpayload⟩ := bind_eq_ok.mp hpayload
    obtain ⟨-, -, hpayload⟩ := bind_eq_ok.mp hpayload
    cases hpayload
    rw [extractReqJson] at hextract
    split at hextract
    · next hjson =>
        cases hextract
        exact absurd ⟨_, hjson, holds_of_commits hcommits⟩ hshape
    · cases hextract
    · cases hextract

/-- A body of the wrong shape never writes; but it is answered as bad input
only where it is no JSON at all. -/
theorem answersBadInput_iff (h : AuthorisedPost config libraries req db faults e) :
    (AnswersBadInput config libraries req db faults e ↔
      WellShaped libraries req e ∨ libraries.extractJson req = .error .jsonException) ∧
    (¬ WellShaped libraries req e →
      (worldAfter (handle config libraries req) (World.idle db faults)).store = db) := by
  refine ⟨⟨?_, ?_⟩, h.store_eq⟩
  · intro hanswers
    by_contra hneither
    obtain ⟨hshape, hjson⟩ := not_or.mp hneither
    obtain ⟨w, hrun, -⟩ := hanswers hshape
    exact h.status_ne hjson hrun rfl
  · rintro (hshape | hjson) hnot
    · exact absurd hshape hnot
    · exact h.answers_notJson hjson

/-- The bootstrap administrator adds a project without a name: the body is null. -/
def namelessProject : HttpRequest where
  method := str "POST"
  path := str "/api/add_project"
  headers := [(str "Authorization", str "Bearer oath2|xxxx")]
  body := str "null"

theorem authorisedPost_namelessProject :
    AuthorisedPost AuthConfig.readme trustingLibraries namelessProject readmeDb [] .addProject where
  method := rfl
  writes := by decide
  requests := ⟨[str "api", str "add_project"], by decide, matchedEndpoint_iff.mp rfl⟩
  login := by
    have hactor : actorStep AuthConfig.readme trustingLibraries namelessProject readmeDb.val =
        .ok (some ⟨str "oath2|xxxx", grantedPerms readmeDb.val [str "administrator"]⟩) := rfl
    refine ⟨_, _, (verifyAuth_observes _ _ _).run_ok hactor, ?_⟩
    decide

theorem not_wellShaped_namelessProject :
    ¬ WellShaped trustingLibraries namelessProject .addProject := by
  rintro ⟨payload, hjson, hfields⟩
  obtain ⟨members, -, rfl, -⟩ := hfields ("name", .string) (by simp [fieldsRead])
  cases hjson

theorem answersBadInput_iff_namelessProject :
    (worldAfter (handle AuthConfig.readme trustingLibraries namelessProject)
      (World.idle readmeDb [])).store = readmeDb :=
  (answersBadInput_iff authorisedPost_namelessProject).2 not_wellShaped_namelessProject

/-- It is not told that its input is bad. -/
theorem nameless_project_not_answered :
    AuthorisedPost AuthConfig.readme trustingLibraries namelessProject readmeDb [] .addProject ∧
      ¬ AnswersBadInput AuthConfig.readme trustingLibraries namelessProject readmeDb []
        .addProject := by
  refine ⟨authorisedPost_namelessProject, fun hanswers => ?_⟩
  obtain ⟨w, hrun, -⟩ := hanswers not_wellShaped_namelessProject
  exact authorisedPost_namelessProject.status_ne (by simp [trustingLibraries]) hrun rfl

end MvcBackend.BadInput
