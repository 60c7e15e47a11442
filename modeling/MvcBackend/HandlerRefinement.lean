import MvcBackend.AuthenticatorRefinement
import MvcBackend.HttpHandler
import MvcBackend.RouterRefinement

/-!
The block that `handle` tries is one step on the tables, so a request commits
at most once, and what fails in it leaves the store alone.
-/

namespace MvcBackend.HandlerRefinement

open MvcBackend.JsonValues
open MvcBackend.DataModel
open MvcBackend.Database
open MvcBackend.Authentication
open MvcBackend.Endpoints
open MvcBackend.EndpointSteps
open MvcBackend.ApiRouter
open MvcBackend.HttpHandler
open MvcBackend.AuthenticatorRefinement
open MvcBackend.RouterRefinement
open MvcBackend.Library.Transaction

variable (config : AuthConfig) (libraries : Libraries) (req : HttpRequest)

def actorStep (t : Tables) : Except Exc (Option Actor) :=
  match getJwt req with
  | some token => do return some (← authStep config libraries.jwt token t)
  | none => return none

theorem verifyAuth_observes :
    Observes (HttpHandler.verifyAuth config libraries req) (actorStep config libraries req) := by
  unfold HttpHandler.verifyAuth actorStep
  cases getJwt req with
  | some token =>
      apply Observes.bind (auth_observes config libraries.jwt token)
      intro actor
      exact Observes.pure _
  | none => exact Observes.pure none

/-- What `handleRequest` does once the actor is known. -/
def respondTo (actor : Option Actor) : App HttpResponse := do
  let path ← ofExcept (splitRequestPath req)
  let payload ← ofExcept (readPayload libraries req)
  let result ← route path ⟨payload, actor⟩
  ofExcept (respond result)

def respondStep (actor : Option Actor) (t : Tables) :
    Except Exc (HttpResponse × Option Tables) := do
  let path ← splitRequestPath req
  let payload ← readPayload libraries req
  let result ← routeStep path ⟨payload, actor⟩ t
  (respond result.1).map fun response => (response, result.2)

def requestStep (t : Tables) : Except Exc (HttpResponse × Option Tables) := do
  let actor ← actorStep config libraries req t
  let path ← splitRequestPath req
  let payload ← readPayload libraries req
  let result ← routeStep path ⟨payload, actor⟩ t
  (respond result.1).map fun response => (response, result.2)

/-- The output of a write is a number or null, which can always be sent. -/
theorem respond_of_commit {path : ApiParse.ApiPath} {input : EndpointInput}
    {out : Option EndpointOutput} {t t' : Tables}
    (h : routeStep path input t = .ok (out, some t')) : ∃ response, respond out = .ok response := by
  obtain ⟨e, j, -, rfl, hcommits⟩ := routeStep_commits h
  cases hcommits <;> exact ⟨_, rfl⟩

theorem respondTo_atomic (actor : Option Actor) :
    Atomic (respondTo libraries req actor) (respondStep libraries req actor) := by
  apply Atomic.after (Observes.ofExcept _)
  intro path
  apply Atomic.after (Observes.ofExcept _)
  intro payload
  apply Atomic.thenExcept (route_atomic path ⟨payload, actor⟩)
  intro t out t' h
  exact respond_of_commit h

theorem handleRequest_atomic :
    Atomic (handleRequest config libraries req) (requestStep config libraries req) :=
  Atomic.after (verifyAuth_observes config libraries req) (respondTo_atomic libraries req)

variable {config libraries req}

theorem respondStep_cases {actor : Option Actor} {t : Tables} {response : HttpResponse}
    {o : Option Tables} (h : respondStep libraries req actor t = .ok (response, o)) :
    ∃ path payload out, splitRequestPath req = .ok path ∧ readPayload libraries req = .ok payload ∧
      routeStep path ⟨payload, actor⟩ t = .ok (out, o) ∧ respond out = .ok response := by
  obtain ⟨path, hpath, h⟩ := bind_eq_ok.mp h
  obtain ⟨payload, hpayload, h⟩ := bind_eq_ok.mp h
  obtain ⟨⟨out, o'⟩, hroute, h⟩ := bind_eq_ok.mp h
  cases hrespond : respond out with
  | error e => simp [hrespond, Except.map] at h
  | ok response' =>
      obtain ⟨rfl, rfl⟩ : response' = response ∧ o' = o := by
        simpa [hrespond, Except.map] using h
      exact ⟨path, payload, out, hpath, hpayload, hroute, hrespond⟩

theorem requestStep_cases {t : Tables} {response : HttpResponse} {o : Option Tables}
    (h : requestStep config libraries req t = .ok (response, o)) :
    ∃ actor path payload out, actorStep config libraries req t = .ok actor ∧
      splitRequestPath req = .ok path ∧ readPayload libraries req = .ok payload ∧
      routeStep path ⟨payload, actor⟩ t = .ok (out, o) ∧ respond out = .ok response := by
  obtain ⟨actor, hactor, h⟩ := bind_eq_ok.mp h
  obtain ⟨path, payload, out, hrest⟩ := respondStep_cases h
  exact ⟨actor, path, payload, out, hactor, hrest⟩

def IsOk (response : HttpResponse) : Prop :=
  ∃ j, response.body = .json (.object [(str "Ok", j)])

theorem jsonResponse_eq {code : Nat} {body : Json} {response : HttpResponse}
    (h : jsonResponse code body = .ok response) : response = ⟨code, .json body, [allowOrigin]⟩ := by
  obtain ⟨-, -, h⟩ := bind_eq_ok.mp h
  cases h
  rfl

theorem not_isOk_jsonResponseErr {code : Nat} {body : Json} {response : HttpResponse}
    (h : jsonResponseErr code body = .ok response) : ¬ IsOk response := by
  rintro ⟨j, hj⟩
  rw [jsonResponse_eq h] at hj
  simp [str] at hj

theorem not_isOk_handleException {e : Exc} {response : HttpResponse}
    (h : handleException e = .ok response) : ¬ IsOk response := by
  cases e with
  | thrown code => cases h
  | undefined => cases h
  | userError | authError | runtimeError | json | alreadyInTransaction | notInTransaction
  | objectNotPersistent | databaseException | libraryException =>
      exact not_isOk_jsonResponseErr h

theorem isOk_iff_of_respond {out : Option EndpointOutput} {response : HttpResponse}
    (h : respond out = .ok response) :
    IsOk response ↔ ∃ output, out = some output ∧
      response.body = .json (.object [(str "Ok", output.payload)]) := by
  cases out with
  | none => simp [not_isOk_jsonResponseErr h]
  | some output =>
      have hbody : response.body = .json (.object [(str "Ok", output.payload)]) := by
        rw [jsonResponse_eq h]
      simp [IsOk, hbody]

theorem handle_of_responded (hmethod : req.method ≠ str "OPTIONS") {response : HttpResponse}
    {w w' : AppWorld} (hrun : handleRequest config libraries req w = .ok response w') :
    handle config libraries req w = .ok response w' := by
  simp only [handle, hmethod, ↓reduceIte, tryCatch_apply, hrun]

/-- What is thrown goes to the catch clauses. -/
theorem handle_of_thrown (hmethod : req.method ≠ str "OPTIONS") {e : Exc} {w w' : AppWorld}
    (hrun : handleRequest config libraries req w = .error e w') :
    handle config libraries req w = (ofExcept (handleException e) : App HttpResponse) w' := by
  simp only [handle, hmethod, ↓reduceIte, tryCatch_apply, hrun]

theorem handleRequest_of_verified {w w' : AppWorld} {actor : Option Actor}
    (hrun : HttpHandler.verifyAuth config libraries req w = .ok actor w') :
    handleRequest config libraries req w = respondTo libraries req actor w' := by
  show (HttpHandler.verifyAuth config libraries req >>= respondTo libraries req) w = _
  rw [bind_apply, hrun]

theorem handleRequest_of_unverified {w w' : AppWorld} {e : Exc}
    (hrun : HttpHandler.verifyAuth config libraries req w = .error e w') :
    handleRequest config libraries req w = .error e w' := by
  show (HttpHandler.verifyAuth config libraries req >>= respondTo libraries req) w = _
  rw [bind_apply, hrun]

variable (config libraries req)

/-- A request makes its step, or it fails and leaves the store alone. -/
theorem handle_cases {w : AppWorld} (hw : w.current = none) :
    match handle config libraries req w with
    | .ok response w' => w'.current = none ∧
        ((∃ o, requestStep config libraries req w.store.val = .ok (response, o) ∧
            Settled w w' o) ∨
          ¬ IsOk response ∧ Unchanged w w')
    | .error _ w' => w'.current = none ∧ Unchanged w w' := by
  have hatomic := handleRequest_atomic config libraries req
  by_cases hmethod : req.method = str "OPTIONS"
  · have hrun : handle config libraries req w = .ok optionsResponse w := by
      simp [handle, hmethod]
    rw [hrun]
    refine ⟨hw, .inr ⟨?_, .refl w⟩⟩
    rintro ⟨j, hj⟩
    cases hj
  · rcases hrun : handleRequest config libraries req w with ⟨response, w'⟩ | ⟨e, w'⟩
    · rw [handle_of_responded hmethod hrun]
      obtain ⟨hcurrent, hend⟩ := hatomic.of_ok hw hrun
      exact ⟨hcurrent, .inl hend⟩
    · rw [handle_of_thrown hmethod hrun, ofExcept_apply]
      obtain ⟨hcurrent, hsame, -⟩ := hatomic.of_error hw hrun
      rcases hexception : handleException e with e' | response
      · exact ⟨hcurrent, hsame⟩
      · exact ⟨hcurrent, .inr ⟨not_isOk_handleException hexception, hsame⟩⟩

/-- All that a request can do to the tables is one write of an endpoint. -/
theorem handle_store {w : AppWorld} (hw : w.current = none) :
    let w' := worldAfter (handle config libraries req) w
    w'.store = w.store ∨
      ∃ path e payload j, splitRequestPath req = .ok path ∧ matchedEndpoint path = some e ∧
        readPayload libraries req = .ok payload ∧
          Commits payload w.store.val e j w'.store.val := by
  have h := handle_cases config libraries req hw
  simp only [worldAfter]
  cases hrun : handle config libraries req w with
  | error e w' =>
      rw [hrun] at h
      exact .inl h.2.store
  | ok response w' =>
      rw [hrun] at h
      obtain ⟨-, ⟨o, hstep, hsettled⟩ | ⟨-, hsame⟩⟩ := h
      · cases o with
        | none => exact .inl hsettled.store
        | some t' =>
            obtain ⟨actor, path, payload, out, -, hpath, hpayload, hroute, -⟩ :=
              requestStep_cases hstep
            obtain ⟨e, j, hmatched, -, hcommits⟩ := routeStep_commits hroute
            refine .inr ⟨path, e, payload, j, hpath, hmatched, hpayload, ?_⟩
            simp only [hsettled.1]
            exact hcommits
      · exact .inl hsame.store

/-- The other way round: where the database does not fail, a write that its actor
may make is made. -/
theorem handle_of_commits {db : Db} {actor : Option Actor} {path : ApiParse.ApiPath}
    {e : IEndpoint} {payload j : Json} {t' : Tables} {response : HttpResponse}
    (hmethod : req.method ≠ str "OPTIONS")
    (hlogin : actorStep config libraries req db.val = .ok actor)
    (hpath : splitRequestPath req = .ok path) (hread : readPayload libraries req = .ok payload)
    (hmatched : matchedEndpoint path = some e) (hmet : e.requirements.metBy actor = true)
    (hcommits : Commits payload db.val e j t') (hrespond : respond (some ⟨j⟩) = .ok response) :
    ∃ w, handle config libraries req (World.idle db []) = .ok response w ∧ w.store.val = t' := by
  have hcall : step e ⟨payload, actor⟩ db.val = .ok (some ⟨j⟩, some t') :=
    step_of_commits hcommits
  have hroute : routeStep path ⟨payload, actor⟩ db.val = .ok (some ⟨j⟩, some t') := by
    rw [routeStep, hmatched]
    simp only [hmet, if_true, hcall]
  have hstep : requestStep config libraries req db.val = .ok (response, some t') := by
    simp [requestStep, hlogin, hpath, hread, hroute, hrespond, bind, Except.bind, Except.map]
  obtain ⟨w, hrun, -, hsettled⟩ := (handleRequest_atomic config libraries req).run_ok hstep
  exact ⟨w, handle_of_responded hmethod hrun, hsettled.1⟩

end MvcBackend.HandlerRefinement
