import MvcBackend.HandlerRefinement

/-!
The bearer token of a request, read by a machine of two states, is what stands
behind the first space of its header; a token that does not verify is an error.
-/

namespace MvcBackend.BearerTokens

open MvcBackend.JsonValues
open MvcBackend.Database
open MvcBackend.Authentication
open MvcBackend.HttpHandler
open MvcBackend.HandlerRefinement
open MvcBackend.Library.Transaction

/-- What stands before the first space of a header, in lower case. -/
def headerScheme (header : Str) : Str := (header.takeWhile (· ≠ 0x20)).map toLower

/-- What stands behind the first space of a header. -/
def headerToken (header : Str) : Str := (header.dropWhile (· ≠ 0x20)).tail

theorem foldl_token (scheme token rest : Str) :
    rest.foldl splitAuthStep (.token, scheme, token) = (.token, scheme, token ++ rest) := by
  induction rest generalizing token with
  | nil => simp
  | cons c rest ih =>
      rw [List.foldl_cons, splitAuthStep, ih, List.append_assoc]
      rfl

theorem foldl_scheme (scheme header : Str) :
    (header.foldl splitAuthStep (.scheme, scheme, [])).2 =
      (scheme ++ headerScheme header, headerToken header) := by
  induction header generalizing scheme with
  | nil => simp [headerScheme, headerToken]
  | cons c header ih =>
      rw [List.foldl_cons, splitAuthStep]
      split
      · next hc => simp [foldl_token, headerScheme, headerToken, hc]
      · next hc => simp [ih, headerScheme, headerToken, hc]

theorem splitAuthHeader_eq (header : Str) :
    splitAuthHeader header = (headerScheme header, headerToken header) :=
  foldl_scheme [] header

theorem getJwt_eq_some_iff {req : HttpRequest} {token : Str} :
    getJwt req = some token ↔ ∃ header, findHeader req.headers "authorization" = some header ∧
      headerScheme header = str "bearer" ∧ token = headerToken header := by
  rw [getJwt]
  rcases findHeader req.headers "authorization" with _ | header
  · simp
  · simp [splitAuthHeader_eq, eq_comm]

/-- Neither a space nor its lower case is a letter of the scheme. -/
theorem forall_ne_space {scheme : Str} (h : scheme.map toLower = str "bearer") :
    ∀ c ∈ scheme, c ≠ 0x20 := by
  rintro c hc rfl
  have hmem : toLower 0x20 ∈ str "bearer" := h ▸ List.mem_map_of_mem hc
  revert hmem
  decide

theorem header_of_bearer {scheme : Str} (h : scheme.map toLower = str "bearer") (token : Str) :
    headerScheme (scheme ++ 0x20 :: token) = str "bearer" ∧
      headerToken (scheme ++ 0x20 :: token) = token := by
  have hscheme : ∀ c ∈ scheme, decide (c ≠ 0x20) = true :=
    fun c hc => decide_eq_true (forall_ne_space h c hc)
  simp only [headerScheme, headerToken, List.takeWhile_append_of_pos hscheme,
    List.dropWhile_append_of_pos hscheme]
  simpa using h

variable (config : AuthConfig) (libraries : Libraries)

theorem verifyAuth_anonymous_iff {req : HttpRequest} {w : AppWorld} :
    (∃ w', HttpHandler.verifyAuth config libraries req w = .ok none w') ↔ getJwt req = none := by
  rw [HttpHandler.verifyAuth]
  rcases getJwt req with _ | token
  · simp
  · simp only [bind_apply, reduceCtorEq, iff_false, not_exists]
    intro w'
    rcases Authenticator.auth config libraries.jwt token w with ⟨actor, w''⟩ | ⟨e, w''⟩
    · simp
    · simp

theorem verifyAuth_of_rejected {req : HttpRequest} {token what : Str}
    (htoken : getJwt req = some token)
    (hrejected : Authentication.verifyAuth libraries.jwt config token = .error (.authError what))
    (w : AppWorld) :
    HttpHandler.verifyAuth config libraries req w = .error (.authError what) w := by
  rw [HttpHandler.verifyAuth, htoken]
  simp only [Authenticator.auth, bind_apply, ofExcept_apply, hrejected]

/-- The token of a header is exact, a request is anonymous only for the lack of
one, and a token that does not verify is answered with an error. -/
theorem bearer_exact (req : HttpRequest) :
    (∀ token, getJwt req = some token ↔
      ∃ header, findHeader req.headers "authorization" = some header ∧
        headerScheme header = str "bearer" ∧ token = headerToken header) ∧
    (∀ scheme token, scheme.map toLower = str "bearer" →
      findHeader req.headers "authorization" = some (scheme ++ 0x20 :: token) →
        getJwt req = some token) ∧
    (∀ w : AppWorld, (∃ w', HttpHandler.verifyAuth config libraries req w = .ok none w') ↔
      ∀ header, findHeader req.headers "authorization" = some header →
        headerScheme header ≠ str "bearer") ∧
    (∀ token what, getJwt req = some token →
      libraries.jwt config.jwtLeewaySecs config.publicKey config.issuer token = .error what →
        ∀ w, HttpHandler.verifyAuth config libraries req w = .error (.authError what) w ∧
          (req.method ≠ str "OPTIONS" → ∀ response w',
            handle config libraries req w = .ok response w' →
              response.status = 400 ∧ ¬ IsOk response)) := by
  refine ⟨fun token => getJwt_eq_some_iff, ?_, ?_, ?_⟩
  · intro scheme token hscheme hheader
    obtain ⟨hbearer, htoken⟩ := header_of_bearer hscheme token
    exact getJwt_eq_some_iff.mpr ⟨_, hheader, hbearer, htoken.symm⟩
  · intro w
    rw [verifyAuth_anonymous_iff, Option.eq_none_iff_forall_ne_some]
    constructor
    · intro h header hheader hscheme
      exact h _ (getJwt_eq_some_iff.mpr ⟨header, hheader, hscheme, rfl⟩)
    · intro h token htoken
      obtain ⟨header, hheader, hscheme, -⟩ := getJwt_eq_some_iff.mp htoken
      exact h header hheader hscheme
  · intro token what htoken hjwt w
    have hrejected : Authentication.verifyAuth libraries.jwt config token =
        .error (.authError what) := by
      rw [Authentication.verifyAuth, hjwt]
    have hverify := verifyAuth_of_rejected config libraries htoken hrejected w
    refine ⟨hverify, ?_⟩
    intro hmethod response w' hrun
    rw [handle_of_thrown hmethod (handleRequest_of_unverified hverify)] at hrun
    obtain ⟨hresponse, -⟩ := ofExcept_eq_ok_iff.mp hrun
    have hstatus : response.status = 400 := by
      rw [jsonResponse_eq hresponse]
    exact ⟨hstatus, not_isOk_handleException hresponse⟩

/-- Its token has a space at either end and is no token at all. -/
def forgedRequest : HttpRequest where
  method := str "GET"
  path := str "/api/get_users"
  headers := [(str "Authorization", str "BeaRer  A b ")]
  body := []

/-- Libraries that trust no token. -/
def suspiciousLibraries : Libraries :=
  ⟨fun _ _ _ _ => .error (str "invalid token supplied"), fun _ => .ok .null⟩

theorem bearer_exact_forgedRequest :
    getJwt forgedRequest = some (str " A b ") ∧
      (∀ w, HttpHandler.verifyAuth AuthConfig.readme suspiciousLibraries forgedRequest w =
        .error (.authError (str "invalid token supplied")) w) ∧
      ∀ w response w', handle AuthConfig.readme suspiciousLibraries forgedRequest w =
        .ok response w' → response.status = 400 ∧ ¬ IsOk response := by
  obtain ⟨-, hcasing, -, hrejected⟩ :=
    bearer_exact AuthConfig.readme suspiciousLibraries forgedRequest
  have htoken := hcasing (str "BeaRer") (str " A b ") (by decide) (by decide)
  have hanswer := hrejected _ _ htoken rfl
  exact ⟨htoken, fun w => (hanswer w).1, fun w => (hanswer w).2 (by decide)⟩

end MvcBackend.BearerTokens
