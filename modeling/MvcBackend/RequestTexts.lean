import MvcBackend.JsonTextRoundTrip
import MvcBackend.StoredNames

/-!
Requests whose bodies are texts, and configurations from files of texts: a
payload does the same whether it comes as it is or as the text it dumps to.
-/

namespace MvcBackend.RequestTexts

open MvcBackend.JsonValues
open MvcBackend.Database
open MvcBackend.Authentication
open MvcBackend.ApiParse (ApiPath)
open MvcBackend.Endpoints
open MvcBackend.ApiRouter
open MvcBackend.HttpHandler (BodyError HttpRequest HttpResponse Libraries extractReqJson handle
  handleRequest readPayload)
open MvcBackend.Configuration
open MvcBackend.PicoJson (IsInt64)
open MvcBackend.StoredNames
open MvcBackend.JsonText
open MvcBackend.JsonTextReading
open MvcBackend.JsonTextRoundTrip
open MvcBackend.Library.SortedMap
open MvcBackend.Library.Transaction

/-- Bodies are read from a text: `extractText` is `extract_json` of cpprestsdk,
with the stream that the value it returns is printed to. -/
def textLibraries (doubles : Doubles) (jwt : Jwt)
    (extractText : HttpRequest → Except BodyError Str) : Libraries where
  jwt := jwt
  extractJson req := do
    let text ← extractText req
    (parse doubles true text).mapError fun _ => .jsonException

/-- Files that hold texts, and the message for one that is not JSON. -/
def textFiles (doubles : Doubles) (read : Str → Option Str) (what : Str → Str) : Files where
  read := read
  parseJson text := (parse doubles false text).mapError fun _ => what text

theorem readsUtf8_textFiles (doubles : Doubles) (read : Str → Option Str) (what : Str → Str) :
    ReadsUtf8 (textFiles doubles read what) := by
  intro text j h
  exact (formed_of_parse (mapError_eq_ok.mp h)).dumpable

/-- So what was proved of configurations from files holds where the files are
read by nlohmann::json. -/
theorem fromFiles_of_texts {doubles : Doubles} {read : Str → Option Str} {what : Str → Str}
    {path : Str} {json : Json} {config : AuthConfig}
    (hload : loadConfig (textFiles doubles read what) path = .ok json)
    (hread : readAuthConfig json = .ok config) : FromFiles config :=
  ⟨_, path, json, readsUtf8_textFiles doubles read what, hload, hread⟩

variable {doubles : Doubles}

/-- Whether `dump` throws does not depend on how doubles are printed. -/
theorem dump_eq (doubles : Doubles) (j : Json) :
    HttpHandler.dump j = ((dump doubles j).map fun _ => ()).mapError .json := by
  obtain ⟨text, htext⟩ := textIf_dump doubles j
  rw [HttpHandler.dump, htext]
  split <;> rfl

theorem dumpable_of_dump {j : Json} {u : Unit} (h : HttpHandler.dump j = .ok u) :
    j.dumpable = true := by
  rw [HttpHandler.dump] at h
  split at h
  · next hdumpable => exact hdumpable
  · cases h

/-- What was read from a text can be logged. -/
theorem readPayload_text {jwt : Jwt} {extractText : HttpRequest → Except BodyError Str}
    (req : HttpRequest) :
    readPayload (textLibraries doubles jwt extractText) req =
      if req.method = str "POST" then
        extractReqJson (textLibraries doubles jwt extractText) req
      else .ok .null := by
  rw [readPayload]
  split
  · rcases hextract : extractReqJson (textLibraries doubles jwt extractText) req with e | payload
    · rfl
    · have hdumpable : payload.dumpable = true := by
        simp only [extractReqJson, textLibraries] at hextract
        split at hextract
        · next j hparse =>
            obtain rfl := Except.ok.inj hextract
            obtain ⟨text, -, hread⟩ := bind_eq_ok.mp hparse
            exact (formed_of_parse (mapError_eq_ok.mp hread)).dumpable
        · cases hextract
        · cases hextract
      simp [HttpHandler.dump, hdumpable, bind, Except.bind, pure, Except.pure]
  · rfl

/-! ### Fields -/

theorem getToString_reread (j : Json) : (reread j).getToString = j.getToString := by
  cases j with
  | numberInteger n =>
      rw [reread]
      split <;> rfl
  | _ => rfl

theorem getToInt_reread (j : Json) : (reread j).getToInt = j.getToInt := by
  cases j with
  | numberInteger n =>
      rw [reread]
      split
      · next hn => rw [Json.getToInt, Json.getToInt, Int.toNat_of_nonneg hn]
      · rfl
  | _ => rfl

/-- The members of an object are those of a `std::map`. -/
def KeysSorted (j : Json) : Prop := ∀ members, j = .object members → Sorted members

theorem atKey_reread {j : Json} (h : KeysSorted j) (key : Str) :
    (reread j).atKey key = (j.atKey key).map reread := by
  cases j with
  | numberInteger n =>
      rw [reread]
      split <;> rfl
  | object members =>
      rw [reread, assignAll_rereadMembers (h members rfl), rereadMembers_eq]
      simp only [Json.atKey, lookup_map]
      cases members.lookup key <;> rfl
  | _ => rfl

theorem stringField_reread {payload : Json} (h : KeysSorted payload) (key : String) :
    stringField (reread payload) key = stringField payload key := by
  rw [stringField, stringField, atKey_reread h]
  rcases payload.atKey (str key) with e | member
  · rfl
  · show ((reread member).getToString.mapError _) = _
    rw [getToString_reread]
    rfl

theorem intField_reread {payload : Json} (h : KeysSorted payload) (key : String) :
    intField (reread payload) key = intField payload key := by
  rw [intField, intField, atKey_reread h]
  rcases payload.atKey (str key) with e | member
  · rfl
  · show ((reread member).getToInt.mapError _) = _
    rw [getToInt_reread]
    rfl

theorem call_reread {payload : Json} (h : KeysSorted payload) (actor : Option Actor)
    (e : IEndpoint) : e.call ⟨reread payload, actor⟩ = e.call ⟨payload, actor⟩ := by
  cases e with
  | addProject => simp only [IEndpoint.call, addProjectCall, stringField_reread h]
  | delProject => simp only [IEndpoint.call, delProjectCall, intField_reread h]
  | addTask => simp only [IEndpoint.call, addTaskCall, stringField_reread h, intField_reread h]
  | assignTask => simp only [IEndpoint.call, assignTaskCall, intField_reread h]
  | unassignTask => simp only [IEndpoint.call, unassignTaskCall, intField_reread h]
  | addWorker => simp only [IEndpoint.call, addWorkerCall, stringField_reread h]
  | getProjects | getProject _ | getWorker _ | getTask _ | getUsers | getRoles | getWorkers
  | debug => rfl

theorem route_reread {payload : Json} (h : KeysSorted payload) (actor : Option Actor)
    (path : ApiPath) : route path ⟨reread payload, actor⟩ = route path ⟨payload, actor⟩ := by
  simp only [route, routeTo, call_reread h]

/-! ### Requests -/

/-- A payload does the same whether it is read from the text that it dumps to or
handed over as it is, whatever request it comes with, and whatever the database
does. -/
theorem requests_by_text {payload : Json} (hfits : Fits doubles payload)
    (hkeys : KeysSorted payload) {text : Str} (hdump : dump doubles payload = .ok text)
    {extractText : HttpRequest → Except BodyError Str} {req : HttpRequest}
    (hextract : extractText req = .ok text) (config : AuthConfig) (jwt : Jwt) (w : AppWorld) :
    handle config (textLibraries doubles jwt extractText) req w =
      handle config ⟨jwt, fun _ => .ok payload⟩ req w := by
  have hlogged : HttpHandler.dump payload = .ok () := by
    rw [dump_eq doubles, hdump]
    rfl
  have hdumpable := dumpable_of_dump hlogged
  obtain ⟨text', htext', hreads⟩ := exists_dump hfits hdumpable
  obtain rfl : text = text' := Except.ok.inj (hdump.symm.trans htext')
  have hparse : parse doubles true text = .ok (reread payload) := by
    simpa using hreads.isTextOf.1 [] rfl
  have hvalue : readPayload ⟨jwt, fun _ => .ok payload⟩ req =
      .ok (if req.method = str "POST" then payload else .null) := by
    rw [readPayload]
    split
    · simp [extractReqJson, hlogged, bind, Except.bind, pure, Except.pure]
    · rfl
  have htext : readPayload (textLibraries doubles jwt extractText) req =
      .ok (if req.method = str "POST" then reread payload else .null) := by
    rw [readPayload_text]
    split
    · simp [extractReqJson, textLibraries, hextract, hparse, bind, Except.bind, Except.mapError]
    · rfl
  have hrequest : handleRequest config (textLibraries doubles jwt extractText) req =
      handleRequest config ⟨jwt, fun _ => .ok payload⟩ req := by
    rw [handleRequest, handleRequest, hvalue, htext]
    split
    · simp only [ofExcept, pure_bind, route_reread hkeys]
      rfl
    · rfl
  rw [handle, handle, hrequest]

/-- A task whose name is a line feed, for the third project. -/
def taskPayload : Json :=
  .object [(str "name", .string [0x0A]), (str "project_id", .numberInteger 3)]

def taskPost : HttpRequest where
  method := str "POST"
  path := str "/api/add_task"
  headers := [(str "Authorization", str "Bearer oath2|xxxx")]
  body := str "\x7b\"name\":\"\\n\",\"project_id\":3\x7d"

/-- Doubles that no text is read as. -/
def noDoubles : Doubles := ⟨fun _ => none, fun _ => []⟩

theorem requests_by_text_task :
    handle AuthConfig.readme (textLibraries noDoubles trustingJwt fun req => .ok req.body) taskPost
        (World.idle Db.empty []) =
      handle AuthConfig.readme ⟨trustingJwt, fun _ => .ok taskPayload⟩ taskPost
        (World.idle Db.empty []) := by
  have hfits : Fits noDoubles taskPayload := ⟨trivial, (by decide : IsInt64 3), trivial⟩
  have hkeys : KeysSorted taskPayload := by
    rintro members hmembers
    obtain rfl := Json.object.inj hmembers
    simp only [Sorted, List.map_cons, List.map_nil, List.pairwise_cons]
    decide
  have hdump : dump noDoubles taskPayload = .ok taskPost.body := rfl
  exact requests_by_text hfits hkeys hdump rfl _ _ _

end MvcBackend.RequestTexts
