import MvcBackend.ApiRouter

/-!
Requests and responses, the bearer token of a request, its path, and
`HttpHandler::handle`.
-/

namespace MvcBackend.HttpHandler

open MvcBackend.JsonValues
open MvcBackend.Database
open MvcBackend.Authentication
open MvcBackend.ApiParse
open MvcBackend.Endpoints
open MvcBackend.ApiRouter
open MvcBackend.Library.Transaction

structure HttpRequest where
  method : Str
  path : Str
  headers : List (Str × Str)
  body : Str

inductive ResponseBody where
  | text (s : Str)
  | json (j : Json)

structure HttpResponse where
  status : Nat
  body : ResponseBody
  headers : List (Str × Str)

/-- How reading a JSON body fails: in one of the two JSON libraries, or
otherwise, as on a wrong content type. -/
inductive BodyError where
  | jsonException
  | other (what : Str)

structure Libraries where
  jwt : Jwt
  extractJson : HttpRequest → Except BodyError Json

/-- Libraries that trust every token and read every body as null. -/
def trustingLibraries : Libraries := ⟨trustingJwt, fun _ => .ok .null⟩

/-- `std::tolower` in the C locale. -/
def toLower (c : UInt8) : UInt8 := if 0x41 ≤ c ∧ c ≤ 0x5A then c + 0x20 else c

inductive HeaderState where
  | scheme
  | token

def splitAuthStep : HeaderState × Str × Str → UInt8 → HeaderState × Str × Str
  | (.scheme, scheme, token), c =>
      if c = 0x20 then (.token, scheme, token) else (.scheme, scheme ++ [toLower c], token)
  | (.token, scheme, token), c => (.token, scheme, token ++ [c])

def splitAuthHeader (header : Str) : Str × Str :=
  (header.foldl splitAuthStep (.scheme, [], [])).2

def findHeader (headers : List (Str × Str)) (name : String) : Option Str :=
  (headers.find? fun header => header.1.map toLower = str name).map Prod.snd

def getJwt (req : HttpRequest) : Option Str :=
  match findHeader req.headers "authorization" with
  | none => none
  | some header =>
      let (scheme, token) := splitAuthHeader header
      if scheme ≠ str "bearer" then none else some token

def hexValue (c : UInt8) : Option UInt8 :=
  if 0x30 ≤ c ∧ c ≤ 0x39 then some (c - 0x30)
  else if 0x41 ≤ c ∧ c ≤ 0x46 then some (c - 0x37)
  else if 0x61 ≤ c ∧ c ≤ 0x66 then some (c - 0x57)
  else none

def uriException : Exc := .libraryException (str "Invalid URI string")

def uriDecode : Str → Except Exc Str
  | [] => .ok []
  | 0x25 :: hi :: lo :: rest =>
      match hexValue hi, hexValue lo with
      | some hi, some lo => (uriDecode rest).map fun tail => (16 * hi + lo) :: tail
      | _, _ => .error uriException
  | 0x25 :: _ => .error uriException
  | c :: rest => (uriDecode rest).map fun tail => c :: tail

def uriSplitPath (path : Str) : List Str := (path.splitOn 0x2F).filter fun s => !s.isEmpty

def splitRequestPath (req : HttpRequest) : Except Exc ApiPath :=
  (uriDecode req.path).map uriSplitPath

def extractReqJson (libraries : Libraries) (req : HttpRequest) : Except Exc Json :=
  match libraries.extractJson req with
  | .ok payload => .ok payload
  | .error .jsonException => .error (.userError (str "Invalid JSON input"))
  | .error (.other what) => .error (.libraryException what)

/-- `dump` of a value, of which only its failure matters here. -/
def dump (j : Json) : Except Exc Unit :=
  if j.dumpable then .ok () else .error (.json (.typeError 316))

def allowOrigin : Str × Str := (str "Access-Control-Allow-Origin", str "*")

def jsonResponse (code : Nat) (body : Json) : Except Exc HttpResponse := do
  dump body
  return ⟨code, .json body, [allowOrigin]⟩

def jsonResponseOk (code : Nat) (body : Json) : Except Exc HttpResponse :=
  jsonResponse code (.object [(str "Ok", body)])

def jsonResponseErr (code : Nat) (body : Json) : Except Exc HttpResponse :=
  jsonResponse code (.object [(str "Err", body)])

def respond : Option EndpointOutput → Except Exc HttpResponse
  | some output => jsonResponseOk 200 output.payload
  | none => jsonResponseErr 200 (.array [.string (str ":(")])

def optionsResponse : HttpResponse :=
  ⟨200, .text [],
    [allowOrigin, (str "Access-Control-Allow-Methods", str "POST, GET, OPTIONS"),
      (str "Access-Control-Allow-Headers", str "Content-Type, Authorization")]⟩

section

variable (config : AuthConfig) (libraries : Libraries)

def verifyAuth (req : HttpRequest) : App (Option Actor) :=
  match getJwt req with
  | some token => return some (← Authenticator.auth config libraries.jwt token)
  | none => return none

/-- The payload stays null unless the method is POST; logging it dumps it. -/
def readPayload (req : HttpRequest) : Except Exc Json :=
  if req.method = str "POST" then do
    let payload ← extractReqJson libraries req
    dump payload
    return payload
  else return .null

/-- The block that `handle` tries. -/
def handleRequest (req : HttpRequest) : App HttpResponse := do
  let actor ← verifyAuth config libraries req
  let path ← ofExcept (splitRequestPath req)
  let payload ← ofExcept (readPayload libraries req)
  let result ← route path ⟨payload, actor⟩
  ofExcept (respond result)

/-- The catch clauses, in order; what is no `std::exception` passes them. A
`Json` made from one string in braces is an array. -/
def handleException : Exc → Except Exc HttpResponse
  | .userError what => jsonResponseErr 400 (.array [.string what])
  | .authError what => jsonResponseErr 400 (.array [.string what])
  | .thrown code => throw (.thrown code)
  | .undefined => throw .undefined
  | _ => jsonResponseErr 500 .null

def handle (req : HttpRequest) : App HttpResponse :=
  if req.method = str "OPTIONS" then return optionsResponse
  else tryCatch (handleRequest config libraries req) fun e => ofExcept (handleException e)

end

end MvcBackend.HttpHandler
