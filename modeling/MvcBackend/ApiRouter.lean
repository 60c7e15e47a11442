import MvcBackend.ApiParse
import MvcBackend.Endpoints

/-!
The route table of the API and `ApiRouter::route`.
-/

namespace MvcBackend.ApiRouter

open MvcBackend.JsonValues
open MvcBackend.DataModel
open MvcBackend.Database
open MvcBackend.Authentication
open MvcBackend.ApiParse
open MvcBackend.Endpoints
open MvcBackend.Library.Transaction

/-- The argument of `PathArgs(int id)`; no other tuple compiles. -/
def intArg : List (Val IEndpoint) → Int
  | [.int id] => id
  | _ => 0

def routes : List (Route IEndpoint) :=
  [⟨fun _ => .getProjects, [.lit (str "get_projects")]⟩,
    ⟨fun args => .getProject ⟨intArg args⟩, [.lit (str "get_project"), .int]⟩,
    ⟨fun args => .getWorker ⟨intArg args⟩, [.lit (str "get_worker"), .int]⟩,
    ⟨fun args => .getTask ⟨intArg args⟩, [.lit (str "get_task"), .int]⟩,
    ⟨fun _ => .addProject, [.lit (str "add_project")]⟩,
    ⟨fun _ => .delProject, [.lit (str "del_project")]⟩,
    ⟨fun _ => .getUsers, [.lit (str "get_users")]⟩,
    ⟨fun _ => .addTask, [.lit (str "add_task")]⟩,
    ⟨fun _ => .assignTask, [.lit (str "assign_task")]⟩,
    ⟨fun _ => .unassignTask, [.lit (str "unassign_task")]⟩,
    ⟨fun _ => .addWorker, [.lit (str "add_worker")]⟩,
    ⟨fun _ => .getWorkers, [.lit (str "get_workers")]⟩,
    ⟨fun _ => .debug, [.lit (str "debug")]⟩]

def apiParse (path : ApiPath) : Except ParseFault (Option (Val IEndpoint)) :=
  Parser.rootParse (apiParsers routes) path

/-- Whether some route matched, even if it left segments over. -/
def constructsEndpoint (path : ApiPath) : Bool :=
  match Parser.allParse (apiParsers routes) [] ⟨path⟩ with
  | .ok (some _) => true
  | _ => false

def ofParse {α : Type} : Except ParseFault α → App α
  | .ok a => return a
  | .error (.thrown code) => throw (.thrown code)
  | .error .pastEnd => throw .undefined

def parsedEndpoint : Option (Val IEndpoint) → Option IEndpoint
  | some (.object endpoint) => some endpoint
  | _ => none

/-- Parse a path. The injector gives an endpoint it constructs a database of
its own, which reads the schema version when it is opened. -/
def parse (path : ApiPath) : App (Option IEndpoint) := do
  if constructsEndpoint path then engineCall
  let result ← ofParse (apiParse path)
  return parsedEndpoint result

/-- `ApiRouter::route`, for any implementation of the virtual `call`. -/
def routeTo (call : IEndpoint → EndpointInput → Call) (path : ApiPath)
    (input : EndpointInput) : Call := do
  let result ← parse path
  match result with
  | some endpoint =>
      if !endpoint.requirements.metBy input.actor then throw (.authError (str "nope"))
      call endpoint input
  | none => throw (.userError (str "Bad route"))

def route (path : ApiPath) (input : EndpointInput) : Call := routeTo IEndpoint.call path input

end MvcBackend.ApiRouter
