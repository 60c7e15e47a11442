import MvcBackend.JsonValues

/-!
The type-based path parser. A parser type of the source is a value of
`Parser ρ` here, where `ρ` stands for the classes that a grammar constructs; a
`std::tuple` of results is a list of values.
-/

namespace MvcBackend.ApiParse

open MvcBackend.JsonValues

abbrev ApiPath := List Str

/-- What a parse must not run into: `throw 666`, and an iterator past the end. -/
inductive ParseFault where
  | thrown (code : Int)
  | pastEnd
  deriving DecidableEq

structure State where
  rest : List Str
  deriving DecidableEq

namespace State

def atEnd (s : State) : Bool := s.rest.isEmpty

def segment (s : State) : Except ParseFault Str :=
  match s.rest with
  | segment :: _ => .ok segment
  | [] => .error (.thrown 666)

def next (s : State) : Except ParseFault State :=
  match s.rest with
  | _ :: rest => .ok ⟨rest⟩
  | [] => .error .pastEnd

end State

inductive StoiError where
  | invalidArgument
  | outOfRange
  deriving DecidableEq

def isSpace (c : UInt8) : Bool := c = 0x20 || (0x09 ≤ c && c ≤ 0x0D)

def isDigit (c : UInt8) : Bool := 0x30 ≤ c && c ≤ 0x39

def digitsValue (digits : Str) : Nat :=
  digits.foldl (fun n c => 10 * n + (c.toNat - 0x30)) 0

def splitSign : Str → Int × Str
  | 0x2D :: rest => (-1, rest)
  | 0x2B :: rest => (1, rest)
  | s => (1, s)

/-- `std::stoi`: skip white space, convert the longest numeric prefix, ignore
the rest. -/
def stoi (s : Str) : Except StoiError Int :=
  let (sign, rest) := splitSign (s.dropWhile isSpace)
  let digits := rest.takeWhile isDigit
  if digits.isEmpty then .error .invalidArgument
  else
    let n := sign * digitsValue digits
    if IsInt n then .ok n else .error .outOfRange

inductive Val (ρ : Type) where
  | int (n : Int)
  | string (s : Str)
  | tuple (items : List (Val ρ))
  | object (x : ρ)

structure Result (ρ : Type) where
  nextState : State
  result : List (Val ρ)

/-- A tuple of one value is replaced by the value. -/
def flatten {ρ : Type} : List (Val ρ) → Val ρ
  | [v] => v
  | vs => .tuple vs

inductive Parser (ρ : Type) where
  | lit (k : Str)
  | int
  | string
  | any (parsers : List (Parser ρ))
  | dyn (parsers : List (Parser ρ))
  | all (parsers : List (Parser ρ))
  | cons (make : List (Val ρ) → ρ) (parsers : List (Parser ρ))
  | endpoint (make : List (Val ρ) → ρ) (parsers : List (Parser ρ))

abbrev Parsed (ρ : Type) := Option (Result ρ)

namespace Parser

variable {ρ : Type}

def litParse (k : Str) (s : State) : Except ParseFault (Parsed ρ) :=
  if s.atEnd then return none
  else do
    let segment ← s.segment
    if segment = k then return some ⟨← s.next, []⟩ else return none

def intParse (s : State) : Except ParseFault (Parsed ρ) :=
  if s.atEnd then return none
  else do
    let next ← s.next
    let segment ← s.segment
    match stoi segment with
    | .ok n => return some ⟨next, [.int n]⟩
    | .error .invalidArgument => return none
    | .error .outOfRange => return none

def stringParse (s : State) : Except ParseFault (Parsed ρ) :=
  if s.atEnd then return none
  else return some ⟨← s.next, [.string (← s.segment)]⟩

/-- `make_from_tuple` of the values of a successful parse. -/
def construct (make : List (Val ρ) → ρ) : Parsed ρ → Parsed ρ
  | some r => some ⟨r.nextState, [.object (make r.result)]⟩
  | none => none

mutual

def parse : Parser ρ → State → Except ParseFault (Parsed ρ)
  | lit k, s => litParse k s
  | int, s => intParse s
  | string, s => stringParse s
  | any parsers, s => firstParse parsers s
  | dyn parsers, s => firstParse parsers s
  | all parsers, s => allParse parsers [] s
  | cons make parsers, s => do return construct make (← allParse parsers [] s)
  | endpoint make parsers, s => do return construct make (← allParse parsers [] s)

/-- `detail::All`, which threads the values parsed so far through the list. -/
def allParse : List (Parser ρ) → List (Val ρ) → State → Except ParseFault (Parsed ρ)
  | [], curTuple, curState => return some ⟨curState, curTuple⟩
  | parser :: parsers, curTuple, curState => do
      match ← parse parser curState with
      | some r => allParse parsers (curTuple ++ r.result) r.nextState
      | none => return none

/-- `detail::Any` and `detail::Dyn`, which differ in their result type only. -/
def firstParse : List (Parser ρ) → State → Except ParseFault (Parsed ρ)
  | [], _ => return none
  | parser :: parsers, curState => do
      match ← parse parser curState with
      | some r => return some ⟨r.nextState, [flatten r.result]⟩
      | none => firstParse parsers curState

end

/-- `Root<parsers...>::parse`, the only place that asks for the end of the path. -/
def rootParse (parsers : List (Parser ρ)) (path : ApiPath) :
    Except ParseFault (Option (Val ρ)) := do
  match ← allParse parsers [] ⟨path⟩ with
  | some r => if r.nextState.atEnd then return some (flatten r.result) else return none
  | none => return none

/-- Induction over a grammar, with a hypothesis for every parser of a list. -/
@[elab_as_elim] theorem inductionOn {motive : Parser ρ → Prop} (parser : Parser ρ)
    (lit : ∀ k, motive (.lit k)) (int : motive .int) (string : motive .string)
    (any : ∀ parsers, (∀ parser ∈ parsers, motive parser) → motive (.any parsers))
    (dyn : ∀ parsers, (∀ parser ∈ parsers, motive parser) → motive (.dyn parsers))
    (all : ∀ parsers, (∀ parser ∈ parsers, motive parser) → motive (.all parsers))
    (cons : ∀ make parsers, (∀ parser ∈ parsers, motive parser) → motive (.cons make parsers))
    (endpoint : ∀ make parsers, (∀ parser ∈ parsers, motive parser) →
      motive (.endpoint make parsers)) : motive parser := by
  refine Parser.rec (motive_2 := fun parsers => ∀ parser ∈ parsers, motive parser)
    lit int string any dyn all cons endpoint ?_ ?_ parser
  · simp
  · intro parser parsers hparser hparsers other hother
    rcases List.mem_cons.mp hother with rfl | hmem
    · exact hparser
    · exact hparsers other hmem

end Parser

/-- The parsers that a route of the API is made of. The text of a literal is
the C string that a segment is compared with. -/
inductive Token where
  | lit (k : Str)
  | int
  | string
  deriving DecidableEq

def Token.parser {ρ : Type} : Token → Parser ρ
  | lit k => .lit k
  | int => .int
  | string => .string

/-- `Endpoint<E, tokens...>`; `make` is the constructor of `E` with its `PathArgs`. -/
structure Route (ρ : Type) where
  make : List (Val ρ) → ρ
  tokens : List Token

def Route.parser {ρ : Type} (route : Route ρ) : Parser ρ :=
  .endpoint route.make (route.tokens.map Token.parser)

/-- `Root<Lit("api"), Dyn<..., table...>>`. -/
def apiParsers {ρ : Type} (table : List (Route ρ)) : List (Parser ρ) :=
  [.lit (str "api"), .dyn (table.map Route.parser)]

end MvcBackend.ApiParse
