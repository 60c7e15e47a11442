import MvcBackend.Rendering
import MvcBackend.Library.SortedMap

/-!
picojson, which reads the header and the payload of a token. A reader takes the
text from where it stands and returns what it leaves.
-/

namespace MvcBackend.PicoJson

open MvcBackend.JsonValues
open MvcBackend.ApiParse
open MvcBackend.Rendering
open MvcBackend.Library.SortedMap

/-- A `picojson::value`. A double is given by the text that prints it. -/
inductive Value where
  | null
  | boolean (b : Bool)
  | int64 (n : Int)
  | number (text : Str)
  | string (s : Str)
  | array (items : List Value)
  | object (members : List (Str × Value))

def IsInt64 (n : Int) : Prop := -2 ^ 63 ≤ n ∧ n < 2 ^ 63

instance (n : Int) : Decidable (IsInt64 n) := inferInstanceAs (Decidable (_ ∧ _))

/-- What `strtod` makes of a numeral: it may not read all of it, or overflow. -/
inductive Strtod where
  | incomplete
  | infinite
  | finite (text : Str)

/-- `parse` returns an error, or lets the exception of `value(double)` through. -/
inductive ParseError where
  | syntaxError
  | overflowError
  deriving DecidableEq

def isWs (c : UInt8) : Bool := c = 0x20 || c = 0x09 || c = 0x0A || c = 0x0D

def skipWs (s : Str) : Str := s.dropWhile isWs

/-- White space is passed over even where the expected character does not follow. -/
def expect (expected : UInt8) (s : Str) : Bool × Str :=
  match skipWs s with
  | c :: rest => if c = expected then (true, rest) else (false, c :: rest)
  | [] => (false, [])

def matchText : Str → Str → Option Str
  | [], s => some s
  | p :: pattern, c :: s => if c = p then matchText pattern s else none
  | _ :: _, [] => none

/-! ### Strings -/

def hexDigit (c : UInt8) : Option Nat :=
  if 0x30 ≤ c ∧ c ≤ 0x39 then some (c.toNat - 0x30)
  else if 0x41 ≤ c ∧ c ≤ 0x46 then some (c.toNat - 0x37)
  else if 0x61 ≤ c ∧ c ≤ 0x66 then some (c.toNat - 0x57)
  else none

/-- The loop over the digits still to be read, from the value so far. -/
def parseHex : Nat → Nat → Str → Option (Nat × Str)
  | 0, uniCh, s => some (uniCh, s)
  | _ + 1, _, [] => none
  | left + 1, uniCh, c :: s => (hexDigit c).bind fun hex => parseHex left (uniCh * 16 + hex) s

def parseQuadhex (s : Str) : Option (Nat × Str) := parseHex 4 0 s

/-- A code point in UTF-8. -/
def codepointBytes (uniCh : Nat) : Str :=
  if uniCh < 0x80 then [UInt8.ofNat uniCh]
  else if uniCh < 0x800 then
    [UInt8.ofNat (0xC0 + uniCh / 64), UInt8.ofNat (0x80 + uniCh % 64)]
  else if uniCh < 0x10000 then
    [UInt8.ofNat (0xE0 + uniCh / 4096), UInt8.ofNat (0x80 + uniCh / 64 % 64),
      UInt8.ofNat (0x80 + uniCh % 64)]
  else
    [UInt8.ofNat (0xF0 + uniCh / 262144), UInt8.ofNat (0x80 + uniCh / 4096 % 64),
      UInt8.ofNat (0x80 + uniCh / 64 % 64), UInt8.ofNat (0x80 + uniCh % 64)]

/-- The first half of a surrogate pair must be followed by the second one. -/
def parseCodepoint (s : Str) : Option (Str × Str) := do
  let (uniCh, s) ← parseQuadhex s
  if 0xD800 ≤ uniCh ∧ uniCh ≤ 0xDFFF then
    if 0xDC00 ≤ uniCh then none
    else do
      let s ← matchText (str "\\u") s
      let (second, s) ← parseQuadhex s
      if 0xDC00 ≤ second ∧ second ≤ 0xDFFF then
        return (codepointBytes ((uniCh - 0xD800) * 1024 + (second - 0xDC00) + 0x10000), s)
      else none
  else return (codepointBytes uniCh, s)

/-- The letters of the two-character escapes, with what they stand for. -/
def escapes : List (UInt8 × UInt8) :=
  [(0x22, 0x22), (0x5C, 0x5C), (0x2F, 0x2F), (0x62, 0x08), (0x66, 0x0C), (0x6E, 0x0A),
    (0x72, 0x0D), (0x74, 0x09)]

inductive StringStep where
  | close
  | push (bytes : Str)

/-- One turn of the loop over the characters of a string. -/
def readStringChar : Str → Option (StringStep × Str)
  | [] => none
  | c :: s =>
      if c < 0x20 then none
      else if c = 0x22 then some (.close, s)
      else if c = 0x5C then
        match s with
        | [] => none
        | e :: s =>
            if e = 0x75 then (parseCodepoint s).map fun r => (.push r.1, r.2)
            else (escapes.lookup e).map fun c => (.push [c], s)
      else some (.push [c], s)

def stringLoop : Nat → Str → Option (Str × Str)
  | 0, _ => none
  | fuel + 1, s => do
      let (step, s) ← readStringChar s
      match step with
      | .close => return ([], s)
      | .push bytes =>
          let (out, s) ← stringLoop fuel s
          return (bytes ++ out, s)

/-- Every turn reads a character, so that there are enough turns. -/
def parseString (s : Str) : Option (Str × Str) := stringLoop s.length s

/-! ### Numbers -/

def isNumberChar (c : UInt8) : Bool :=
  isDigit c || c = 0x2B || c = 0x2D || c = 0x65 || c = 0x45 || c = 0x2E

/-- `strtoimax`, where it reads the whole numeral and does not overflow. -/
def strtoimax (numStr : Str) : Option Int :=
  let (sign, digits) := splitSign numStr
  if digits.isEmpty || !digits.all isDigit then none
  else
    let n := sign * digitsValue digits
    if IsInt64 n then some n else none

section

variable (strtod : Str → Strtod)

def parseNumber (s : Str) : Except ParseError (Value × Str) :=
  let numStr := s.takeWhile isNumberChar
  let rest := s.dropWhile isNumberChar
  match strtoimax numStr with
  | some n => .ok (.int64 n, rest)
  | none =>
      match strtod numStr with
      | .finite text => .ok (.number text, rest)
      | .infinite => .error .overflowError
      | .incomplete => .error .syntaxError

/-! ### Values -/

def require {α : Type} : Option α → Except ParseError α
  | some a => .ok a
  | none => .error .syntaxError

def literal (text : Str) (value : Value) (s : Str) : Except ParseError (Value × Str) :=
  (require (matchText text s)).map fun rest => (value, rest)

mutual

def parseValue : Nat → Str → Except ParseError (Value × Str)
  | 0, _ => .error .syntaxError
  | fuel + 1, s =>
      match skipWs s with
      | [] => .error .syntaxError
      | c :: s =>
          if c = 0x6E then literal (str "ull") .null s
          else if c = 0x66 then literal (str "alse") (.boolean false) s
          else if c = 0x74 then literal (str "rue") (.boolean true) s
          else if c = 0x22 then (require (parseString s)).map fun r => (.string r.1, r.2)
          else if c = 0x5B then
            match expect 0x5D s with
            | (true, s) => .ok (.array [], s)
            | (false, s) => (parseItems fuel s).map fun r => (.array r.1, r.2)
          else if c = 0x7B then
            match expect 0x7D s with
            | (true, s) => .ok (.object [], s)
            | (false, s) => (parseMembers fuel [] s).map fun r => (.object r.1, r.2)
          else if isDigit c ∨ c = 0x2D then parseNumber strtod (c :: s)
          else .error .syntaxError

def parseItems : Nat → Str → Except ParseError (List Value × Str)
  | 0, _ => .error .syntaxError
  | fuel + 1, s => do
      let (item, s) ← parseValue fuel s
      match expect 0x2C s with
      | (true, s) => do
          let (items, s) ← parseItems fuel s
          return (item :: items, s)
      | (false, s) =>
          match expect 0x5D s with
          | (true, s) => return ([item], s)
          | (false, _) => throw .syntaxError

def parseMembers : Nat → List (Str × Value) → Str → Except ParseError (List (Str × Value) × Str)
  | 0, _, _ => .error .syntaxError
  | fuel + 1, members, s =>
      match expect 0x22 s with
      | (false, _) => .error .syntaxError
      | (true, s) => do
          let (key, s) ← require (parseString s)
          match expect 0x3A s with
          | (false, _) => throw .syntaxError
          | (true, s) => do
              let (member, s) ← parseValue fuel s
              -- `o[key]` of a `std::map` is assigned to
              let members := assign key member members
              match expect 0x2C s with
              | (true, s) => parseMembers fuel members s
              | (false, s) =>
                  match expect 0x7D s with
                  | (true, s) => return (members, s)
                  | (false, _) => throw .syntaxError

end

/-- Two calls read at least one character, so that the fuel lasts. What follows
the value is not looked at. -/
def parse (s : Str) : Except ParseError Value :=
  (parseValue strtod (2 * s.length + 1) s).map Prod.fst

end

/-! ### Serialization -/

def hexLetter (n : Nat) : UInt8 :=
  if n < 10 then UInt8.ofNat (0x30 + n) else UInt8.ofNat (0x57 + n)

def serializeChar (c : UInt8) : Str :=
  match escapes.find? fun escape => escape.2 = c with
  | some escape => [0x5C, escape.1]
  | none =>
      if c < 0x20 ∨ c = 0x7F then
        str "\\u00" ++ [hexLetter (c.toNat / 16), hexLetter (c.toNat % 16)]
      else [c]

def serializeStr (s : Str) : Str := [0x22] ++ s.flatMap serializeChar ++ [0x22]

mutual

def Value.serialize : Value → Str
  | .null => str "null"
  | .boolean b => if b then str "true" else str "false"
  | .int64 n => numeral n
  | .number text => text
  | .string s => serializeStr s
  | .array items => [0x5B] ++ serializeItems items ++ [0x5D]
  | .object members => [0x7B] ++ serializeMembers members ++ [0x7D]

def serializeItems : List Value → Str
  | [] => []
  | [item] => item.serialize
  | item :: items => item.serialize ++ [0x2C] ++ serializeItems items

def serializeMembers : List (Str × Value) → Str
  | [] => []
  | [(key, member)] => serializeStr key ++ [0x3A] ++ member.serialize
  | (key, member) :: members =>
      serializeStr key ++ [0x3A] ++ member.serialize ++ [0x2C] ++ serializeMembers members

end

end MvcBackend.PicoJson
