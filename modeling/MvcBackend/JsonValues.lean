import Mathlib.Data.Rat.Floor
import Mathlib.Algebra.Order.Floor.Ring

/-!
Byte strings and the part of nlohmann::json that the backend relies on:
values, `at`, `get_to` and the check that `dump` makes.
-/

namespace MvcBackend.JsonValues

/-- A `std::string` is a sequence of bytes. -/
abbrev Str := List UInt8

/-- A string literal of the source; they are all ASCII. -/
def str (s : String) : Str := s.toList.map Char.toUInt8

def IsInt (n : Int) : Prop := -2 ^ 31 ≤ n ∧ n < 2 ^ 31

instance (n : Int) : Decidable (IsInt n) := inferInstanceAs (Decidable (_ ∧ _))

def trunc (x : ℚ) : Int := if 0 ≤ x then ⌊x⌋ else ⌈x⌉

/-- A finite double, by its exact value and its sign bit, which tells `-0.0` from
`0.0`. `toInt` is what `static_cast<int>` makes of it: the integer part where that
is an `int`, and some `int` or other where it is not, since C++ leaves that case
undefined. -/
structure Double where
  val : ℚ
  negative : Bool
  toInt : Int
  negative_eq : val ≠ 0 → negative = decide (val < 0)
  toInt_isInt : IsInt toInt
  toInt_eq : IsInt (trunc val) → toInt = trunc val
  deriving DecidableEq

/-- `static_cast<int>` of a wider integer keeps the low 32 bits. -/
def narrow (n : Int) : Int := n.bmod (2 ^ 32)

inductive Json where
  | null
  | boolean (b : Bool)
  | numberInteger (n : Int)
  | numberUnsigned (n : Nat)
  | numberFloat (x : Double)
  | string (s : Str)
  | array (items : List Json)
  | object (members : List (Str × Json))

inductive JsonException where
  | typeError (id : Nat)
  | outOfRange (id : Nat)
  deriving DecidableEq

namespace Json

/-- `j.at(key)`. -/
def atKey (j : Json) (key : Str) : Except JsonException Json :=
  match j with
  | .object members =>
      match members.lookup key with
      | some member => .ok member
      | none => .error (.outOfRange 403)
  | _ => .error (.typeError 304)

def getToString : Json → Except JsonException Str
  | .string s => .ok s
  | _ => .error (.typeError 302)

/-- `j.get_to(n)` for an `int`. -/
def getToInt : Json → Except JsonException Int
  | .numberUnsigned n => .ok (narrow n)
  | .numberInteger n => .ok (narrow n)
  | .numberFloat x => .ok x.toInt
  | .boolean b => .ok (if b then 1 else 0)
  | _ => .error (.typeError 302)

end Json

/-- The bytes that may follow a lead byte of a UTF-8 sequence, as one range a
byte; `none` where no sequence starts so. -/
def utf8Tail (lead : UInt8) : Option (List (UInt8 × UInt8)) :=
  if lead ≤ 0x7F then some []
  else if 0xC2 ≤ lead ∧ lead ≤ 0xDF then some [(0x80, 0xBF)]
  else if lead = 0xE0 then some [(0xA0, 0xBF), (0x80, 0xBF)]
  else if lead = 0xED then some [(0x80, 0x9F), (0x80, 0xBF)]
  else if 0xE1 ≤ lead ∧ lead ≤ 0xEF then some [(0x80, 0xBF), (0x80, 0xBF)]
  else if lead = 0xF0 then some [(0x90, 0xBF), (0x80, 0xBF), (0x80, 0xBF)]
  else if 0xF1 ≤ lead ∧ lead ≤ 0xF3 then some [(0x80, 0xBF), (0x80, 0xBF), (0x80, 0xBF)]
  else if lead = 0xF4 then some [(0x80, 0x8F), (0x80, 0xBF), (0x80, 0xBF)]
  else none

/-- Whether the bytes are UTF-8, given the ranges still expected. -/
def isUtf8From : List (UInt8 × UInt8) → Str → Bool
  | expected, [] => expected.isEmpty
  | (lo, hi) :: expected, b :: rest => lo ≤ b && b ≤ hi && isUtf8From expected rest
  | [], b :: rest =>
      match utf8Tail b with
      | some expected => isUtf8From expected rest
      | none => false

def isUtf8 (s : Str) : Bool := isUtf8From [] s

mutual

/-- `dump` throws unless every string of the value is UTF-8. -/
def Json.dumpable : Json → Bool
  | .string s => isUtf8 s
  | .array items => itemsDumpable items
  | .object members => membersDumpable members
  | _ => true

def itemsDumpable : List Json → Bool
  | [] => true
  | item :: items => item.dumpable && itemsDumpable items

def membersDumpable : List (Str × Json) → Bool
  | [] => true
  | (key, member) :: members => isUtf8 key && member.dumpable && membersDumpable members

end

theorem narrow_isInt (n : Int) : IsInt (narrow n) := by
  constructor
  · exact Int.le_bmod (by decide)
  · exact Int.bmod_lt (by decide)

theorem narrow_of_isInt {n : Int} (h : IsInt n) : narrow n = n :=
  Int.bmod_eq_of_le h.1 h.2

/-- Whatever number or boolean it is read from, the result is an `int`. -/
theorem getToInt_isInt {j : Json} {n : Int} (h : j.getToInt = .ok n) : IsInt n := by
  cases j with
  | boolean b => cases b <;> simp [Json.getToInt] at h <;> subst h <;> decide
  | numberInteger m | numberUnsigned m =>
      simp only [Json.getToInt, Except.ok.injEq] at h
      exact h ▸ narrow_isInt m
  | numberFloat x =>
      simp only [Json.getToInt, Except.ok.injEq] at h
      exact h ▸ x.toInt_isInt
  | null | string _ | array _ | object _ => simp [Json.getToInt] at h

end MvcBackend.JsonValues
