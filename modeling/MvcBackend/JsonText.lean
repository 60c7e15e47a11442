import MvcBackend.PicoJsonRoundTrip
import MvcBackend.Library.Loops

/-!
The text of nlohmann::json values: `dump`, the lexer, and the parser, a loop over
tokens with a stack of the arrays and objects that are open.
-/

namespace MvcBackend.JsonText

open MvcBackend.JsonValues
open MvcBackend.ApiParse
open MvcBackend.Rendering
open MvcBackend.PicoJson
open MvcBackend.PicoJsonRoundTrip
open MvcBackend.Library.SortedMap
open MvcBackend.Library.Loops

/-- How doubles are read and printed. A double that overflows is not read. -/
structure Doubles where
  strtod : Str → Option Double
  print : Double → Str

/-- Parse error number 101, and out of range number 406 for doubles that overflow. -/
inductive ParseError where
  | unexpectedToken
  | numberOverflow
  deriving DecidableEq

inductive Token where
  | literalTrue
  | literalFalse
  | literalNull
  | valueString (s : Str)
  | valueUnsigned (n : Nat)
  | valueInteger (n : Int)
  | valueFloat (x : Option Double)
  | beginArray
  | beginObject
  | endArray
  | endObject
  | nameSeparator
  | valueSeparator
  | parseError
  | endOfInput

/-! ### Strings -/

/-- The four hexadecimal digits are read as picojson reads them. -/
def getCodepoint (s : Str) : Option (Nat × Str) := parseQuadhex s

/-- What follows `\u`. -/
def scanUnicode (s : Str) : Option (Str × Str) := do
  let (codepoint1, s) ← getCodepoint s
  if 0xD800 ≤ codepoint1 ∧ codepoint1 ≤ 0xDBFF then
    let s ← matchText (str "\\u") s
    let (codepoint2, s) ← getCodepoint s
    if 0xDC00 ≤ codepoint2 ∧ codepoint2 ≤ 0xDFFF then
      return (codepointBytes (codepoint1 * 1024 + codepoint2 - 0x35FDC00), s)
    else none
  else if 0xDC00 ≤ codepoint1 ∧ codepoint1 ≤ 0xDFFF then none
  else return (codepointBytes codepoint1, s)

def nextBytesInRange : List (UInt8 × UInt8) → Str → Option (Str × Str)
  | [], s => some ([], s)
  | (lo, hi) :: ranges, c :: s =>
      if lo ≤ c ∧ c ≤ hi then (nextBytesInRange ranges s).map fun r => (c :: r.1, r.2) else none
  | _ :: _, [] => none

/-- One turn of the loop of `scan_string`; the letters of the escapes, with what
they stand for, are those of picojson. -/
def scanChar : Str → Option (StringStep × Str)
  | [] => none
  | c :: s =>
      if c = 0x22 then some (.close, s)
      else if c = 0x5C then
        match s with
        | [] => none
        | e :: s =>
            if e = 0x75 then (scanUnicode s).map fun r => (.push r.1, r.2)
            else (escapes.lookup e).map fun c => (.push [c], s)
      else if c < 0x20 then none
      else
        (utf8Tail c).bind fun ranges =>
          (nextBytesInRange ranges s).map fun r => (.push (c :: r.1), r.2)

/-- Both libraries read the same escapes of code points. -/
theorem scanUnicode_eq (s : Str) : scanUnicode s = parseCodepoint s := by
  rw [scanUnicode, parseCodepoint, getCodepoint]
  cases hfirst : parseQuadhex s with
  | none => rfl
  | some first =>
      obtain ⟨codepoint1, s'⟩ := first
      simp only [Option.bind_eq_bind, Option.bind_some]
      by_cases hlow : 0xDC00 ≤ codepoint1
      · by_cases hsurrogate : codepoint1 ≤ 0xDFFF
        · rw [if_neg (by omega), if_pos ⟨hlow, hsurrogate⟩, if_pos (by omega), if_pos hlow]
        · rw [if_neg (by omega), if_neg (by omega), if_neg (by omega)]
      · by_cases hhigh : 0xD800 ≤ codepoint1
        · rw [if_pos (by omega), if_pos (by omega), if_neg hlow]
          refine congrArg (Option.bind _) (funext fun s'' => ?_)
          refine congrArg (Option.bind _) (funext fun second => ?_)
          have hcode : codepoint1 * 1024 + second.1 - 0x35FDC00 =
              (codepoint1 - 0xD800) * 1024 + (second.1 - 0xDC00) + 0x10000 ∨
                ¬ 0xDC00 ≤ second.1 := by omega
          rcases hcode with hcode | hcode
          · simp only [hcode]
          · simp [hcode]
        · rw [if_neg (by omega), if_neg (by omega), if_neg (by omega)]

theorem nextBytesInRange_length {ranges : List (UInt8 × UInt8)} {s bytes rest : Str}
    (h : nextBytesInRange ranges s = some (bytes, rest)) : rest.length ≤ s.length := by
  fun_induction nextBytesInRange ranges s generalizing bytes with
  | case1 s =>
      obtain ⟨-, rfl⟩ : [] = bytes ∧ s = rest := by simpa using h
      exact le_rfl
  | case2 lo hi ranges c s hrange ih =>
      obtain ⟨⟨bytes', rest'⟩, hrest, heq⟩ := Option.map_eq_some_iff.mp h
      obtain ⟨-, rfl⟩ := Prod.mk.inj heq
      exact (ih hrest).trans (by simp)
  | case3 => cases h
  | case4 => cases h

theorem scanChar_length {s rest : Str} {step : StringStep} (h : scanChar s = some (step, rest)) :
    rest.length < s.length := by
  cases s with
  | nil => cases h
  | cons c s =>
      simp only [scanChar] at h
      split_ifs at h with hquote hescape hcontrol
      · obtain ⟨-, rfl⟩ : StringStep.close = step ∧ s = rest := by simpa using h
        simp
      · cases s with
        | nil => cases h
        | cons e s =>
            simp only at h
            split_ifs at h with hunicode
            · obtain ⟨⟨bytes, rest'⟩, hread, heq⟩ := Option.map_eq_some_iff.mp h
              obtain ⟨-, rfl⟩ := Prod.mk.inj heq
              rw [scanUnicode_eq] at hread
              have hle := parseCodepoint_length hread
              simp only [List.length_cons]
              omega
            · obtain ⟨c', -, heq⟩ := Option.map_eq_some_iff.mp h
              obtain ⟨-, rfl⟩ := Prod.mk.inj heq
              simp only [List.length_cons]
              omega
      · obtain ⟨ranges, -, hbytes⟩ := Option.bind_eq_some_iff.mp h
        obtain ⟨⟨bytes, rest'⟩, hread, heq⟩ := Option.map_eq_some_iff.mp hbytes
        obtain ⟨-, rfl⟩ := Prod.mk.inj heq
        exact Nat.lt_succ_of_le (nextBytesInRange_length hread)

def stringTurn : Str × Str → (Str × Str) ⊕ Option (Str × Str)
  | (buffer, s) =>
      match scanChar s with
      | none => .inr none
      | some (.close, s) => .inr (some (buffer, s))
      | some (.push bytes, s) => .inl (buffer ++ bytes, s)

/-- The loop of `scan_string`, over what it has put into its buffer and what it
has not read. -/
def stringScan : Loop (Str × Str) (Option (Str × Str)) where
  turn := stringTurn
  measure := fun state => state.2.length
  decreases := by
    rintro ⟨buffer, s⟩ ⟨buffer', s'⟩ h
    simp only [stringTurn] at h
    split at h
    · cases h
    · cases h
    · next bytes rest hchar =>
        obtain ⟨-, rfl⟩ := Prod.mk.inj (Sum.inl.inj h)
        exact scanChar_length hchar

/-- What follows the opening quote. -/
def scanString (s : Str) : Option (Str × Str) := stringScan.run ([], s)

/-! ### Numbers -/

inductive NumberType where
  | unsigned
  | integer
  | float

/-- The labels of `scan_number`. -/
inductive NumberState where
  | minus
  | zero
  | any1
  | decimal1
  | decimal2
  | exponent
  | sign
  | any2

inductive NumberMove where
  | goto (state : NumberState)
  | done
  | error

def initState (c : UInt8) : NumberState :=
  if c = 0x2D then .minus else if c = 0x30 then .zero else .any1

/-- The jump on the next character; the end of the input is like any character
that no label asks for. -/
def NumberState.next (state : NumberState) (c : UInt8) : NumberMove :=
  let isExponent := c = 0x65 ∨ c = 0x45
  match state with
  | .minus => if c = 0x30 then .goto .zero else if isDigit c then .goto .any1 else .error
  | .zero => if c = 0x2E then .goto .decimal1 else if isExponent then .goto .exponent else .done
  | .any1 =>
      if isDigit c then .goto .any1
      else if c = 0x2E then .goto .decimal1
      else if isExponent then .goto .exponent
      else .done
  | .decimal1 => if isDigit c then .goto .decimal2 else .error
  | .decimal2 =>
      if isDigit c then .goto .decimal2 else if isExponent then .goto .exponent else .done
  | .exponent =>
      if c = 0x2B ∨ c = 0x2D then .goto .sign else if isDigit c then .goto .any2 else .error
  | .sign => if isDigit c then .goto .any2 else .error
  | .any2 => if isDigit c then .goto .any2 else .done

/-- The assignments to `number_type` at the labels. -/
def NumberState.typed : NumberState → NumberType → NumberType
  | .minus, _ => .integer
  | .decimal1, _ => .float
  | .exponent, _ => .float
  | _, numberType => numberType

/-- What the labels add to the buffer, the type of the number, and what is left. -/
def scanNumber : NumberState → NumberType → Str → Option (Str × NumberType × Str)
  | state, numberType, [] =>
      match state.next 0x00 with
      | .done => some ([], state.typed numberType, [])
      | _ => none
  | state, numberType, c :: s =>
      match state.next c with
      | .goto state' =>
          (scanNumber state' (state.typed numberType) s).map fun r => (c :: r.1, r.2)
      | .done => some ([], state.typed numberType, c :: s)
      | .error => none

theorem scanNumber_length {state : NumberState} {numberType numberType' : NumberType}
    {s text rest : Str} (h : scanNumber state numberType s = some (text, numberType', rest)) :
    rest.length ≤ s.length := by
  induction s generalizing state numberType text with
  | nil =>
      rw [scanNumber] at h
      split at h
      · obtain ⟨-, -, rfl⟩ : [] = text ∧ state.typed numberType = numberType' ∧ [] = rest := by
          simpa using h
        exact le_rfl
      · cases h
  | cons c s ih =>
      rw [scanNumber] at h
      split at h
      · obtain ⟨⟨text', r⟩, hrest, heq⟩ := Option.map_eq_some_iff.mp h
        obtain ⟨-, rfl⟩ := Prod.mk.inj heq
        exact (ih hrest).trans (by simp)
      · obtain ⟨-, -, rfl⟩ : [] = text ∧ state.typed numberType = numberType' ∧ c :: s = rest := by
          simpa using h
        exact le_rfl
      · cases h

section

variable (doubles : Doubles)

/-- `strtoull` and `strtoll` where they do not overflow, and else `strtod`. -/
def numberToken (text : Str) : NumberType → Token
  | .unsigned =>
      let n := digitsValue text
      if n < 2 ^ 64 then .valueUnsigned n else .valueFloat (doubles.strtod text)
  | .integer =>
      let n : Int := -digitsValue text.tail
      if -2 ^ 63 ≤ n then .valueInteger n else .valueFloat (doubles.strtod text)
  | .float => .valueFloat (doubles.strtod text)

/-! ### Tokens -/

def scanLiteral (text : Str) (token : Token) (s : Str) : Token × Str :=
  match matchText text s with
  | some rest => (token, rest)
  | none => (.parseError, [])

def structural : List (UInt8 × Token) :=
  [(0x5B, .beginArray), (0x5D, .endArray), (0x7B, .beginObject), (0x7D, .endObject),
    (0x3A, .nameSeparator), (0x2C, .valueSeparator)]

/-- The first characters of the literals, with what must follow. -/
def literals : List (UInt8 × Str × Token) :=
  [(0x74, str "rue", .literalTrue), (0x66, str "alse", .literalFalse),
    (0x6E, str "ull", .literalNull)]

/-- `scan`, but for the byte order mark. Nothing is read after an error, nor
after the end of the input, which a null byte is too. -/
def scan (s : Str) : Token × Str :=
  match skipWs s with
  | [] => (.endOfInput, [])
  | c :: s =>
      match structural.lookup c, literals.lookup c with
      | some token, _ => (token, s)
      | none, some (text, token) => scanLiteral text token s
      | none, none =>
          if c = 0x22 then
            match scanString s with
            | some (out, rest) => (.valueString out, rest)
            | none => (.parseError, [])
          else if c = 0x2D ∨ isDigit c then
            match scanNumber (initState c) .unsigned s with
            | some (text, numberType, rest) => (numberToken doubles (c :: text) numberType, rest)
            | none => (.parseError, [])
          else if c = 0x00 then (.endOfInput, s)
          else (.parseError, s)

theorem scanString_length {s out rest : Str} (h : scanString s = some (out, rest)) :
    rest.length < s.length := by
  suffices hall : ∀ result, stringScan.run ([], s) = some result → result.2.length < s.length from
    hall _ h
  apply stringScan.run_invariant (fun state => state.2.length ≤ s.length)
    (fun result => ∀ found, result = some found → found.2.length < s.length)
  · intro state state' hle hturn
    exact (stringScan.decreases state state' hturn).le.trans hle
  · rintro ⟨buffer, s'⟩ result hle hturn found rfl
    simp only [stringScan, stringTurn] at hturn
    split at hturn
    · cases hturn
    · next rest hchar =>
        obtain rfl := Option.some.inj (Sum.inr.inj hturn)
        exact (scanChar_length hchar).trans_le hle
    · cases hturn
  · exact le_rfl

/-- The tokens after which nothing is read. -/
def Token.ends : Token → Bool
  | .parseError => true
  | .endOfInput => true
  | _ => false

theorem scanLiteral_length {text s rest : Str} {token token' : Token}
    (h : scanLiteral text token s = (token', rest)) : rest.length ≤ s.length := by
  rw [scanLiteral] at h
  split at h
  · next rest' hmatch =>
      obtain ⟨-, rfl⟩ := Prod.mk.inj h
      exact matchText_length hmatch
  · obtain ⟨-, rfl⟩ := Prod.mk.inj h
    exact Nat.zero_le _

/-- Every token but the last takes a character. -/
theorem scan_length {s rest : Str} {token : Token} (h : scan doubles s = (token, rest)) :
    rest.length ≤ s.length ∧ (token.ends = false → rest.length < s.length) := by
  have hskip : (skipWs s).length ≤ s.length := (List.dropWhile_suffix isWs).length_le
  rw [scan] at h
  rcases hws : skipWs s with _ | ⟨c, s'⟩
  · obtain ⟨rfl, rfl⟩ : Token.endOfInput = token ∧ [] = rest := by simpa [hws] using h
    exact ⟨Nat.zero_le _, by simp [Token.ends]⟩
  · rw [hws, List.length_cons] at hskip
    suffices hle : rest.length ≤ s'.length from ⟨by omega, fun _ => by omega⟩
    simp only [hws] at h
    split at h
    · exact (Prod.mk.inj h).2 ▸ le_rfl
    · exact scanLiteral_length h
    · split_ifs at h with hquote hnumber hend
      · split at h
        · next out rest' hstring =>
            obtain ⟨-, rfl⟩ := Prod.mk.inj h
            exact (scanString_length hstring).le
        · obtain ⟨-, rfl⟩ := Prod.mk.inj h
          exact Nat.zero_le _
      · split at h
        · next text numberType rest' hscan =>
            obtain ⟨-, rfl⟩ := Prod.mk.inj h
            exact scanNumber_length hscan
        · obtain ⟨-, rfl⟩ := Prod.mk.inj h
          exact Nat.zero_le _
      · exact (Prod.mk.inj h).2 ▸ le_rfl
      · exact (Prod.mk.inj h).2 ▸ le_rfl

/-! ### The parser -/

/-- What is open: an array with the items so far, or an object with the members
so far and the key whose value comes next. The source builds the value in place,
down from the root, with a stack of references to what is open. -/
inductive Frame where
  | array (items : List Json)
  | object (members : List (Str × Json)) (key : Str)

/-- What a turn of the parser's loop starts with: the last token, or a value that
has just been completed. -/
inductive Focus where
  | token (token : Token)
  | value (j : Json)

structure ParserState where
  states : List Frame
  focus : Focus
  input : Str

abbrev Parsed := Except ParseError (Json × Str)

/-- The values that are one token. -/
def scalar : Token → Except ParseError Json
  | .literalTrue => .ok (.boolean true)
  | .literalFalse => .ok (.boolean false)
  | .literalNull => .ok .null
  | .valueString s => .ok (.string s)
  | .valueUnsigned n => .ok (.numberUnsigned n)
  | .valueInteger n => .ok (.numberInteger n)
  | .valueFloat (some x) => .ok (.numberFloat x)
  | .valueFloat none => .error .numberOverflow
  | _ => .error .unexpectedToken

/-- A key and the separator behind it. -/
def parseKey (states : List Frame) (members : List (Str × Json)) :
    Token × Str → ParserState ⊕ Parsed
  | (.valueString key, s) =>
      match scan doubles s with
      | (.nameSeparator, s) =>
          let (token, s) := scan doubles s
          .inl ⟨.object members key :: states, .token token, s⟩
      | _ => .inr (.error .unexpectedToken)
  | _ => .inr (.error .unexpectedToken)

/-- The first part of the loop, which reads a value from the last token on. -/
def parseToken (states : List Frame) : Token → Str → ParserState ⊕ Parsed
  | .beginObject, s =>
      match scan doubles s with
      | (.endObject, s) => .inl ⟨states, .value (.object []), s⟩
      | next => parseKey doubles states [] next
  | .beginArray, s =>
      match scan doubles s with
      | (.endArray, s) => .inl ⟨states, .value (.array []), s⟩
      | (token, s) => .inl ⟨.array [] :: states, .token token, s⟩
  | token, s =>
      match scalar token with
      | .ok j => .inl ⟨states, .value j, s⟩
      | .error e => .inr (.error e)

/-- The second part, which puts a value into what is open. -/
def evaluateState (j : Json) (s : Str) : List Frame → ParserState ⊕ Parsed
  | [] => .inr (.ok (j, s))
  | .array items :: states =>
      match scan doubles s with
      | (.valueSeparator, s) =>
          let (token, s) := scan doubles s
          .inl ⟨.array (items ++ [j]) :: states, .token token, s⟩
      | (.endArray, s) => .inl ⟨states, .value (.array (items ++ [j])), s⟩
      | _ => .inr (.error .unexpectedToken)
  | .object members key :: states =>
      match scan doubles s with
      | (.valueSeparator, s) => parseKey doubles states (assign key j members) (scan doubles s)
      | (.endObject, s) => .inl ⟨states, .value (.object (assign key j members)), s⟩
      | _ => .inr (.error .unexpectedToken)

def parserTurn (state : ParserState) : ParserState ⊕ Parsed :=
  match state.focus with
  | .token token => parseToken doubles state.states token state.input
  | .value j => evaluateState doubles j state.input state.states

def Focus.measure : Focus → Nat
  | .token last => if last.ends then 0 else 2
  | .value _ => 1

def ParserState.measure (state : ParserState) : Nat :=
  2 * state.input.length + state.states.length + state.focus.measure

@[simp] theorem Focus.measure_value (j : Json) : (Focus.value j).measure = 1 := rfl

theorem Focus.measure_token {token : Token} (h : token.ends = false) :
    (Focus.token token).measure = 2 := by
  simp [Focus.measure, h]

theorem Focus.measure_token_le {s s' : Str} {token : Token} (h : scan doubles s = (token, s')) :
    2 * s'.length + (Focus.token token).measure ≤ 2 * s.length := by
  obtain ⟨hle, hlt⟩ := scan_length doubles h
  cases hends : token.ends with
  | true =>
      simp only [Focus.measure, hends, if_true]
      omega
  | false =>
      have hlt := hlt hends
      rw [Focus.measure_token hends]
      omega

theorem parseKey_measure {states : List Frame} {members : List (Str × Json)}
    {next : Token × Str} {state : ParserState}
    (h : parseKey doubles states members next = .inl state) :
    state.measure + 1 ≤ 2 * next.2.length + states.length := by
  obtain ⟨token, s⟩ := next
  cases token with
  | valueString key =>
      simp only [parseKey] at h
      split at h
      · next s' hseparator =>
          obtain rfl := Sum.inl.inj h
          have hlt := (scan_length doubles hseparator).2 rfl
          have hnext := Focus.measure_token_le doubles (Prod.eta (scan doubles s')).symm
          simp only [ParserState.measure, List.length_cons]
          omega
      · cases h
  | _ => cases h

theorem parseToken_measure {states : List Frame} {token : Token} {s : Str} {state : ParserState}
    (h : parseToken doubles states token s = .inl state) :
    state.measure < 2 * s.length + states.length + (Focus.token token).measure := by
  cases token with
  | beginObject =>
      rw [Focus.measure_token rfl]
      simp only [parseToken] at h
      rcases hscan : scan doubles s with ⟨token, s'⟩
      have hle := (scan_length doubles hscan).1
      rw [hscan] at h
      split at h
      · next hend =>
          obtain rfl := Sum.inl.inj h
          obtain ⟨rfl, rfl⟩ := Prod.mk.inj hend
          have hlt := (scan_length doubles hscan).2 rfl
          simp only [ParserState.measure, Focus.measure_value]
          omega
      · have hkey := parseKey_measure doubles h
        simp only at hkey
        omega
  | beginArray =>
      rw [Focus.measure_token rfl]
      simp only [parseToken] at h
      rcases hscan : scan doubles s with ⟨token, s'⟩
      have hle := (scan_length doubles hscan).1
      rw [hscan] at h
      split at h
      · next hend =>
          obtain rfl := Sum.inl.inj h
          obtain ⟨rfl, rfl⟩ := Prod.mk.inj hend
          have hlt := (scan_length doubles hscan).2 rfl
          simp only [ParserState.measure, Focus.measure_value]
          omega
      · obtain ⟨rfl, rfl⟩ := Prod.mk.inj ‹_›
        obtain rfl := Sum.inl.inj h
        have hnext := Focus.measure_token_le doubles hscan
        simp only [ParserState.measure, List.length_cons]
        omega
  | literalTrue | literalFalse | literalNull | valueString _ | valueUnsigned _ | valueInteger _ =>
      rw [Focus.measure_token rfl]
      obtain rfl := Sum.inl.inj h
      simp only [ParserState.measure, Focus.measure_value]
      omega
  | valueFloat x =>
      cases x with
      | none => cases h
      | some x =>
          rw [Focus.measure_token rfl]
          obtain rfl := Sum.inl.inj h
          simp only [ParserState.measure, Focus.measure_value]
          omega
  | endArray | endObject | nameSeparator | valueSeparator | parseError | endOfInput => cases h

theorem evaluateState_measure {states : List Frame} {j : Json} {s : Str} {state : ParserState}
    (h : evaluateState doubles j s states = .inl state) :
    state.measure < 2 * s.length + states.length + 1 := by
  rcases states with _ | ⟨items | ⟨members, key⟩, states⟩
  · cases h
  · simp only [evaluateState] at h
    split at h
    · next s' hcomma =>
        obtain rfl := Sum.inl.inj h
        have hlt := (scan_length doubles hcomma).2 rfl
        have hnext := Focus.measure_token_le doubles (Prod.eta (scan doubles s')).symm
        simp only [ParserState.measure, List.length_cons]
        omega
    · next s' hend =>
        obtain rfl := Sum.inl.inj h
        have hlt := (scan_length doubles hend).2 rfl
        simp only [ParserState.measure, Focus.measure_value, List.length_cons]
        omega
    · cases h
  · simp only [evaluateState] at h
    split at h
    · next s' hcomma =>
        have hlt := (scan_length doubles hcomma).2 rfl
        have hle := (scan_length doubles (Prod.eta (scan doubles s')).symm).1
        have hkey := parseKey_measure doubles h
        simp only [List.length_cons]
        omega
    · next s' hend =>
        obtain rfl := Sum.inl.inj h
        have hlt := (scan_length doubles hend).2 rfl
        simp only [ParserState.measure, Focus.measure_value, List.length_cons]
        omega
    · cases h

/-- `sax_parse_internal`. -/
def parserLoop : Loop ParserState Parsed where
  turn := parserTurn doubles
  measure := ParserState.measure
  decreases := by
    rintro ⟨states, focus, s⟩ state h
    cases focus with
    | token token => exact parseToken_measure doubles h
    | value j => exact evaluateState_measure doubles h

/-- `skip_bom`. -/
def skipBom : Str → Option Str
  | 0xEF :: s => matchText [0xBB, 0xBF] s
  | s => some s

/-- `Json::parse` is strict: nothing may follow the value. `operator>>` is not. -/
def parse (strict : Bool) (s : Str) : Except ParseError Json :=
  match skipBom s with
  | none => .error .unexpectedToken
  | some s => do
      let (token, s) := scan doubles s
      let (j, s) ← (parserLoop doubles).run ⟨[], .token token, s⟩
      match strict, (scan doubles s).1 with
      | false, _ => return j
      | true, .endOfInput => return j
      | true, _ => throw .unexpectedToken

/-! ### The serializer -/

/-- The bytes that `dump_escaped` writes with a backslash, after its letters. -/
def dumpEscapes : List (UInt8 × UInt8) :=
  [(0x62, 0x08), (0x74, 0x09), (0x6E, 0x0A), (0x66, 0x0C), (0x72, 0x0D), (0x22, 0x22),
    (0x5C, 0x5C)]

def escapeByte (c : UInt8) : Str :=
  match dumpEscapes.find? fun escape => escape.2 = c with
  | some escape => [0x5C, escape.1]
  | none =>
      if c ≤ 0x1F then
        str "\\u00" ++ [hexLetter (c.toNat / 16), hexLetter (c.toNat % 16)]
      else [c]

/-- The loop of `dump_escaped`, with the ranges of the bytes that the code point
still takes. Only code points of one byte are escaped. -/
def dumpEscaped : List (UInt8 × UInt8) → Str → Except JsonException Str
  | [], [] => .ok []
  | _ :: _, [] => .error (.typeError 316)
  | (lo, hi) :: expected, b :: rest =>
      if lo ≤ b ∧ b ≤ hi then (dumpEscaped expected rest).map fun out => b :: out
      else .error (.typeError 316)
  | [], b :: rest =>
      match utf8Tail b with
      | some expected => (dumpEscaped expected rest).map fun out => escapeByte b ++ out
      | none => .error (.typeError 316)

def dumpString (s : Str) : Except JsonException Str :=
  (dumpEscaped [] s).map fun out => [0x22] ++ out ++ [0x22]

mutual

/-- `dump()`, without indentation. -/
def dump : Json → Except JsonException Str
  | .null => .ok (str "null")
  | .boolean b => .ok (if b then str "true" else str "false")
  | .numberInteger n => .ok (numeral n)
  | .numberUnsigned n => .ok (numeral n)
  | .numberFloat x => .ok (doubles.print x)
  | .string s => dumpString s
  | .array items => (dumpItems items).map fun out => [0x5B] ++ out ++ [0x5D]
  | .object members => (dumpMembers members).map fun out => [0x7B] ++ out ++ [0x7D]

def dumpItems : List Json → Except JsonException Str
  | [] => .ok []
  | [item] => dump item
  | item :: items => do return (← dump item) ++ [0x2C] ++ (← dumpItems items)

def dumpMembers : List (Str × Json) → Except JsonException Str
  | [] => .ok []
  | [(key, member)] => do return (← dumpString key) ++ [0x3A] ++ (← dump member)
  | (key, member) :: members => do
      return (← dumpString key) ++ [0x3A] ++ (← dump member) ++ [0x2C] ++ (← dumpMembers members)

end

end

end MvcBackend.JsonText
