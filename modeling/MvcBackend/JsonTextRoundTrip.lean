import MvcBackend.JsonTextReading

/-!
nlohmann::json reads what it dumps: the parser's loop gets from the first token
of a dumped value to the value, whatever is open and whatever follows.
-/

namespace MvcBackend.JsonTextRoundTrip

open MvcBackend.JsonValues
open MvcBackend.ApiParse (isDigit digitsValue)
open MvcBackend.Rendering
open MvcBackend.PicoJson (IsInt64 isWs isNumberChar skipWs hexLetter escapes codepointBytes)
open MvcBackend.PicoJsonRoundTrip
open MvcBackend.JsonText
open MvcBackend.JsonTextReading
open MvcBackend.Library.Loops
open MvcBackend.Library.SortedMap
open MvcBackend.Library.Transaction

/-! ### Strings -/

theorem utf8Tail_high {b : UInt8} {ranges : List (UInt8 × UInt8)} (h : utf8Tail b = some ranges) :
    ∀ range ∈ ranges, (0x80 : UInt8) ≤ range.1 := by
  rw [utf8Tail] at h
  split_ifs at h <;> (obtain rfl := Option.some.inj h) <;> simp

theorem escapeByte_high {b : UInt8} (hb : 0x80 ≤ b) : escapeByte b = [b] := by
  have hfind : (dumpEscapes.find? fun escape => escape.2 = b) = none := by
    have hall : ∀ escape ∈ dumpEscapes, escape.2 < 0x80 := by simp [dumpEscapes]
    rw [List.find?_eq_none]
    intro escape hescape
    have hlt := hall escape hescape
    simp only [UInt8.lt_iff_toNat_lt, UInt8.le_iff_toNat_le, decide_eq_true_eq,
      ← UInt8.toNat_inj] at hlt hb ⊢
    omega
  have hcontrol : ¬ b ≤ 0x1F := by
    simp only [UInt8.le_iff_toNat_le, UInt8.reduceToNat] at hb ⊢
    omega
  rw [escapeByte, hfind]
  simp [hcontrol]

/-- `dump_escaped` throws unless the string is UTF-8. -/
theorem dumpEscaped_eq {expected : List (UInt8 × UInt8)} (s : Str)
    (hexpected : ∀ range ∈ expected, (0x80 : UInt8) ≤ range.1) :
    dumpEscaped expected s =
      if isUtf8From expected s then .ok (s.flatMap escapeByte) else .error (.typeError 316) := by
  fun_induction dumpEscaped expected s with
  | case1 => rfl
  | case2 range expected => rfl
  | case3 lo hi expected b rest hrange ih =>
      have hb : 0x80 ≤ b := UInt8.le_trans (hexpected (lo, hi) (by simp)) hrange.1
      rw [ih fun range h => hexpected range (List.mem_cons_of_mem _ h)]
      simp only [isUtf8From, hrange.1, hrange.2, decide_true, Bool.true_and, List.flatMap_cons,
        escapeByte_high hb]
      split <;> rfl
  | case4 lo hi expected b rest hrange =>
      have hrange : (decide (lo ≤ b) && decide (b ≤ hi)) = false := by
        rw [← Bool.not_eq_true, Bool.and_eq_true, decide_eq_true_eq, decide_eq_true_eq]
        exact hrange
      simp [isUtf8From, hrange]
  | case5 b rest expected htail ih =>
      rw [ih (utf8Tail_high htail)]
      simp only [isUtf8From, htail, List.flatMap_cons]
      split <;> rfl
  | case6 b rest htail => simp [isUtf8From, htail]

theorem dumpString_eq (s : Str) :
    dumpString s =
      if isUtf8 s then .ok ([0x22] ++ s.flatMap escapeByte ++ [0x22])
      else .error (.typeError 316) := by
  rw [dumpString, dumpEscaped_eq s (by simp), ← isUtf8]
  split <;> rfl

/-- The rest of a code point, in front of the rest of a string. -/
theorem exists_codepoint {ranges : List (UInt8 × UInt8)} {s : Str}
    (hranges : ∀ range ∈ ranges, (0x80 : UInt8) ≤ range.1) (h : isUtf8From ranges s = true) :
    ∃ bytes rest, s = bytes ++ rest ∧ isUtf8 rest = true ∧
      bytes.flatMap escapeByte = bytes ∧
      ∀ behind, nextBytesInRange ranges (bytes ++ behind) = some (bytes, behind) := by
  fun_induction isUtf8From ranges s with
  | case1 ranges =>
      obtain rfl := List.isEmpty_iff.mp h
      exact ⟨[], [], rfl, rfl, rfl, fun _ => rfl⟩
  | case2 lo hi ranges c s ih =>
      simp only [Bool.and_eq_true, decide_eq_true_eq] at h
      obtain ⟨hlo, hranges⟩ := List.forall_mem_cons.mp hranges
      obtain ⟨bytes, rest, rfl, hrest, hbytes, hnext⟩ := ih hranges h.2
      refine ⟨c :: bytes, rest, rfl, hrest, ?_, fun behind => ?_⟩
      · rw [List.flatMap_cons, escapeByte_high (UInt8.le_trans hlo h.1.1), hbytes]
        rfl
      · rw [List.cons_append, nextBytesInRange, if_pos h.1, hnext]
        rfl
  | case3 c s ranges htail ih =>
      exact ⟨[], c :: s, rfl, by rw [isUtf8, isUtf8From, htail]; exact h, rfl, fun _ => rfl⟩
  | case4 c s htail => cases h

theorem utf8Tail_ascii {b : UInt8} (h : b ≤ 0x7F) : utf8Tail b = some [] := by
  rw [utf8Tail, if_pos h]

theorem scanChar_dumpEscape {escape : UInt8 × UInt8} (h : escape ∈ dumpEscapes) (s : Str) :
    scanChar (0x5C :: escape.1 :: s) = some (.push [escape.2], s) := by
  have hall : ∀ escape ∈ dumpEscapes,
      escape.1 ≠ 0x75 ∧ escapes.lookup escape.1 = some escape.2 := by
    simp [dumpEscapes, escapes, List.lookup_cons]
  obtain ⟨hne, hlookup⟩ := hall escape h
  have hquote : ¬ (0x5C : UInt8) = 0x22 := by decide
  simp [scanChar, hquote, hne, hlookup]

theorem scanChar_control {c : UInt8} (hc : c.toNat < 0x80) (s : Str) :
    scanChar (str "\\u00" ++ [hexLetter (c.toNat / 16), hexLetter (c.toNat % 16)] ++ s) =
      some (.push [c], s) := by
  have hcode : scanUnicode
      (str "00" ++ hexLetter (c.toNat / 16) :: hexLetter (c.toNat % 16) :: s) = some ([c], s) := by
    rw [scanUnicode_eq, parseCodepoint_byte hc]
  show scanChar (0x5C :: 0x75 ::
    (str "00" ++ hexLetter (c.toNat / 16) :: hexLetter (c.toNat % 16) :: s)) = _
  have hquote : ¬ (0x5C : UInt8) = 0x22 := by decide
  simp only [scanChar, hquote, if_false, if_true, hcode]
  rfl

/-- A lead byte is read back, and with it the bytes that belong to it. -/
theorem scanChar_escapeByte {b : UInt8} {ranges : List (UInt8 × UInt8)}
    (htail : utf8Tail b = some ranges) (s : Str) :
    scanChar (escapeByte b ++ s) =
      (nextBytesInRange ranges s).map fun r => (.push (b :: r.1), r.2) := by
  rw [escapeByte]
  cases hfind : dumpEscapes.find? fun escape => escape.2 = b with
  | some escape =>
      obtain rfl : escape.2 = b := by simpa using List.find?_some hfind
      have hmem := List.mem_of_find?_eq_some hfind
      have hascii : ∀ escape ∈ dumpEscapes, escape.2 ≤ 0x7F := by simp [dumpEscapes]
      rw [utf8Tail_ascii (hascii escape hmem)] at htail
      obtain rfl := Option.some.inj htail
      exact scanChar_dumpEscape hmem s
  | none =>
      have hplain : ∀ escape ∈ dumpEscapes, escape.2 ≠ b := by simpa using hfind
      simp only
      split
      · next hcontrol =>
          rw [utf8Tail_ascii (UInt8.le_trans hcontrol (by decide))] at htail
          obtain rfl := Option.some.inj htail
          have hle := UInt8.le_iff_toNat_le.mp hcontrol
          have hlt : b.toNat < 0x80 := lt_of_le_of_lt hle (by decide)
          exact scanChar_control hlt s
      · next hcontrol =>
          have hspace : ¬ b < 0x20 := by
            simp only [UInt8.le_iff_toNat_le, UInt8.lt_iff_toNat_lt, UInt8.reduceToNat]
              at hcontrol ⊢
            omega
          have hquote : b ≠ 0x22 := fun h => hplain (0x22, 0x22) (by decide) h.symm
          have hbackslash : b ≠ 0x5C := fun h => hplain (0x5C, 0x5C) (by decide) h.symm
          simp [scanChar, hquote, hbackslash, hspace, htail]

theorem stringScan_dumped {s : Str} (h : isUtf8 s = true) (buffer rest : Str) :
    stringScan.Leads (buffer, s.flatMap escapeByte ++ rest) (buffer ++ s, rest) := by
  -- a turn takes a code point, not a byte
  generalize hlength : s.length = n
  induction n using Nat.strongRecOn generalizing s buffer with
  | ind n ih =>
      cases s with
      | nil =>
          rw [List.append_nil]
          exact Loop.Leads.refl _
      | cons b s =>
          cases htail : utf8Tail b with
          | none => simp [isUtf8, isUtf8From, htail] at h
          | some ranges =>
              rw [isUtf8, isUtf8From_lead htail] at h
              obtain ⟨bytes, s, rfl, hs, hbytes, hnext⟩ := exists_codepoint (utf8Tail_high htail) h
              have hturn : stringScan.turn (buffer, (b :: (bytes ++ s)).flatMap escapeByte ++ rest) =
                  .inl (buffer ++ b :: bytes, s.flatMap escapeByte ++ rest) := by
                have hchar : scanChar ((b :: (bytes ++ s)).flatMap escapeByte ++ rest) =
                    some (.push (b :: bytes), s.flatMap escapeByte ++ rest) := by
                  rw [List.flatMap_cons, List.append_assoc, scanChar_escapeByte htail,
                    List.flatMap_append, hbytes, List.append_assoc, hnext]
                  rfl
                simp only [stringScan, stringTurn, hchar]
              have hlt : s.length < n := by
                simp only [List.length_cons, List.length_append] at hlength
                omega
              have hleads := ih s.length hlt hs (buffer ++ b :: bytes) rfl
              rw [List.append_assoc, List.cons_append] at hleads
              exact .turn hturn hleads

theorem scanString_dumped {s : Str} (h : isUtf8 s = true) (rest : Str) :
    scanString (s.flatMap escapeByte ++ 0x22 :: rest) = some (s, rest) := by
  have hclose : stringScan.turn (s, 0x22 :: rest) = .inr (some (s, rest)) := by
    simp [stringScan, stringTurn, scanChar]
  rw [scanString, (stringScan_dumped h [] (0x22 :: rest)).run_eq]
  exact Loop.run_of_inr hclose

/-! ### Numbers -/

theorem scanNumber_stops {state : NumberState} {numberType : NumberType} {rest : Str}
    (hstate : state = .zero ∨ state = .any1 ∨ state = .decimal2) (hrest : Stops rest) :
    scanNumber state numberType rest = some ([], numberType, rest) := by
  have hnext : ∀ {c : UInt8}, isNumberChar c = false → state.next c = .done := by
    intro c hc
    simp only [isNumberChar, Bool.or_eq_false_iff, decide_eq_false_iff_not] at hc
    rcases hstate with rfl | rfl | rfl <;> simp [NumberState.next, hc]
  have htyped : state.typed numberType = numberType := by
    rcases hstate with rfl | rfl | rfl <;> rfl
  cases rest with
  | nil => simp only [scanNumber, hnext (by decide : isNumberChar 0x00 = false), htyped]
  | cons c rest =>
      have hc : isNumberChar c = false := by simpa [Stops] using hrest
      simp only [scanNumber, hnext hc, htyped]

theorem scanNumber_digits {digits rest : Str} {numberType : NumberType}
    (hdigits : ∀ c ∈ digits, isDigit c = true) (hrest : Stops rest) :
    scanNumber .any1 numberType (digits ++ rest) = some (digits, numberType, rest) := by
  induction digits with
  | nil => exact scanNumber_stops (.inr (.inl rfl)) hrest
  | cons c digits ih =>
      obtain ⟨hc, hdigits⟩ := List.forall_mem_cons.mp hdigits
      have hnext : NumberState.any1.next c = .goto .any1 := by simp [NumberState.next, hc]
      rw [List.cons_append, scanNumber, hnext]
      simp only [NumberState.typed, ih hdigits, Option.map_some]

/-- Only zero is written with a zero in front. -/
theorem toDigits_head (n : Nat) :
    ∃ c digits, Nat.toDigits 10 n = c :: digits ∧ (n = 0 → digits = []) ∧ (0 < n → c ≠ '0') := by
  induction n using Nat.strongRecOn with
  | ind n ih =>
      rcases Nat.lt_or_ge n 10 with hlt | hle
      · have hall : ∀ n < 10, 0 < n → n.digitChar ≠ '0' := by decide
        exact ⟨n.digitChar, [], Nat.toDigits_of_lt_base hlt, fun _ => rfl, hall n hlt⟩
      · obtain ⟨c, digits, hdigits, -, hc⟩ := ih (n / 10) (by omega)
        refine ⟨c, digits ++ [(n % 10).digitChar], ?_, by omega, fun _ => hc (by omega)⟩
        rw [Nat.toDigits_of_base_le (by decide) hle, hdigits]
        rfl

/-- The digits of a natural number, the first one apart. -/
theorem repr_cons (n : Nat) :
    ∃ c digits, str n.repr = c :: digits ∧ isDigit c = true ∧ (∀ d ∈ digits, isDigit d = true) ∧
      digitsValue (c :: digits) = n ∧ (n = 0 → c = 0x30 ∧ digits = []) ∧ (0 < n → c ≠ 0x30) := by
  obtain ⟨-, hdigits, hvalue⟩ := digits_repr n
  obtain ⟨c, digits, hto, hzero, hpos⟩ := toDigits_head n
  have hstr : str n.repr = c.toUInt8 :: digits.map Char.toUInt8 := by
    rw [str, Nat.toList_repr, hto]
    rfl
  rw [hstr] at hdigits hvalue
  obtain ⟨hc, hdigits⟩ := List.forall_mem_cons.mp hdigits
  have hchar : c.isDigit = true :=
    Nat.isDigit_of_mem_toDigits (by decide) (by decide) (hto ▸ List.mem_cons_self)
  have hnat := (toUInt8_digit hchar).2
  refine ⟨c.toUInt8, digits.map Char.toUInt8, hstr, hc, hdigits, hvalue, ?_, ?_⟩
  · rintro rfl
    obtain ⟨rfl, -⟩ := List.cons.inj hto
    exact ⟨rfl, by rw [hzero rfl]; rfl⟩
  · intro hn heq
    have hcode : c.toNat = '0'.toNat := by rw [← hnat, heq]; rfl
    exact hpos hn (Char.toNat_inj.mp hcode)

theorem numeral_natCast (n : Nat) : numeral n = str n.repr := by
  rw [numeral, Int.toString_eq_repr, Int.repr_eq_if, if_pos (by omega), Int.toNat_natCast]

theorem numeral_negative {n : Int} (h : n < 0) : numeral n = 0x2D :: str (-n).toNat.repr := by
  rw [numeral, Int.toString_eq_repr, Int.repr_eq_if, if_neg (by omega)]
  simp only [str, String.toList_append, List.map_append]
  rfl

section

variable (doubles : Doubles)

theorem scan_number {c : UInt8} (hc : isDigit c = true ∨ c = 0x2D) {s text rest : Str}
    {numberType : NumberType}
    (h : scanNumber (initState c) .unsigned s = some (text, numberType, rest)) :
    scan doubles (c :: s) = (numberToken doubles (c :: text) numberType, rest) := by
  obtain ⟨hws, -, -, -, hquote, -⟩ := numberHead_ne hc
  have hstructural : structural.lookup c = none := by
    have hall : ∀ entry ∈ structural.map Prod.fst, ¬ (isDigit entry = true ∨ entry = 0x2D) := by
      simp [structural, isDigit]
    refine List.lookup_eq_none_iff.mpr fun entry hentry => ?_
    rw [bne_iff_ne]
    rintro rfl
    exact hall entry.1 (List.mem_map_of_mem hentry) hc
  have hliterals : literals.lookup c = none := by
    have hall : ∀ entry ∈ literals.map Prod.fst, ¬ (isDigit entry = true ∨ entry = 0x2D) := by
      simp [literals, isDigit]
    refine List.lookup_eq_none_iff.mpr fun entry hentry => ?_
    rw [bne_iff_ne]
    rintro rfl
    exact hall entry.1 (List.mem_map_of_mem hentry) hc
  rw [scan, skipWs_cons hws]
  simp only [hstructural, hliterals, hquote, hc.symm, if_true, if_false, h]

theorem scan_unsigned {n : Nat} (h : n < 2 ^ 64) {rest : Str} (hrest : Stops rest) :
    scan doubles (numeral n ++ rest) = (.valueUnsigned n, rest) := by
  obtain ⟨c, digits, hrepr, hc, hdigits, hvalue, hzero, hpos⟩ := repr_cons n
  have hscan : scanNumber (initState c) .unsigned (digits ++ rest) =
      some (digits, .unsigned, rest) := by
    have hminus : c ≠ 0x2D := by
      rintro rfl
      cases hc
    rcases Nat.eq_zero_or_pos n with hn | hn
    · obtain ⟨rfl, rfl⟩ := hzero hn
      exact scanNumber_stops (.inl rfl) hrest
    · rw [initState, if_neg hminus, if_neg (hpos hn)]
      exact scanNumber_digits hdigits hrest
  rw [numeral_natCast, hrepr, List.cons_append, scan_number doubles (.inl hc) hscan, numberToken]
  simp only [hvalue, if_pos h]

theorem scan_negative {n : Int} (hneg : n < 0) (h : IsInt64 n) {rest : Str} (hrest : Stops rest) :
    scan doubles (numeral n ++ rest) = (.valueInteger n, rest) := by
  obtain ⟨c, digits, hrepr, hc, hdigits, hvalue, -, hpos⟩ := repr_cons (-n).toNat
  have hscan : scanNumber (initState 0x2D) .unsigned (c :: (digits ++ rest)) =
      some (c :: digits, .integer, rest) := by
    have hnext : NumberState.minus.next c = .goto .any1 := by
      simp [NumberState.next, hpos (by omega), hc]
    rw [initState, if_pos rfl, scanNumber, hnext]
    simp only [NumberState.typed, scanNumber_digits hdigits hrest, Option.map_some]
  have hn : -(digitsValue (c :: digits) : Int) = n := by omega
  rw [numeral_negative hneg, hrepr, List.cons_append, List.cons_append,
    scan_number doubles (.inr rfl) hscan, numberToken]
  simp only [List.tail_cons, hn, if_pos h.1]

/-! ### Other tokens -/

theorem scan_structural (c : UInt8) (token : Token) (h : (c, token) ∈ structural) (rest : Str) :
    scan doubles (c :: rest) = (token, rest) := by
  simp only [structural, List.mem_cons, List.not_mem_nil, or_false, Prod.mk.injEq] at h
  rcases h with ⟨rfl, rfl⟩ | ⟨rfl, rfl⟩ | ⟨rfl, rfl⟩ | ⟨rfl, rfl⟩ | ⟨rfl, rfl⟩ | ⟨rfl, rfl⟩ <;> rfl

theorem scan_literal {c : UInt8} {text : Str} {token : Token} (h : (c, text, token) ∈ literals)
    (rest : Str) : scan doubles (c :: text ++ rest) = (token, rest) := by
  have hscan : scan doubles (c :: (text ++ rest)) = scanLiteral text token (text ++ rest) := by
    simp only [literals, List.mem_cons, List.not_mem_nil, or_false, Prod.mk.injEq] at h
    rcases h with ⟨rfl, rfl, rfl⟩ | ⟨rfl, rfl, rfl⟩ | ⟨rfl, rfl, rfl⟩ <;> rfl
  rw [List.cons_append, hscan, scanLiteral, matchText_append]

def quoted (s : Str) : Str := [0x22] ++ s.flatMap escapeByte ++ [0x22]

theorem scan_quoted {s : Str} (h : isUtf8 s = true) (rest : Str) :
    scan doubles (quoted s ++ rest) = (.valueString s, rest) := by
  have hquote : skipWs (0x22 :: (s.flatMap escapeByte ++ 0x22 :: rest)) =
      0x22 :: (s.flatMap escapeByte ++ 0x22 :: rest) := skipWs_cons (by decide) _
  have hstructural : structural.lookup 0x22 = none := rfl
  have hliterals : literals.lookup 0x22 = none := rfl
  rw [quoted, List.append_assoc, List.append_assoc]
  show scan doubles (0x22 :: (s.flatMap escapeByte ++ 0x22 :: rest)) = _
  rw [scan, hquote]
  simp only [hstructural, hliterals, if_true, scanString_dumped h]

/-! ### Values -/

/-- From this text the parser gets to the value. -/
def Reads (text : Str) (j : Json) : Prop :=
  ∀ states rest, Stops rest → ∃ token s,
    scan doubles (text ++ rest) = (token, s) ∧ token ≠ .endArray ∧
      (parserLoop doubles).Leads ⟨states, .token token, s⟩ ⟨states, .value j, rest⟩

def ItemsRead (text : Str) (items : List Json) : Prop :=
  ∀ before states rest, ∃ token s,
    scan doubles (text ++ 0x5D :: rest) = (token, s) ∧ token ≠ .endArray ∧
      (parserLoop doubles).Leads ⟨.array before :: states, .token token, s⟩
        ⟨states, .value (.array (before ++ items)), rest⟩

def MembersRead (text : Str) (members : List (Str × Json)) : Prop :=
  ∀ before states rest, ∃ key s state,
    scan doubles (text ++ 0x7D :: rest) = (.valueString key, s) ∧
      parseKey doubles states before (.valueString key, s) = .inl state ∧
        (parserLoop doubles).Leads state
          ⟨states, .value (.object (assignAll members before)), rest⟩

variable {doubles}

theorem parseToken_scalar {states : List Frame} {token : Token} {s : Str} {j : Json}
    (h : scalar token = .ok j) :
    parseToken doubles states token s = .inl ⟨states, .value j, s⟩ := by
  cases token with
  | beginObject | beginArray => cases h
  | _ => simp only [parseToken, h]

theorem reads_scalar {text : Str} {j : Json} (token : Token) (hscalar : scalar token = .ok j)
    (hscan : ∀ rest, Stops rest → scan doubles (text ++ rest) = (token, rest)) :
    Reads doubles text j := by
  intro states rest hrest
  refine ⟨token, rest, hscan rest hrest, ?_, ?_⟩
  · rintro rfl
    cases hscalar
  · exact .turn (parseToken_scalar hscalar) (.refl _)

theorem reads_emptyArray : Reads doubles ([0x5B] ++ [] ++ [0x5D]) (.array []) := by
  intro states rest _
  refine ⟨.beginArray, 0x5D :: rest, scan_structural doubles _ _ (by simp [structural]) _,
    Token.noConfusion, ?_⟩
  refine .turn ?_ (.refl _)
  show parseToken doubles states .beginArray (0x5D :: rest) = _
  rw [parseToken, scan_structural doubles 0x5D .endArray (by simp [structural])]

theorem reads_emptyObject : Reads doubles ([0x7B] ++ [] ++ [0x7D]) (.object []) := by
  intro states rest _
  refine ⟨.beginObject, 0x7D :: rest, scan_structural doubles _ _ (by simp [structural]) _,
    Token.noConfusion, ?_⟩
  refine .turn ?_ (.refl _)
  show parseToken doubles states .beginObject (0x7D :: rest) = _
  rw [parseToken, scan_structural doubles 0x7D .endObject (by simp [structural])]

theorem Reads.array {text : Str} {items : List Json} (h : ItemsRead doubles text items) :
    Reads doubles ([0x5B] ++ text ++ [0x5D]) (.array items) := by
  intro states rest _
  obtain ⟨token, s, hscan, hne, hleads⟩ := h [] states rest
  refine ⟨.beginArray, text ++ 0x5D :: rest, ?_, Token.noConfusion, .turn ?_ hleads⟩
  · rw [List.append_assoc, List.append_assoc]
    exact scan_structural doubles _ _ (by simp [structural]) _
  · show parseToken doubles states .beginArray (text ++ 0x5D :: rest) = _
    rw [parseToken, hscan]
    split
    · next heq => exact absurd (Prod.mk.inj heq).1 hne
    · next heq =>
        obtain ⟨rfl, rfl⟩ := Prod.mk.inj heq
        rfl

theorem Reads.object {text : Str} {members : List (Str × Json)}
    (h : MembersRead doubles text members) :
    Reads doubles ([0x7B] ++ text ++ [0x7D]) (.object (assignAll members [])) := by
  intro states rest _
  obtain ⟨key, s, state, hscan, hkey, hleads⟩ := h [] states rest
  refine ⟨.beginObject, text ++ 0x7D :: rest, ?_, Token.noConfusion, .turn ?_ hleads⟩
  · rw [List.append_assoc, List.append_assoc]
    exact scan_structural doubles _ _ (by simp [structural]) _
  · show parseToken doubles states .beginObject (text ++ 0x7D :: rest) = _
    rw [parseToken, hscan]
    exact hkey

/-- What follows an item is a comma or a bracket. -/
theorem stops_bracket (rest : Str) : Stops (0x5D :: rest) ∧ Stops (0x7D :: rest) :=
  ⟨stops_cons (by decide) rest, stops_cons (by decide) rest⟩

theorem itemsRead_singleton {text : Str} {item : Json} (h : Reads doubles text item) :
    ItemsRead doubles text [item] := by
  intro before states rest
  obtain ⟨token, s, hscan, hne, hleads⟩ :=
    h (.array before :: states) (0x5D :: rest) (stops_bracket rest).1
  refine ⟨token, s, hscan, hne, hleads.trans (.turn ?_ (.refl _))⟩
  show evaluateState doubles item (0x5D :: rest) (.array before :: states) = _
  rw [evaluateState, scan_structural doubles 0x5D .endArray (by simp [structural])]

theorem itemsRead_cons {text texts : Str} {item : Json} {items : List Json}
    (h : Reads doubles text item) (hitems : ItemsRead doubles texts items) :
    ItemsRead doubles (text ++ [0x2C] ++ texts) (item :: items) := by
  intro before states rest
  obtain ⟨token, s, hscan, hne, hleads⟩ :=
    h (.array before :: states) (0x2C :: (texts ++ 0x5D :: rest)) (stops_comma _)
  obtain ⟨token', s', hscan', -, hleads'⟩ := hitems (before ++ [item]) states rest
  rw [List.append_assoc] at hleads'
  refine ⟨token, s, ?_, hne, hleads.trans (.turn ?_ hleads')⟩
  · rw [List.append_assoc, List.append_assoc]
    exact hscan
  · show evaluateState doubles item (0x2C :: (texts ++ 0x5D :: rest)) (.array before :: states) = _
    rw [evaluateState, scan_structural doubles 0x2C .valueSeparator (by simp [structural])]
    simp only [hscan']

/-- A key and its member, with the object open. -/
theorem exists_member {key text : Str} {member : Json} (hkey : isUtf8 key = true)
    (h : Reads doubles text member) (before : List (Str × Json)) (states : List Frame)
    {rest : Str} (hrest : Stops rest) :
    ∃ s state, scan doubles (quoted key ++ [0x3A] ++ text ++ rest) = (.valueString key, s) ∧
      parseKey doubles states before (.valueString key, s) = .inl state ∧
        (parserLoop doubles).Leads state ⟨.object before key :: states, .value member, rest⟩ := by
  obtain ⟨token, s, hscan, -, hleads⟩ := h (.object before key :: states) rest hrest
  refine ⟨0x3A :: (text ++ rest), _, ?_, ?_, hleads⟩
  · rw [List.append_assoc, List.append_assoc]
    exact scan_quoted doubles hkey _
  · rw [parseKey, scan_structural doubles 0x3A .nameSeparator (by simp [structural])]
    simp only [hscan]

theorem membersRead_singleton {key text : Str} {member : Json} (hkey : isUtf8 key = true)
    (h : Reads doubles text member) :
    MembersRead doubles (quoted key ++ [0x3A] ++ text) [(key, member)] := by
  intro before states rest
  obtain ⟨s, state, hscan, hparse, hleads⟩ :=
    exists_member hkey h before states (stops_bracket rest).2
  refine ⟨key, s, state, hscan, hparse, hleads.trans (.turn ?_ (.refl _))⟩
  show evaluateState doubles member (0x7D :: rest) (.object before key :: states) = _
  rw [evaluateState, scan_structural doubles 0x7D .endObject (by simp [structural])]
  rfl

theorem membersRead_cons {key text texts : Str} {member : Json} {members : List (Str × Json)}
    (hkey : isUtf8 key = true) (h : Reads doubles text member)
    (hmembers : MembersRead doubles texts members) :
    MembersRead doubles (quoted key ++ [0x3A] ++ text ++ [0x2C] ++ texts)
      ((key, member) :: members) := by
  intro before states rest
  obtain ⟨s, state, hscan, hparse, hleads⟩ :=
    exists_member hkey h before states (stops_comma (texts ++ 0x7D :: rest))
  obtain ⟨key', s', state', hscan', hparse', hleads'⟩ :=
    hmembers (assign key member before) states rest
  refine ⟨key, s, state, ?_, hparse, hleads.trans (.turn ?_ hleads')⟩
  · rw [List.append_assoc, List.append_assoc]
    exact hscan
  · show evaluateState doubles member (0x2C :: (texts ++ 0x7D :: rest))
      (.object before key :: states) = _
    rw [evaluateState, scan_structural doubles 0x2C .valueSeparator (by simp [structural])]
    simp only [hscan']
    exact hparse'

/-! ### What is dumped -/

mutual

/-- What a dumped value is read as: integers that are not negative come back as
unsigned ones, and the members in the order of their keys. -/
def reread : Json → Json
  | .numberInteger n => if 0 ≤ n then .numberUnsigned n.toNat else .numberInteger n
  | .array items => .array (rereadItems items)
  | .object members => .object (assignAll (rereadMembers members) [])
  | j => j

def rereadItems : List Json → List Json
  | [] => []
  | item :: items => reread item :: rereadItems items

def rereadMembers : List (Str × Json) → List (Str × Json)
  | [] => []
  | (key, member) :: members => (key, reread member) :: rereadMembers members

end

/-- A double is read from the text that prints it. -/
def ReadsBack (doubles : Doubles) (x : Double) : Prop :=
  ∀ rest, Stops rest → scan doubles (doubles.print x ++ rest) = (.valueFloat (some x), rest)

/-- What the printer of doubles is documented to do: whatever double was read, its
text is read as the same one, with its sign. -/
def PrintRoundTrips (doubles : Doubles) : Prop :=
  ∀ text x, doubles.strtod text = some x → ReadsBack doubles x

section

variable (doubles)

mutual

/-- Integers fit, and doubles are read back. -/
def Fits : Json → Prop
  | .numberUnsigned n => n < 2 ^ 64
  | .numberInteger n => IsInt64 n
  | .numberFloat x => ReadsBack doubles x
  | .array items => ItemsFit items
  | .object members => MembersFit members
  | _ => True

def ItemsFit : List Json → Prop
  | [] => True
  | item :: items => Fits item ∧ ItemsFit items

def MembersFit : List (Str × Json) → Prop
  | [] => True
  | (_, member) :: members => Fits member ∧ MembersFit members

end

end

theorem itemsFit_iff {items : List Json} :
    ItemsFit doubles items ↔ ∀ item ∈ items, Fits doubles item := by
  induction items with
  | nil => simp [ItemsFit]
  | cons item items ih => simp [ItemsFit, ih]

theorem membersFit_iff {members : List (Str × Json)} :
    MembersFit doubles members ↔ ∀ m ∈ members, Fits doubles m.2 := by
  induction members with
  | nil => simp [MembersFit]
  | cons m members ih => simp [MembersFit, ih]

theorem dumpString_of_isUtf8 {s : Str} (h : isUtf8 s = true) : dumpString s = .ok (quoted s) := by
  rw [dumpString_eq, if_pos h, quoted]

theorem reads_integer {n : Int} (h : IsInt64 n) :
    Reads doubles (numeral n) (reread (.numberInteger n)) := by
  rw [reread]
  split
  · next hn =>
      obtain ⟨m, rfl⟩ := Int.eq_ofNat_of_zero_le hn
      refine reads_scalar (.valueUnsigned m) rfl fun rest hrest => ?_
      exact scan_unsigned doubles (by have := h.2; omega) hrest
  · next hn =>
      exact reads_scalar (.valueInteger n) rfl fun rest hrest =>
        scan_negative doubles (by omega) h hrest

theorem reads_literal (c : UInt8) (text : Str) (token : Token) {j : Json}
    (h : (c, text, token) ∈ literals) (hscalar : scalar token = .ok j) :
    Reads doubles (c :: text) j :=
  reads_scalar token hscalar fun rest _ => scan_literal doubles h rest

mutual

theorem exists_dump : ∀ {j : Json}, Fits doubles j → j.dumpable = true →
    ∃ text, dump doubles j = .ok text ∧ Reads doubles text (reread j)
  | .null, _, _ =>
      ⟨_, rfl, reads_literal 0x6E (str "ull") .literalNull (by simp [literals]) rfl⟩
  | .boolean true, _, _ =>
      ⟨_, rfl, reads_literal 0x74 (str "rue") .literalTrue (by simp [literals]) rfl⟩
  | .boolean false, _, _ =>
      ⟨_, rfl, reads_literal 0x66 (str "alse") .literalFalse (by simp [literals]) rfl⟩
  | .numberInteger n, hfits, _ => ⟨_, rfl, reads_integer hfits⟩
  | .numberUnsigned n, hfits, _ =>
      ⟨_, rfl, reads_scalar (.valueUnsigned n) rfl fun _ => scan_unsigned doubles hfits⟩
  | .numberFloat x, hfits, _ => ⟨_, rfl, reads_scalar (.valueFloat (some x)) rfl hfits⟩
  | .string s, _, h =>
      ⟨quoted s, dumpString_of_isUtf8 h,
        reads_scalar (.valueString s) rfl fun rest _ => scan_quoted doubles h rest⟩
  | .array [], _, _ => ⟨_, rfl, reads_emptyArray⟩
  | .array (item :: items), hfits, h => by
      obtain ⟨text, htext, hread⟩ := exists_dumpItems hfits h (List.cons_ne_nil _ _)
      refine ⟨[0x5B] ++ text ++ [0x5D], ?_, Reads.array hread⟩
      rw [dump, htext]
      rfl
  | .object [], _, _ => ⟨_, rfl, reads_emptyObject⟩
  | .object (member :: members), hfits, h => by
      obtain ⟨text, htext, hread⟩ := exists_dumpMembers hfits h (List.cons_ne_nil _ _)
      refine ⟨[0x7B] ++ text ++ [0x7D], ?_, Reads.object hread⟩
      rw [dump, htext]
      rfl

theorem exists_dumpItems : ∀ {items : List Json}, ItemsFit doubles items →
    itemsDumpable items = true → items ≠ [] →
    ∃ text, dumpItems doubles items = .ok text ∧ ItemsRead doubles text (rereadItems items)
  | [], _, _, hne => absurd rfl hne
  | [item], hfits, h, _ => by
      simp only [itemsDumpable, Bool.and_true] at h
      obtain ⟨text, htext, hread⟩ := exists_dump hfits.1 h
      exact ⟨text, htext, itemsRead_singleton hread⟩
  | item :: next :: items, hfits, h, _ => by
      rw [itemsDumpable, Bool.and_eq_true] at h
      obtain ⟨text, htext, hread⟩ := exists_dump hfits.1 h.1
      obtain ⟨texts, htexts, hreads⟩ := exists_dumpItems hfits.2 h.2 (List.cons_ne_nil _ _)
      refine ⟨text ++ [0x2C] ++ texts, ?_, itemsRead_cons hread hreads⟩
      rw [dumpItems, htext, htexts]
      · rfl
      · exact List.cons_ne_nil _ _

theorem exists_dumpMembers : ∀ {members : List (Str × Json)},
    MembersFit doubles members → membersDumpable members = true → members ≠ [] →
    ∃ text, dumpMembers doubles members = .ok text ∧
      MembersRead doubles text (rereadMembers members)
  | [], _, _, hne => absurd rfl hne
  | [(key, member)], hfits, h, _ => by
      simp only [membersDumpable, Bool.and_true, Bool.and_eq_true] at h
      obtain ⟨text, htext, hread⟩ := exists_dump hfits.1 h.2
      refine ⟨quoted key ++ [0x3A] ++ text, ?_, membersRead_singleton h.1 hread⟩
      rw [dumpMembers, dumpString_of_isUtf8 h.1, htext]
      rfl
  | (key, member) :: next :: members, hfits, h, _ => by
      rw [membersDumpable, Bool.and_eq_true, Bool.and_eq_true] at h
      obtain ⟨text, htext, hread⟩ := exists_dump hfits.1 h.1.2
      obtain ⟨texts, htexts, hreads⟩ := exists_dumpMembers hfits.2 h.2 (List.cons_ne_nil _ _)
      refine ⟨quoted key ++ [0x3A] ++ text ++ [0x2C] ++ texts, ?_,
        membersRead_cons h.1.1 hread hreads⟩
      rw [dumpMembers, dumpString_of_isUtf8 h.1.1, htext, htexts]
      · rfl
      · exact List.cons_ne_nil _ _

end

/-! ### What is read again -/

/-- No dumped text begins like a byte order mark. -/
theorem Reads.skipBom {text rest : Str} {j : Json} (h : Reads doubles text j) (hrest : Stops rest) :
    skipBom (text ++ rest) = some (text ++ rest) := by
  obtain ⟨token, s, hscan, -, hleads⟩ := h [] rest hrest
  have hrun : (parserLoop doubles).run ⟨[], .token token, s⟩ = .ok (j, rest) :=
    hleads.run_eq.trans (Loop.run_of_inr rfl)
  generalize text ++ rest = input at hscan ⊢
  rw [JsonText.skipBom.eq_def]
  split
  · next s' =>
      obtain ⟨rfl, -⟩ : Token.parseError = token ∧ s' = s := Prod.mk.inj hscan
      have herror : (parserLoop doubles).run ⟨[], .token .parseError, s⟩ =
          .error .unexpectedToken := Loop.run_of_inr rfl
      cases herror.symm.trans hrun
  · rfl

theorem parse_of_reads {text rest : Str} {j : Json} (h : Reads doubles text j)
    (hrest : Stops rest) {strict : Bool}
    (hstrict : strict = true → (scan doubles rest).1 = .endOfInput) :
    parse doubles strict (text ++ rest) = .ok j := by
  obtain ⟨token, s, hscan, -, hleads⟩ := h [] rest hrest
  have hrun : (parserLoop doubles).run ⟨[], .token token, s⟩ = .ok (j, rest) :=
    hleads.run_eq.trans (Loop.run_of_inr rfl)
  rw [parse, h.skipBom hrest]
  simp only [hscan, hrun, bind, Except.bind]
  cases strict with
  | false => rfl
  | true =>
      rw [hstrict rfl]
      rfl

theorem stops_of_skipWs {rest : Str} (h : skipWs rest = []) : Stops rest := by
  intro c hc
  have hws : isWs c = true := List.dropWhile_eq_nil_iff.mp h c (List.mem_of_head? hc)
  simp only [isWs, isNumberChar, isDigit, Bool.or_eq_true, decide_eq_true_eq] at hws ⊢
  rcases hws with ((rfl | rfl) | rfl) | rfl <;> decide

/-- The text of a value, and the value that it is read as, strictly where nothing
but white space follows. -/
def IsTextOf (doubles : Doubles) (text : Str) (j : Json) : Prop :=
  (∀ rest, skipWs rest = [] → parse doubles true (text ++ rest) = .ok j) ∧
    ∀ rest, Stops rest → parse doubles false (text ++ rest) = .ok j

theorem Reads.isTextOf {text : Str} {j : Json} (h : Reads doubles text j) :
    IsTextOf doubles text j := by
  constructor
  · intro rest hrest
    refine parse_of_reads h (stops_of_skipWs hrest) fun _ => ?_
    rw [scan, hrest]
  · intro rest hrest
    exact parse_of_reads h hrest fun hstrict => absurd hstrict Bool.false_ne_true

mutual

theorem Formed.fits (hdoubles : PrintRoundTrips doubles) :
    ∀ {j : Json}, Formed doubles j → Fits doubles j
  | .numberUnsigned _, h => h
  | .numberInteger _, h => h
  | .numberFloat x, ⟨text, h⟩ => hdoubles text x h
  | .array _, h => ItemsFormed.fit hdoubles h
  | .object _, h => MembersFormed.fit hdoubles h.2
  | .null, _ | .boolean _, _ | .string _, _ => trivial

theorem ItemsFormed.fit (hdoubles : PrintRoundTrips doubles) :
    ∀ {items : List Json}, ItemsFormed doubles items → ItemsFit doubles items
  | [], _ => trivial
  | _ :: _, h => ⟨Formed.fits hdoubles h.1, ItemsFormed.fit hdoubles h.2⟩

theorem MembersFormed.fit (hdoubles : PrintRoundTrips doubles) :
    ∀ {members : List (Str × Json)}, MembersFormed doubles members → MembersFit doubles members
  | [], _ => trivial
  | (_, _) :: _, h => ⟨Formed.fits hdoubles h.1.2, MembersFormed.fit hdoubles h.2⟩

end

theorem rereadMembers_eq (members : List (Str × Json)) :
    rereadMembers members = members.map (Prod.map id reread) := by
  induction members with
  | nil => rfl
  | cons member members ih =>
      rw [rereadMembers, ih]
      rfl

theorem assignAll_rereadMembers {members : List (Str × Json)} (h : Sorted members) :
    assignAll (rereadMembers members) [] = rereadMembers members := by
  have hsorted : Sorted ([] ++ rereadMembers members) := by
    have hkeys : (members.map (Prod.map id reread)).map Prod.fst = members.map Prod.fst := by
      simp
    rwa [List.nil_append, Sorted, rereadMembers_eq, hkeys]
  exact assignAll_of_sorted hsorted

mutual

/-- The same value, with unsigned integers wherever the sign allows for them. -/
def asUnsigned : Json → Json
  | .numberInteger n => if 0 ≤ n then .numberUnsigned n.toNat else .numberInteger n
  | .array items => .array (itemsAsUnsigned items)
  | .object members => .object (membersAsUnsigned members)
  | j => j

def itemsAsUnsigned : List Json → List Json
  | [] => []
  | item :: items => asUnsigned item :: itemsAsUnsigned items

def membersAsUnsigned : List (Str × Json) → List (Str × Json)
  | [] => []
  | (key, member) :: members => (key, asUnsigned member) :: membersAsUnsigned members

end

mutual

/-- The members of a value that was read are in order already. -/
theorem reread_eq_asUnsigned : ∀ {j : Json}, Formed doubles j → reread j = asUnsigned j
  | .numberInteger _, _ => by rw [reread, asUnsigned]
  | .array _, h => by rw [reread, asUnsigned, rereadItems_eq_itemsAsUnsigned h]
  | .object _, h => by
      rw [reread, asUnsigned, assignAll_rereadMembers h.1, rereadMembers_eq_membersAsUnsigned h.2]
  | .null, _ | .boolean _, _ | .numberUnsigned _, _ | .numberFloat _, _ | .string _, _ => rfl

theorem rereadItems_eq_itemsAsUnsigned : ∀ {items : List Json}, ItemsFormed doubles items →
    rereadItems items = itemsAsUnsigned items
  | [], _ => rfl
  | _ :: _, h => by
      rw [rereadItems, itemsAsUnsigned, reread_eq_asUnsigned h.1,
        rereadItems_eq_itemsAsUnsigned h.2]

theorem rereadMembers_eq_membersAsUnsigned : ∀ {members : List (Str × Json)},
    MembersFormed doubles members → rereadMembers members = membersAsUnsigned members
  | [], _ => rfl
  | (_, _) :: _, h => by
      rw [rereadMembers, membersAsUnsigned, reread_eq_asUnsigned h.1.2,
        rereadMembers_eq_membersAsUnsigned h.2]

end

mutual

/-- The sign field of an integer does not show in its text. -/
theorem dump_asUnsigned : ∀ j : Json, dump doubles (asUnsigned j) = dump doubles j
  | .numberInteger n => by
      rw [asUnsigned]
      split
      · next hn => rw [dump, dump, Int.toNat_of_nonneg hn]
      · rfl
  | .array items => by rw [asUnsigned, dump, dump, dumpItems_itemsAsUnsigned items]
  | .object members => by rw [asUnsigned, dump, dump, dumpMembers_membersAsUnsigned members]
  | .null | .boolean _ | .numberUnsigned _ | .numberFloat _ | .string _ => rfl

theorem dumpItems_itemsAsUnsigned : ∀ items : List Json,
    dumpItems doubles (itemsAsUnsigned items) = dumpItems doubles items
  | [] => rfl
  | [item] => by
      rw [itemsAsUnsigned, itemsAsUnsigned, dumpItems, dumpItems, dump_asUnsigned item]
  | item :: next :: items => by
      rw [itemsAsUnsigned, dumpItems, dumpItems, dump_asUnsigned item,
        dumpItems_itemsAsUnsigned (next :: items)]
      · exact List.cons_ne_nil _ _
      · exact List.cons_ne_nil _ _

theorem dumpMembers_membersAsUnsigned : ∀ members : List (Str × Json),
    dumpMembers doubles (membersAsUnsigned members) = dumpMembers doubles members
  | [] => rfl
  | [(key, member)] => by
      rw [membersAsUnsigned, membersAsUnsigned, dumpMembers, dumpMembers, dump_asUnsigned member]
  | (key, member) :: next :: members => by
      rw [membersAsUnsigned, dumpMembers, dumpMembers, dump_asUnsigned member,
        dumpMembers_membersAsUnsigned (next :: members)]
      · exact List.cons_ne_nil _ _
      · exact List.cons_ne_nil _ _

end

/-- Whatever text a value was read from, its strings are UTF-8, its integers fit
and its members are in order; it can be dumped, and from there on its text stays
as it is. -/
theorem parsed_values_read_back (hdoubles : PrintRoundTrips doubles) {strict : Bool} {s : Str}
    {j : Json} (h : parse doubles strict s = .ok j) :
    Formed doubles j ∧ ∃ text, dump doubles j = .ok text ∧
      dump doubles (asUnsigned j) = .ok text ∧ IsTextOf doubles text (asUnsigned j) := by
  have hformed := formed_of_parse h
  obtain ⟨text, htext, hreads⟩ := exists_dump (Formed.fits hdoubles hformed) hformed.dumpable
  rw [reread_eq_asUnsigned hformed] at hreads
  exact ⟨hformed, text, htext, (dump_asUnsigned j).trans htext, hreads.isTextOf⟩

def zero (negative : Bool) : Double := ⟨0, negative, 0, by simp, by decide, by simp [trunc]⟩

def zeroText (negative : Bool) : Str := if negative then str "-0.0" else str "0.0"

/-- The two zeros are the only doubles that these read and print. -/
def zeroDoubles : Doubles where
  strtod text := [true, false].findSome? fun negative =>
    if text = zeroText negative then some (zero negative) else none
  print x := zeroText x.negative

theorem readsBack_zero (negative : Bool) : ReadsBack zeroDoubles (zero negative) := by
  intro rest hrest
  have hdecimal : scanNumber .decimal2 .float rest = some ([], .float, rest) :=
    scanNumber_stops (.inr (.inr rfl)) hrest
  have hpoint : ∀ numberType, scanNumber .zero numberType (0x2E :: 0x30 :: rest) =
      some ([0x2E, 0x30], .float, rest) := by
    intro numberType
    have hzero : NumberState.zero.next 0x2E = .goto .decimal1 := rfl
    have hdigit : NumberState.decimal1.next 0x30 = .goto .decimal2 := rfl
    rw [scanNumber, hzero]
    simp only [NumberState.typed, scanNumber, hdigit, hdecimal, Option.map_some]
  cases negative with
  | false => exact (scan_number (c := 0x30) zeroDoubles (.inl rfl) (hpoint .unsigned)).trans rfl
  | true =>
      have hminus : scanNumber .minus .unsigned (0x30 :: 0x2E :: 0x30 :: rest) =
          some ([0x30, 0x2E, 0x30], .float, rest) := by
        have hzero : NumberState.minus.next 0x30 = .goto .zero := rfl
        rw [scanNumber, hzero]
        simp only [NumberState.typed, hpoint, Option.map_some]
      exact (scan_number (c := 0x2D) zeroDoubles (.inr rfl) hminus).trans rfl

theorem printRoundTrips_zeroDoubles : PrintRoundTrips zeroDoubles := by
  intro text x h
  obtain ⟨negative, -, hx⟩ := List.exists_of_findSome?_eq_some h
  split at hx
  · obtain rfl := Option.some.inj hx
    exact readsBack_zero negative
  · cases hx

/-- Of a negative zero the sign is kept, but not of one that is an integer. -/
theorem parsed_values_read_back_negative_zero :
    ∃ text, dump zeroDoubles (.array [.numberFloat (zero true), .numberInteger 0]) = .ok text ∧
      IsTextOf zeroDoubles text (.array [.numberFloat (zero true), .numberUnsigned 0]) := by
  have hparse : parse zeroDoubles true (str "[-0.0,-0]") =
      .ok (.array [.numberFloat (zero true), .numberInteger 0]) := rfl
  obtain ⟨-, text, htext, -, hreads⟩ :=
    parsed_values_read_back printRoundTrips_zeroDoubles hparse
  exact ⟨text, htext, hreads⟩

/-! ### What cannot be dumped -/

/-- A text where the condition holds, and else the exception for strings that are
not UTF-8. -/
def TextIf (dumpable : Bool) (result : Except JsonException Str) : Prop :=
  ∃ text, result = if dumpable then .ok text else .error (.typeError 316)

theorem TextIf.ok (text : Str) : TextIf true (.ok text) := ⟨text, rfl⟩

theorem TextIf.bind {a b : Bool} {x : Except JsonException Str} {f : Str → Except JsonException Str}
    (hx : TextIf a x) (hf : ∀ text, TextIf b (f text)) : TextIf (a && b) (x >>= f) := by
  obtain ⟨text, rfl⟩ := hx
  cases a with
  | false => exact ⟨[], rfl⟩
  | true => exact hf text

theorem TextIf.map {a : Bool} {x : Except JsonException Str} (hx : TextIf a x) (f : Str → Str) :
    TextIf a (x.map f) := by
  obtain ⟨text, rfl⟩ := hx
  cases a with
  | false => exact ⟨[], rfl⟩
  | true => exact ⟨f text, rfl⟩

theorem textIf_dumpString (s : Str) : TextIf (isUtf8 s) (dumpString s) :=
  ⟨_, dumpString_eq s⟩

variable (doubles)

mutual

theorem textIf_dump : ∀ j : Json, TextIf j.dumpable (dump doubles j)
  | .string s => textIf_dumpString s
  | .array items => (textIf_dumpItems items).map _
  | .object members => (textIf_dumpMembers members).map _
  | .null | .boolean _ | .numberInteger _ | .numberUnsigned _ | .numberFloat _ => .ok _

theorem textIf_dumpItems : ∀ items : List Json,
    TextIf (itemsDumpable items) (dumpItems doubles items)
  | [] => .ok []
  | [item] => by
      rw [itemsDumpable, itemsDumpable, Bool.and_true, dumpItems]
      exact textIf_dump item
  | item :: next :: items => by
      rw [itemsDumpable, dumpItems]
      · refine (textIf_dump item).bind fun text => ?_
        rw [← Bool.and_true (itemsDumpable _)]
        exact (textIf_dumpItems (next :: items)).bind fun texts => .ok _
      · exact List.cons_ne_nil _ _

theorem textIf_dumpMembers : ∀ members : List (Str × Json),
    TextIf (membersDumpable members) (dumpMembers doubles members)
  | [] => .ok []
  | [(key, member)] => by
      rw [membersDumpable, membersDumpable, dumpMembers, Bool.and_assoc]
      refine (textIf_dumpString key).bind fun _ => (textIf_dump member).bind fun _ => .ok _
  | (key, member) :: next :: members => by
      rw [membersDumpable, dumpMembers, Bool.and_assoc]
      · refine (textIf_dumpString key).bind fun _ => (textIf_dump member).bind fun _ => ?_
        rw [← Bool.and_true (membersDumpable _)]
        exact (textIf_dumpMembers (next :: members)).bind fun _ => .ok _
      · exact List.cons_ne_nil _ _

end

end

end MvcBackend.JsonTextRoundTrip
