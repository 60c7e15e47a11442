import MvcBackend.PicoJson

/-!
picojson reads back what it writes, whatever follows, and its loops never lack
the turns that the model gives them.
-/

namespace MvcBackend.PicoJsonRoundTrip

open MvcBackend.JsonValues
open MvcBackend.ApiParse
open MvcBackend.IntSegments
open MvcBackend.Rendering
open MvcBackend.PicoJson
open MvcBackend.Library.SortedMap
open MvcBackend.Library.Transaction

theorem skipWs_cons {c : UInt8} (hc : isWs c = false) (s : Str) : skipWs (c :: s) = c :: s := by
  simp [skipWs, hc]

theorem expect_self {c : UInt8} (hc : isWs c = false) (s : Str) :
    expect c (c :: s) = (true, s) := by
  simp [expect, skipWs_cons hc]

theorem expect_ne {c d : UInt8} (hc : isWs c = false) (hne : c ≠ d) (s : Str) :
    expect d (c :: s) = (false, c :: s) := by
  simp [expect, skipWs_cons hc, hne]

theorem matchText_append (pattern s : Str) : matchText pattern (pattern ++ s) = some s := by
  induction pattern with
  | nil => rfl
  | cons p pattern ih => simpa [matchText] using ih

theorem literal_append (text s : Str) (value : Value) :
    literal text value (text ++ s) = .ok (value, s) := by
  simp [literal, matchText_append, require, Except.map]

/-! ### Strings -/

theorem hexDigit_hexLetter : ∀ n < 16, hexDigit (hexLetter n) = some n := by decide

theorem lookup_escapes : ∀ escape ∈ escapes,
    escape.1 ≠ 0x75 ∧ escapes.lookup escape.1 = some escape.2 := by
  simp [escapes, List.lookup_cons]

theorem readStringChar_escape {escape : UInt8 × UInt8} (h : escape ∈ escapes) (s : Str) :
    readStringChar (0x5C :: escape.1 :: s) = some (.push [escape.2], s) := by
  obtain ⟨hne, hlookup⟩ := lookup_escapes escape h
  have hspace : ¬ (0x5C : UInt8) < 0x20 := by decide
  have hquote : ¬ (0x5C : UInt8) = 0x22 := by decide
  simp [readStringChar, hspace, hquote, hne, hlookup]

theorem parseQuadhex_byte (c : UInt8) (s : Str) :
    parseQuadhex (str "00" ++ hexLetter (c.toNat / 16) :: hexLetter (c.toNat % 16) :: s) =
      some (c.toNat, s) := by
  have hlt := c.toNat_lt
  have hzero : hexDigit 0x30 = some 0 := by decide
  have hhigh := hexDigit_hexLetter (c.toNat / 16) (by omega)
  have hlow := hexDigit_hexLetter (c.toNat % 16) (by omega)
  have hvalue : c.toNat / 16 * 16 + c.toNat % 16 = c.toNat := by omega
  show parseHex 4 0 (0x30 :: 0x30 :: hexLetter (c.toNat / 16) :: hexLetter (c.toNat % 16) :: s) = _
  simp [parseHex, hzero, hhigh, hlow, hvalue]

theorem parseCodepoint_byte {c : UInt8} (hc : c.toNat < 0x80) (s : Str) :
    parseCodepoint (str "00" ++ hexLetter (c.toNat / 16) :: hexLetter (c.toNat % 16) :: s) =
      some ([c], s) := by
  have hsurrogate : ¬ (0xD800 ≤ c.toNat ∧ c.toNat ≤ 0xDFFF) := by omega
  rw [parseCodepoint, parseQuadhex_byte]
  simp [hsurrogate, codepointBytes, hc]

theorem readStringChar_control {c : UInt8} (hc : c.toNat < 0x80) (s : Str) :
    readStringChar (str "\\u00" ++ hexLetter (c.toNat / 16) :: hexLetter (c.toNat % 16) :: s) =
      some (.push [c], s) := by
  have hcode := parseCodepoint_byte hc s
  show readStringChar (0x5C :: 0x75 ::
    (str "00" ++ hexLetter (c.toNat / 16) :: hexLetter (c.toNat % 16) :: s)) = _
  have hspace : ¬ (0x5C : UInt8) < 0x20 := by decide
  have hquote : ¬ (0x5C : UInt8) = 0x22 := by decide
  simp only [readStringChar, hspace, hquote, if_false, if_true, hcode]
  rfl

theorem readStringChar_serializeChar (c : UInt8) (s : Str) :
    readStringChar (serializeChar c ++ s) = some (.push [c], s) := by
  rw [serializeChar]
  cases hfind : escapes.find? fun escape => escape.2 = c with
  | some escape =>
      obtain rfl : escape.2 = c := by simpa using List.find?_some hfind
      exact readStringChar_escape (List.mem_of_find?_eq_some hfind) s
  | none =>
      have hplain : ∀ escape ∈ escapes, escape.2 ≠ c := by simpa using hfind
      simp only
      split
      · next hcontrol =>
          have hlt : c.toNat < 0x80 := by
            rcases hcontrol with h | rfl
            · have := UInt8.lt_iff_toNat_lt.mp h
              simp at this
              omega
            · decide
          simpa using readStringChar_control hlt s
      · next hcontrol =>
          have hspace : ¬ c < 0x20 := fun h => hcontrol (.inl h)
          have hquote : c ≠ 0x22 := fun h => hplain (0x22, 0x22) (by decide) h.symm
          have hbackslash : c ≠ 0x5C := fun h => hplain (0x5C, 0x5C) (by decide) h.symm
          simp [readStringChar, hspace, hquote, hbackslash]

theorem stringLoop_serialize (out s : Str) {fuel : Nat} (hfuel : out.length < fuel) :
    stringLoop fuel (out.flatMap serializeChar ++ 0x22 :: s) = some (out, s) := by
  induction out generalizing fuel with
  | nil =>
      obtain ⟨fuel, rfl⟩ := Nat.exists_eq_add_of_lt hfuel
      have hquote : readStringChar (0x22 :: s) = some (.close, s) := by
        have hspace : ¬ (0x22 : UInt8) < 0x20 := by decide
        simp [readStringChar, hspace]
      simp [stringLoop, hquote]
  | cons c out ih =>
      obtain ⟨fuel, rfl⟩ : ∃ fuel', fuel = fuel' + 1 := ⟨fuel - 1, by omega⟩
      have hrest : stringLoop fuel (out.flatMap serializeChar ++ 0x22 :: s) = some (out, s) :=
        ih (by simpa using hfuel)
      simp only [List.flatMap_cons, List.append_assoc, stringLoop,
        readStringChar_serializeChar, Option.bind_eq_bind, Option.bind_some, hrest]
      rfl

theorem length_le_flatMap_serializeChar (out : Str) :
    out.length ≤ (out.flatMap serializeChar).length := by
  induction out with
  | nil => simp
  | cons c out ih =>
      have hpos : 0 < (serializeChar c).length := by
        rw [serializeChar]
        cases escapes.find? fun escape => escape.2 = c with
        | some escape => simp
        | none =>
            simp only
            split <;> simp
      simp only [List.flatMap_cons, List.length_append, List.length_cons]
      omega

theorem parseString_serialize (out s : Str) :
    parseString (out.flatMap serializeChar ++ 0x22 :: s) = some (out, s) := by
  have hlength := length_le_flatMap_serializeChar out
  apply stringLoop_serialize
  simp only [List.length_append, List.length_cons]
  omega

theorem serializeStr_append (out s : Str) :
    serializeStr out ++ s = 0x22 :: (out.flatMap serializeChar ++ 0x22 :: s) := by
  simp [serializeStr]

/-! ### Numbers -/

/-- What follows does not go on with a number. -/
def Stops (rest : Str) : Prop := ∀ c ∈ rest.head?, isNumberChar c = false

theorem stops_cons {c : UInt8} (hc : isNumberChar c = false) (rest : Str) : Stops (c :: rest) := by
  simpa [Stops] using hc

theorem numeral_cons (n : Int) :
    ∃ c s, numeral n = c :: s ∧ (isDigit c = true ∨ c = 0x2D) ∧ ∀ d ∈ c :: s, isNumberChar d := by
  obtain ⟨sign, factor, digits, hsign, hnumeral, hne, hdigits, -⟩ := exists_numeral n
  obtain ⟨c, s, rfl⟩ := List.exists_cons_of_ne_nil hne
  have hchars : ∀ d ∈ c :: s, isNumberChar d := fun d hd => by simp [isNumberChar, hdigits d hd]
  rcases List.mem_pair.mp hsign with hsign | hsign
  · obtain ⟨rfl, -⟩ := Prod.mk.inj hsign
    exact ⟨c, s, hnumeral, .inl (hdigits c (by simp)), hchars⟩
  · obtain ⟨rfl, -⟩ := Prod.mk.inj hsign
    refine ⟨0x2D, c :: s, hnumeral, .inr rfl, ?_⟩
    intro d hd
    rcases List.mem_cons.mp hd with rfl | hd
    · decide
    · exact hchars d hd

theorem strtoimax_numeral {n : Int} (h : IsInt64 n) : strtoimax (numeral n) = some n := by
  obtain ⟨sign, factor, digits, hsign, hnumeral, hne, hdigits, hvalue⟩ := exists_numeral n
  obtain ⟨c, s, rfl⟩ := List.exists_cons_of_ne_nil hne
  have hmem : (sign, factor) ∈ signs := by
    rcases List.mem_pair.mp hsign with hsign | hsign <;> simp [hsign, signs]
  have hall : (c :: s).all isDigit = true := List.all_eq_true.mpr hdigits
  rw [strtoimax, hnumeral, splitSign_append hmem (hdigits c (by simp))]
  simp only [List.isEmpty_cons, hall, Bool.not_true, Bool.or_self, ← hvalue, if_pos h]
  simp

theorem parseNumber_numeral (strtod : Str → Strtod) {n : Int} (h : IsInt64 n) {rest : Str}
    (hrest : Stops rest) : parseNumber strtod (numeral n ++ rest) = .ok (.int64 n, rest) := by
  obtain ⟨c, s, hnumeral, -, hchars⟩ := numeral_cons n
  rw [← hnumeral] at hchars
  have htake : rest.takeWhile isNumberChar = [] ∧ rest.dropWhile isNumberChar = rest := by
    cases rest with
    | nil => simp
    | cons d rest =>
        have hd : isNumberChar d = false := by simpa [Stops] using hrest
        simp [hd]
  rw [parseNumber, List.takeWhile_append_of_pos hchars, List.dropWhile_append_of_pos hchars,
    htake.1, htake.2, List.append_nil, strtoimax_numeral h]

theorem numberHead_ne {c : UInt8} (h : isDigit c = true ∨ c = 0x2D) :
    isWs c = false ∧ c ≠ 0x6E ∧ c ≠ 0x66 ∧ c ≠ 0x74 ∧ c ≠ 0x22 ∧ c ≠ 0x5B ∧ c ≠ 0x7B ∧ c ≠ 0x5D := by
  simp only [isDigit, isWs, Bool.and_eq_true, decide_eq_true_eq, UInt8.le_iff_toNat_le,
    ← UInt8.toNat_inj, UInt8.reduceToNat, Bool.or_eq_false_iff, decide_eq_false_iff_not,
    ne_eq] at h ⊢
  omega

/-! ### Values -/

mutual

/-- Without doubles; the integers fit and the keys of objects are in order. -/
def Value.Plain : Value → Prop
  | .int64 n => IsInt64 n
  | .number _ => False
  | .array items => ItemsPlain items
  | .object members => (members.map Prod.fst).Pairwise (· < ·) ∧ MembersPlain members
  | _ => True

def ItemsPlain : List Value → Prop
  | [] => True
  | item :: items => Value.Plain item ∧ ItemsPlain items

def MembersPlain : List (Str × Value) → Prop
  | [] => True
  | (_, member) :: members => Value.Plain member ∧ MembersPlain members

end

theorem membersPlain_iff {members : List (Str × Value)} :
    MembersPlain members ↔ ∀ m ∈ members, Value.Plain m.2 := by
  induction members with
  | nil => simp [MembersPlain]
  | cons m members ih => simp [MembersPlain, ih]

theorem serializeItems_cons (item next : Value) (items : List Value) :
    serializeItems (item :: next :: items) =
      item.serialize ++ [0x2C] ++ serializeItems (next :: items) := rfl

theorem serializeMembers_cons (key : Str) (member : Value) (next : Str × Value)
    (members : List (Str × Value)) :
    serializeMembers ((key, member) :: next :: members) =
      serializeStr key ++ [0x3A] ++ member.serialize ++ [0x2C] ++
        serializeMembers (next :: members) := rfl

theorem serialize_cons {v : Value} (hplain : Value.Plain v) :
    ∃ c s, v.serialize = c :: s ∧ isWs c = false ∧ c ≠ 0x5D := by
  cases v with
  | null => exact ⟨_, _, rfl, by decide, by decide⟩
  | boolean b => cases b <;> exact ⟨_, _, rfl, by decide, by decide⟩
  | int64 n =>
      obtain ⟨c, s, hnumeral, hhead, -⟩ := numeral_cons n
      obtain ⟨hws, -, -, -, -, -, -, hclose⟩ := numberHead_ne hhead
      exact ⟨c, s, by rw [Value.serialize, hnumeral], hws, hclose⟩
  | number text => simp [Value.Plain] at hplain
  | string s => exact ⟨_, _, rfl, by decide, by decide⟩
  | array items => exact ⟨_, _, by rw [Value.serialize]; rfl, by decide, by decide⟩
  | object members => exact ⟨_, _, by rw [Value.serialize]; rfl, by decide, by decide⟩

section

variable (strtod : Str → Strtod)

theorem parseValue_string (out s : Str) (fuel : Nat) :
    parseValue strtod (fuel + 1) (serializeStr out ++ s) = .ok (.string out, s) := by
  have hws : isWs 0x22 = false := by decide
  rw [serializeStr_append, parseValue, skipWs_cons hws]
  simp [parseString_serialize, require, Except.map]

theorem parseValue_int64 {n : Int} (h : IsInt64 n) {rest : Str} (hrest : Stops rest) (fuel : Nat) :
    parseValue strtod (fuel + 1) (numeral n ++ rest) = .ok (.int64 n, rest) := by
  obtain ⟨c, s, hnumeral, hhead, -⟩ := numeral_cons n
  obtain ⟨hws, hnull, hfalse, htrue, hquote, harray, hobject, -⟩ := numberHead_ne hhead
  have hnumber := parseNumber_numeral strtod h hrest
  rw [hnumeral, List.cons_append] at hnumber ⊢
  rw [parseValue, skipWs_cons hws]
  simp [hnull, hfalse, htrue, hquote, harray, hobject, hhead, hnumber]

/-- After a value comes a comma or the bracket that closes the list. -/
theorem stops_comma (rest : Str) : Stops (0x2C :: rest) := stops_cons (by decide) rest

theorem parseValue_array {items : List Value} {fuel : Nat} {text rest : Str}
    (hhead : ∃ c s, text = c :: s ∧ isWs c = false ∧ c ≠ 0x5D)
    (h : parseItems strtod fuel text = .ok (items, rest)) :
    parseValue strtod (fuel + 1) (0x5B :: text) = .ok (.array items, rest) := by
  obtain ⟨c, s, rfl, hws, hclose⟩ := hhead
  have hopen : isWs 0x5B = false := by decide
  rw [parseValue, skipWs_cons hopen]
  simp [expect_ne hws hclose, h, Except.map]

theorem parseValue_object {members : List (Str × Value)} {fuel : Nat} {text rest : Str}
    (h : parseMembers strtod fuel [] (0x22 :: text) = .ok (members, rest)) :
    parseValue strtod (fuel + 1) (0x7B :: 0x22 :: text) = .ok (.object members, rest) := by
  have hopen : isWs 0x7B = false := by decide
  have hquote : isWs 0x22 = false := by decide
  rw [parseValue, skipWs_cons hopen]
  simp [expect_ne hquote (by decide : (0x22 : UInt8) ≠ 0x7D), h, Except.map]

theorem parseItems_cons {item : Value} {fuel : Nat} {s rest : Str}
    (h : parseValue strtod fuel s = .ok (item, rest)) :
    (∀ {items : List Value} {text rest' : Str}, rest = 0x2C :: text →
      parseItems strtod fuel text = .ok (items, rest') →
      parseItems strtod (fuel + 1) s = .ok (item :: items, rest')) ∧
    (∀ {rest' : Str}, rest = 0x5D :: rest' →
      parseItems strtod (fuel + 1) s = .ok ([item], rest')) := by
  have hcomma : isWs 0x2C = false := by decide
  have hclose : isWs 0x5D = false := by decide
  constructor
  · rintro items text rest' rfl hitems
    simp [parseItems, h, expect_self hcomma, hitems, bind, Except.bind, pure, Except.pure]
  · rintro rest' rfl
    simp [parseItems, h, expect_ne hclose (by decide : (0x5D : UInt8) ≠ 0x2C),
      expect_self hclose, bind, Except.bind, pure, Except.pure]

theorem parseMembers_cons (key : Str) (members : List (Str × Value)) {member : Value}
    {fuel : Nat} {s rest : Str} (h : parseValue strtod fuel s = .ok (member, rest)) :
    (∀ {result : List (Str × Value)} {text rest' : Str}, rest = 0x2C :: text →
      parseMembers strtod fuel (assign key member members) text = .ok (result, rest') →
      parseMembers strtod (fuel + 1) members (serializeStr key ++ 0x3A :: s) =
        .ok (result, rest')) ∧
    (∀ {rest' : Str}, rest = 0x7D :: rest' →
      parseMembers strtod (fuel + 1) members (serializeStr key ++ 0x3A :: s) =
        .ok (assign key member members, rest')) := by
  have hquote : isWs 0x22 = false := by decide
  have hcolon : isWs 0x3A = false := by decide
  have hcomma : isWs 0x2C = false := by decide
  have hclose : isWs 0x7D = false := by decide
  rw [serializeStr_append, parseMembers, expect_self hquote]
  simp only [parseString_serialize, require, bind, Except.bind, expect_self hcolon, h]
  constructor
  · rintro result text rest' rfl hmembers
    simpa only [expect_self hcomma] using hmembers
  · rintro rest' rfl
    simp [expect_ne hclose (by decide : (0x7D : UInt8) ≠ 0x2C), expect_self hclose, pure,
      Except.pure]

/-- With this fuel every value is read that is not too long for it. -/
def ReadsValues (fuel : Nat) : Prop :=
  ∀ (v : Value) (rest : Str), Value.Plain v → 2 * v.serialize.length < fuel → Stops rest →
    parseValue strtod fuel (v.serialize ++ rest) = .ok (v, rest)

def ReadsItems (fuel : Nat) : Prop :=
  ∀ (item : Value) (items : List Value) (rest : Str), ItemsPlain (item :: items) →
    2 * (serializeItems (item :: items)).length + 1 < fuel →
    parseItems strtod fuel (serializeItems (item :: items) ++ 0x5D :: rest) =
      .ok (item :: items, rest)

def ReadsMembers (fuel : Nat) : Prop :=
  ∀ (key : Str) (member : Value) (members before : List (Str × Value)) (rest : Str),
    MembersPlain ((key, member) :: members) →
    ((before ++ (key, member) :: members).map Prod.fst).Pairwise (· < ·) →
    2 * (serializeMembers ((key, member) :: members)).length + 1 < fuel →
    parseMembers strtod fuel before (serializeMembers ((key, member) :: members) ++ 0x7D :: rest) =
      .ok (before ++ (key, member) :: members, rest)

variable {strtod} {fuel : Nat}

theorem readsValues_succ (hitems : ReadsItems strtod fuel) (hmembers : ReadsMembers strtod fuel) :
    ReadsValues strtod (fuel + 1) := by
  intro v rest hplain hfuel hrest
  cases v with
  | null => exact literal_append (str "ull") rest .null
  | boolean b =>
      cases b with
      | false => exact literal_append (str "alse") rest (.boolean false)
      | true => exact literal_append (str "rue") rest (.boolean true)
  | int64 n =>
      rw [Value.serialize]
      exact parseValue_int64 strtod hplain hrest fuel
  | number text => simp [Value.Plain] at hplain
  | string s =>
      rw [Value.serialize]
      exact parseValue_string strtod s rest fuel
  | array items =>
      cases items with
      | nil => rfl
      | cons item items =>
          simp only [Value.serialize, List.length_append, List.length_singleton] at hfuel
          have hhead : ∃ c s, serializeItems (item :: items) ++ 0x5D :: rest = c :: s ∧
              isWs c = false ∧ c ≠ 0x5D := by
            obtain ⟨c, s, hitem, hc⟩ := serialize_cons hplain.1
            cases items with
            | nil => exact ⟨c, s ++ 0x5D :: rest, by simp [serializeItems, hitem], hc⟩
            | cons next items => exact ⟨c, _, by simp [serializeItems, hitem]; rfl, hc⟩
          have hread := hitems item items rest hplain (by omega)
          simpa [Value.serialize] using parseValue_array strtod hhead hread
  | object members =>
      cases members with
      | nil => rfl
      | cons m members =>
          obtain ⟨key, member⟩ := m
          simp only [Value.serialize, List.length_append, List.length_singleton] at hfuel
          have hread := hmembers key member members [] rest hplain.2 hplain.1 (by omega)
          have hhead : ∃ s, serializeMembers ((key, member) :: members) ++ 0x7D :: rest =
              0x22 :: s := by
            cases members with
            | nil => exact ⟨_, by simp [serializeMembers, serializeStr]; rfl⟩
            | cons next members => exact ⟨_, by simp [serializeMembers, serializeStr]; rfl⟩
          obtain ⟨s, hs⟩ := hhead
          rw [hs] at hread
          simpa [Value.serialize, hs] using parseValue_object strtod hread

theorem readsItems_succ (hvalues : ReadsValues strtod fuel) (hitems : ReadsItems strtod fuel) :
    ReadsItems strtod (fuel + 1) := by
  intro item items rest hplain hfuel
  cases items with
  | nil =>
      rw [serializeItems] at hfuel ⊢
      have hitem := hvalues item (0x5D :: rest) hplain.1 (by omega) (stops_cons (by decide) rest)
      exact (parseItems_cons strtod hitem).2 rfl
  | cons next items =>
      rw [serializeItems_cons] at hfuel ⊢
      simp only [List.length_append, List.length_singleton] at hfuel
      have hitem := hvalues item (0x2C :: (serializeItems (next :: items) ++ 0x5D :: rest))
        hplain.1 (by omega) (stops_comma _)
      have hrest := hitems next items rest hplain.2 (by omega)
      simpa using (parseItems_cons strtod hitem).1 rfl hrest

theorem readsMembers_succ (hvalues : ReadsValues strtod fuel)
    (hmembers : ReadsMembers strtod fuel) : ReadsMembers strtod (fuel + 1) := by
  intro key member members before rest hplain hkeys hfuel
  have hassign : assign key member before = before ++ [(key, member)] := by
    apply assign_append
    intro entry hentry
    rw [List.map_append, List.pairwise_append] at hkeys
    exact hkeys.2.2 entry.1 (List.mem_map_of_mem hentry) key (by simp)
  cases members with
  | nil =>
      rw [serializeMembers] at hfuel ⊢
      simp only [List.length_append, List.length_singleton] at hfuel
      have hmember := hvalues member (0x7D :: rest) hplain.1 (by omega)
        (stops_cons (by decide) rest)
      have hread := (parseMembers_cons strtod key before hmember).2 rfl
      rw [hassign] at hread
      simpa using hread
  | cons next members =>
      obtain ⟨key', member'⟩ := next
      rw [serializeMembers_cons] at hfuel ⊢
      simp only [List.length_append, List.length_singleton] at hfuel
      have hmember := hvalues member
        (0x2C :: (serializeMembers ((key', member') :: members) ++ 0x7D :: rest))
        hplain.1 (by omega) (stops_comma _)
      have hrest := hmembers key' member' members (before ++ [(key, member)]) rest hplain.2
        (by simpa using hkeys) (by omega)
      rw [List.append_assoc, ← hassign, List.singleton_append] at hrest
      simpa using (parseMembers_cons strtod key before hmember).1 rfl hrest

theorem reads_serialized (fuel : Nat) :
    ReadsValues strtod fuel ∧ ReadsItems strtod fuel ∧ ReadsMembers strtod fuel := by
  induction fuel with
  | zero =>
      refine ⟨fun _ _ _ hfuel => ?_, fun _ _ _ _ hfuel => ?_, fun _ _ _ _ _ _ _ hfuel => ?_⟩
      · omega
      · omega
      · omega
  | succ fuel ih =>
      obtain ⟨hvalues, hitems, hmembers⟩ := ih
      exact ⟨readsValues_succ hitems hmembers, readsItems_succ hvalues hitems,
        readsMembers_succ hvalues hmembers⟩

variable (strtod)

/-- What is written is read back, and what follows is left. -/
theorem parse_serialize (v : Value) (hplain : Value.Plain v) {rest : Str} (hrest : Stops rest) :
    parse strtod (v.serialize ++ rest) = .ok v := by
  have hfuel : 2 * v.serialize.length < 2 * (v.serialize ++ rest).length + 1 := by
    rw [List.length_append]
    omega
  rw [parse, (reads_serialized _).1 v rest hplain hfuel hrest]
  rfl

end

/-! ### The turns last -/

theorem expect_length (c : UInt8) (s : Str) :
    (expect c s).2.length ≤ s.length ∧ ((expect c s).1 = true → (expect c s).2.length < s.length) := by
  have hskip : (skipWs s).length ≤ s.length := (List.dropWhile_suffix isWs).length_le
  rw [expect]
  rcases hws : skipWs s with _ | ⟨d, rest⟩
  · simp
  · rw [hws, List.length_cons] at hskip
    simp only
    split
    · exact ⟨Nat.le_of_succ_le hskip, fun _ => hskip⟩
    · exact ⟨hskip, by simp⟩

theorem matchText_length {pattern s rest : Str} (h : matchText pattern s = some rest) :
    rest.length ≤ s.length := by
  fun_induction matchText pattern s with
  | case1 s =>
      obtain rfl := Option.some.inj h
      exact le_rfl
  | case2 p pattern s ih => exact (ih h).trans (by simp)
  | case3 | case4 => cases h

theorem parseHex_length {left uniCh value : Nat} {s rest : Str}
    (h : parseHex left uniCh s = some (value, rest)) : rest.length ≤ s.length := by
  fun_induction parseHex left uniCh s with
  | case1 uniCh s =>
      obtain ⟨-, rfl⟩ : uniCh = value ∧ s = rest := by simpa using h
      exact le_rfl
  | case2 => cases h
  | case3 uniCh left c s ih =>
      obtain ⟨hex, -, hrest⟩ := Option.bind_eq_some_iff.mp h
      exact (ih hex hrest).trans (by simp)

theorem parseCodepoint_length {s bytes rest : Str} (h : parseCodepoint s = some (bytes, rest)) :
    rest.length ≤ s.length := by
  rw [parseCodepoint] at h
  obtain ⟨⟨uniCh, s'⟩, hfirst, h⟩ := Option.bind_eq_some_iff.mp h
  have hle := parseHex_length hfirst
  simp only at h
  split at h
  · split at h
    · cases h
    · obtain ⟨s₁, hmatch, h⟩ := Option.bind_eq_some_iff.mp h
      obtain ⟨⟨second, s₂⟩, hsecond, h⟩ := Option.bind_eq_some_iff.mp h
      have hle' := (parseHex_length hsecond).trans (matchText_length hmatch)
      simp only at h
      split at h
      · obtain ⟨-, rfl⟩ : _ ∧ s₂ = rest := by simpa using h
        exact hle'.trans hle
      · cases h
  · obtain ⟨-, rfl⟩ : _ ∧ s' = rest := by simpa using h
    exact hle

theorem readStringChar_length {s rest : Str} {step : StringStep}
    (h : readStringChar s = some (step, rest)) : rest.length < s.length := by
  cases s with
  | nil => cases h
  | cons c s =>
      simp only [readStringChar] at h
      split at h
      · cases h
      split at h
      · obtain ⟨-, rfl⟩ : _ ∧ s = rest := by simpa using h
        simp
      split at h
      · cases s with
        | nil => cases h
        | cons e s =>
            simp only at h
            split at h
            · obtain ⟨⟨bytes, s'⟩, hcode, hr⟩ := Option.map_eq_some_iff.mp h
              obtain ⟨-, rfl⟩ : _ ∧ s' = rest := by simpa using hr
              have := parseCodepoint_length hcode
              simp only [List.length_cons]
              omega
            · obtain ⟨d, -, hr⟩ := Option.map_eq_some_iff.mp h
              obtain ⟨-, rfl⟩ : _ ∧ s = rest := by simpa using hr
              simp only [List.length_cons]
              omega
      · obtain ⟨-, rfl⟩ : _ ∧ s = rest := by simpa using h
        simp

theorem stringLoop_length {fuel : Nat} {s out rest : Str}
    (h : stringLoop fuel s = some (out, rest)) : rest.length < s.length := by
  induction fuel generalizing s out rest with
  | zero => cases h
  | succ fuel ih =>
      obtain ⟨⟨step, s'⟩, hstep, h⟩ := Option.bind_eq_some_iff.mp h
      have hlt := readStringChar_length hstep
      cases step with
      | close =>
          obtain ⟨-, rfl⟩ : _ ∧ s' = rest := by simpa using h
          exact hlt
      | push bytes =>
          obtain ⟨⟨out', s''⟩, hrest, h⟩ := Option.bind_eq_some_iff.mp h
          obtain ⟨-, rfl⟩ : _ ∧ s'' = rest := by simpa using h
          exact (ih hrest).trans hlt

theorem stringLoop_stable {fuel : Nat} {s : Str} (h : s.length ≤ fuel) :
    stringLoop (fuel + 1) s = stringLoop fuel s := by
  induction fuel generalizing s with
  | zero =>
      obtain rfl : s = [] := by simpa using h
      rfl
  | succ fuel ih =>
      rw [stringLoop, stringLoop]
      rcases hstep : readStringChar s with _ | ⟨_ | bytes, s'⟩
      · rfl
      · rfl
      · have hlt := readStringChar_length hstep
        simp only [Option.bind_eq_bind, Option.bind_some, ih (s := s') (by omega)]

/-- The fuel that `parseString` gives is never used up. -/
theorem parseString_eq_of_fuel (s : Str) {fuel : Nat} (h : s.length ≤ fuel) :
    parseString s = stringLoop fuel s := by
  induction fuel, h using Nat.le_induction with
  | base => rfl
  | succ fuel hle ih => rw [ih, stringLoop_stable hle]

section

variable {strtod : Str → Strtod}

theorem parseNumber_length {c : UInt8} {s rest : Str} {v : Value} (hc : isNumberChar c = true)
    (h : parseNumber strtod (c :: s) = .ok (v, rest)) : rest.length < (c :: s).length := by
  have hle : (s.dropWhile isNumberChar).length ≤ s.length :=
    (List.dropWhile_suffix isNumberChar).length_le
  have hrest : rest = s.dropWhile isNumberChar := by
    simp only [parseNumber, List.takeWhile_cons, List.dropWhile_cons, hc, if_true] at h
    split at h
    · exact (Prod.mk.inj (Except.ok.inj h)).2.symm
    · split at h
      · exact (Prod.mk.inj (Except.ok.inj h)).2.symm
      · cases h
      · cases h
  rw [hrest, List.length_cons]
  omega

theorem literal_length {text s rest : Str} {value v : Value}
    (h : literal text value s = .ok (v, rest)) : rest.length ≤ s.length := by
  rw [literal] at h
  cases hmatch : matchText text s with
  | none => simp [hmatch, require, Except.map] at h
  | some rest' =>
      obtain ⟨-, rfl⟩ : value = v ∧ rest' = rest := by
        simpa [hmatch, require, Except.map] using h
      exact matchText_length hmatch

/-- Values, items and members that are read take a character at least. -/
structure Advances (strtod : Str → Strtod) (fuel : Nat) : Prop where
  value : ∀ {s rest : Str} {v : Value}, parseValue strtod fuel s = .ok (v, rest) →
    rest.length < s.length
  items : ∀ {s rest : Str} {items : List Value}, parseItems strtod fuel s = .ok (items, rest) →
    rest.length < s.length
  members : ∀ {s rest : Str} {before members : List (Str × Value)},
    parseMembers strtod fuel before s = .ok (members, rest) → rest.length < s.length

theorem map_pair_eq_ok {α β γ : Type} {x : Except ParseError (α × γ)} {f : α → β} {b : β}
    {rest : γ} (h : (x.map fun r => (f r.1, r.2)) = .ok (b, rest)) :
    ∃ a, x = .ok (a, rest) ∧ f a = b := by
  rcases x with e | ⟨a, rest'⟩
  · cases h
  · obtain ⟨hb, rfl⟩ := Prod.mk.inj (Except.ok.inj h)
    exact ⟨a, rfl, hb⟩

theorem require_eq_ok {α : Type} {o : Option α} {a : α} : require o = .ok a ↔ o = some a := by
  cases o <;> simp [require]

theorem Advances.value_succ {fuel : Nat} (h : Advances strtod fuel) {s rest : Str} {v : Value}
    (hread : parseValue strtod (fuel + 1) s = .ok (v, rest)) : rest.length < s.length := by
  have hskip : (skipWs s).length ≤ s.length := (List.dropWhile_suffix isWs).length_le
  rw [parseValue] at hread
  rcases hws : skipWs s with _ | ⟨c, s'⟩
  · simp [hws] at hread
  · rw [hws, List.length_cons] at hskip
    simp only [hws] at hread
    split_ifs at hread with hnull hfalse htrue hquote harray hobject hnumber
    · exact (literal_length hread).trans_lt hskip
    · exact (literal_length hread).trans_lt hskip
    · exact (literal_length hread).trans_lt hskip
    · obtain ⟨out, hout, -⟩ := map_pair_eq_ok hread
      exact (stringLoop_length (require_eq_ok.mp hout)).trans hskip
    · have hexpect := (expect_length 0x5D s').1
      rcases hbracket : expect 0x5D s' with ⟨_ | _, s''⟩
      · simp only [hbracket] at hread hexpect
        obtain ⟨items, hitems, -⟩ := map_pair_eq_ok hread
        exact (h.items hitems).trans_le (hexpect.trans (Nat.le_of_succ_le hskip))
      · simp only [hbracket] at hread hexpect
        obtain ⟨-, rfl⟩ : _ ∧ s'' = rest := by simpa using hread
        exact hexpect.trans_lt hskip
    · have hexpect := (expect_length 0x7D s').1
      rcases hbracket : expect 0x7D s' with ⟨_ | _, s''⟩
      · simp only [hbracket] at hread hexpect
        obtain ⟨members, hmembers, -⟩ := map_pair_eq_ok hread
        exact (h.members hmembers).trans_le (hexpect.trans (Nat.le_of_succ_le hskip))
      · simp only [hbracket] at hread hexpect
        obtain ⟨-, rfl⟩ : _ ∧ s'' = rest := by simpa using hread
        exact hexpect.trans_lt hskip
    · have hc : isNumberChar c = true := by
        rcases hnumber with hdigit | rfl
        · simp [isNumberChar, hdigit]
        · decide
      exact (parseNumber_length hc hread).trans_le (by simpa using hskip)

theorem Advances.items_succ {fuel : Nat} (h : Advances strtod fuel) {s rest : Str}
    {items : List Value} (hread : parseItems strtod (fuel + 1) s = .ok (items, rest)) :
    rest.length < s.length := by
  rw [parseItems] at hread
  obtain ⟨⟨item, s'⟩, hitem, hread⟩ := bind_eq_ok.mp hread
  have hlt := h.value hitem
  have hcomma := (expect_length 0x2C s').1
  simp only at hread
  rcases hexpect : expect 0x2C s' with ⟨_ | _, s''⟩
  · simp only [hexpect] at hread hcomma
    have hclose := (expect_length 0x5D s'').1
    rcases hbracket : expect 0x5D s'' with ⟨_ | _, s₃⟩
    · simp [hbracket] at hread
    · simp only [hbracket] at hread hclose
      obtain ⟨-, rfl⟩ : _ ∧ s₃ = rest := by simpa [pure, Except.pure] using hread
      exact (hclose.trans hcomma).trans_lt hlt
  · simp only [hexpect] at hread hcomma
    obtain ⟨⟨items', rest'⟩, hitems, hread⟩ := bind_eq_ok.mp hread
    obtain ⟨-, rfl⟩ : _ ∧ rest' = rest := by simpa [pure, Except.pure] using hread
    exact (h.items hitems).trans (hcomma.trans_lt hlt)

theorem Advances.members_succ {fuel : Nat} (h : Advances strtod fuel) {s rest : Str}
    {before members : List (Str × Value)}
    (hread : parseMembers strtod (fuel + 1) before s = .ok (members, rest)) :
    rest.length < s.length := by
  rw [parseMembers] at hread
  have hquote := (expect_length 0x22 s).2
  rcases hexpect : expect 0x22 s with ⟨_ | _, s₁⟩
  · simp [hexpect] at hread
  · simp only [hexpect, true_implies] at hread hquote
    obtain ⟨⟨key, s₂⟩, hkey, hread⟩ := bind_eq_ok.mp hread
    have hkey := stringLoop_length (require_eq_ok.mp hkey)
    have hcolon := (expect_length 0x3A s₂).1
    simp only at hread
    rcases hexpect : expect 0x3A s₂ with ⟨_ | _, s₃⟩
    · simp [hexpect] at hread
    · simp only [hexpect] at hread hcolon
      obtain ⟨⟨member, s₄⟩, hmember, hread⟩ := bind_eq_ok.mp hread
      have hmember := h.value hmember
      have hcomma := (expect_length 0x2C s₄).1
      simp only at hread
      rcases hexpect : expect 0x2C s₄ with ⟨_ | _, s₅⟩
      · simp only [hexpect] at hread hcomma
        have hclose := (expect_length 0x7D s₅).1
        rcases hbracket : expect 0x7D s₅ with ⟨_ | _, s₆⟩
        · simp [hbracket] at hread
        · simp only [hbracket] at hread hclose
          obtain ⟨-, rfl⟩ : _ ∧ s₆ = rest := by simpa [pure, Except.pure] using hread
          omega
      · simp only [hexpect] at hread hcomma
        have hmembers := h.members hread
        omega

theorem advances (strtod : Str → Strtod) (fuel : Nat) : Advances strtod fuel := by
  induction fuel with
  | zero =>
      constructor
      · intro s rest v h
        cases h
      · intro s rest items h
        cases h
      · intro s rest before members h
        cases h
  | succ fuel ih => exact ⟨ih.value_succ, ih.items_succ, ih.members_succ⟩

/-- More fuel than a text can use changes nothing. -/
structure Stable (strtod : Str → Strtod) (fuel : Nat) : Prop where
  value : ∀ {s : Str}, 2 * s.length < fuel →
    parseValue strtod (fuel + 1) s = parseValue strtod fuel s
  items : ∀ {s : Str}, 2 * s.length + 1 < fuel →
    parseItems strtod (fuel + 1) s = parseItems strtod fuel s
  members : ∀ {s : Str} {before : List (Str × Value)}, 2 * s.length + 1 < fuel →
    parseMembers strtod (fuel + 1) before s = parseMembers strtod fuel before s

theorem Stable.value_succ {fuel : Nat} (h : Stable strtod fuel) {s : Str}
    (hfuel : 2 * s.length < fuel + 1) :
    parseValue strtod (fuel + 2) s = parseValue strtod (fuel + 1) s := by
  have hskip : (skipWs s).length ≤ s.length := (List.dropWhile_suffix isWs).length_le
  rw [parseValue, parseValue]
  rcases hws : skipWs s with _ | ⟨c, s'⟩
  · rfl
  · rw [hws, List.length_cons] at hskip
    have harray := (expect_length 0x5D s').1
    have hobject := (expect_length 0x7D s').1
    rcases harrayExpect : expect 0x5D s' with ⟨_ | _, s₁⟩ <;>
      rcases hobjectExpect : expect 0x7D s' with ⟨_ | _, s₂⟩ <;>
      simp only [harrayExpect, hobjectExpect] at harray hobject
    · simp only [harrayExpect, hobjectExpect, h.items (s := s₁) (by omega),
        h.members (s := s₂) (by omega)]
    · simp only [harrayExpect, hobjectExpect, h.items (s := s₁) (by omega)]
    · simp only [harrayExpect, hobjectExpect, h.members (s := s₂) (by omega)]
    · simp only [harrayExpect, hobjectExpect]

theorem Stable.items_succ {fuel : Nat} (h : Stable strtod fuel) {s : Str}
    (hfuel : 2 * s.length + 1 < fuel + 1) :
    parseItems strtod (fuel + 2) s = parseItems strtod (fuel + 1) s := by
  rw [parseItems, parseItems, h.value (by omega)]
  rcases hitem : parseValue strtod fuel s with e | ⟨item, s'⟩
  · rfl
  · have hlt := (advances strtod fuel).value hitem
    have hcomma := (expect_length 0x2C s').1
    simp only [bind, Except.bind]
    rcases hexpect : expect 0x2C s' with ⟨_ | _, s''⟩
    · rfl
    · simp only [hexpect] at hcomma
      simp only [h.items (s := s'') (by omega)]

theorem Stable.members_succ {fuel : Nat} (h : Stable strtod fuel) {s : Str}
    {before : List (Str × Value)} (hfuel : 2 * s.length + 1 < fuel + 1) :
    parseMembers strtod (fuel + 2) before s = parseMembers strtod (fuel + 1) before s := by
  rw [parseMembers, parseMembers]
  have hquote := (expect_length 0x22 s).2
  rcases hexpect : expect 0x22 s with ⟨_ | _, s₁⟩
  · rfl
  · simp only [hexpect, true_implies] at hquote
    rcases hstring : require (parseString s₁) with e | ⟨key, s₂⟩
    · simp [hstring, bind, Except.bind]
    · have hkey := stringLoop_length (require_eq_ok.mp hstring)
      have hcolon := (expect_length 0x3A s₂).1
      simp only [hstring, bind, Except.bind]
      rcases hexpect : expect 0x3A s₂ with ⟨_ | _, s₃⟩
      · rfl
      · simp only [hexpect] at hcolon
        simp only [h.value (s := s₃) (by omega)]
        rcases hmember : parseValue strtod fuel s₃ with e | ⟨member, s₄⟩
        · rfl
        · have hlt := (advances strtod fuel).value hmember
          have hcomma := (expect_length 0x2C s₄).1
          simp only
          rcases hexpect : expect 0x2C s₄ with ⟨_ | _, s₅⟩
          · rfl
          · simp only [hexpect] at hcomma
            exact h.members (by omega)

theorem stable (strtod : Str → Strtod) (fuel : Nat) : Stable strtod fuel := by
  induction fuel with
  | zero =>
      constructor
      · intro s h
        omega
      · intro s h
        omega
      · intro s before h
        omega
  | succ fuel ih => exact ⟨ih.value_succ, ih.items_succ, ih.members_succ⟩

/-- The fuel that `parse` gives is never used up. -/
theorem parse_eq_of_fuel (s : Str) {fuel : Nat} (h : 2 * s.length < fuel) :
    parse strtod s = (parseValue strtod fuel s).map Prod.fst := by
  induction fuel, h using Nat.le_induction with
  | base => rfl
  | succ fuel hle ih => rw [ih, (stable strtod fuel).value hle]

end

end MvcBackend.PicoJsonRoundTrip
