import MvcBackend.JsonText

/-!
What nlohmann::json accepts is well formed: its strings are UTF-8, its integers
fit, and the members of its objects are in the order of their keys. So it can be
dumped.
-/

namespace MvcBackend.JsonTextReading

open MvcBackend.JsonValues
open MvcBackend.ApiParse (isDigit digitsValue)
open MvcBackend.PicoJson (IsInt64 StringStep codepointBytes escapes hexDigit parseHex skipWs)
open MvcBackend.JsonText
open MvcBackend.Library.SortedMap
open MvcBackend.Library.Transaction

/-! ### UTF-8 -/

theorem isUtf8From_append {expected : List (UInt8 × UInt8)} {s : Str}
    (h : isUtf8From expected s = true) (rest : Str) :
    isUtf8From expected (s ++ rest) = isUtf8From [] rest := by
  fun_induction isUtf8From expected s with
  | case1 expected =>
      obtain rfl := List.isEmpty_iff.mp h
      rfl
  | case2 lo hi expected b s ih =>
      simp only [Bool.and_eq_true, decide_eq_true_eq] at h
      rw [List.cons_append, isUtf8From, ih h.2]
      simp [h.1]
  | case3 b s expected htail ih =>
      rw [List.cons_append, isUtf8From, htail]
      exact ih h
  | case4 b s htail => cases h

theorem isUtf8_append {s rest : Str} (h : isUtf8 s = true) (hrest : isUtf8 rest = true) :
    isUtf8 (s ++ rest) = true := by
  rw [isUtf8, isUtf8From_append h]
  exact hrest

theorem isUtf8From_nextBytes {ranges : List (UInt8 × UInt8)} {s bytes rest : Str}
    (h : nextBytesInRange ranges s = some (bytes, rest)) : isUtf8From ranges bytes = true := by
  fun_induction nextBytesInRange ranges s generalizing bytes with
  | case1 s =>
      obtain ⟨rfl, -⟩ : [] = bytes ∧ s = rest := by simpa using h
      rfl
  | case2 lo hi ranges c s hrange ih =>
      obtain ⟨⟨bytes', rest'⟩, hrest, heq⟩ := Option.map_eq_some_iff.mp h
      obtain ⟨rfl, rfl⟩ := Prod.mk.inj heq
      simp [isUtf8From, hrange, ih hrest]
  | case3 => cases h
  | case4 => cases h

/-- The numbers that are code points of characters. -/
def IsScalar (n : Nat) : Prop := n < 0xD800 ∨ (0xE000 ≤ n ∧ n < 0x110000)

theorem utf8Tail_ofNat {n : Nat} (h : n < 0x100) :
    utf8Tail (UInt8.ofNat n) =
      if n ≤ 0x7F then some []
      else if 0xC2 ≤ n ∧ n ≤ 0xDF then some [(0x80, 0xBF)]
      else if n = 0xE0 then some [(0xA0, 0xBF), (0x80, 0xBF)]
      else if n = 0xED then some [(0x80, 0x9F), (0x80, 0xBF)]
      else if 0xE1 ≤ n ∧ n ≤ 0xEF then some [(0x80, 0xBF), (0x80, 0xBF)]
      else if n = 0xF0 then some [(0x90, 0xBF), (0x80, 0xBF), (0x80, 0xBF)]
      else if 0xF1 ≤ n ∧ n ≤ 0xF3 then some [(0x80, 0xBF), (0x80, 0xBF), (0x80, 0xBF)]
      else if n = 0xF4 then some [(0x80, 0x8F), (0x80, 0xBF), (0x80, 0xBF)]
      else none := by
  have hnat : (UInt8.ofNat n).toNat = n := UInt8.toNat_ofNat_of_lt h
  simp only [utf8Tail, UInt8.le_iff_toNat_le, ← UInt8.toNat_inj, hnat, UInt8.reduceToNat]

theorem isUtf8From_ofNat {lo hi : UInt8} {n : Nat} (hlo : lo.toNat ≤ n) (hhi : n ≤ hi.toNat)
    (expected : List (UInt8 × UInt8)) (rest : Str) :
    isUtf8From ((lo, hi) :: expected) (UInt8.ofNat n :: rest) = isUtf8From expected rest := by
  have hlt := hi.toNat_lt
  have hnat : (UInt8.ofNat n).toNat = n := UInt8.toNat_ofNat_of_lt (show n < 256 by omega)
  simp [isUtf8From, UInt8.le_iff_toNat_le, hnat, hlo, hhi]

theorem isUtf8From_lead {b : UInt8} {expected : List (UInt8 × UInt8)}
    (h : utf8Tail b = some expected) (rest : Str) :
    isUtf8From [] (b :: rest) = isUtf8From expected rest := by
  rw [isUtf8From, h]

theorem isUtf8_codepointBytes {n : Nat} (h : IsScalar n) : isUtf8 (codepointBytes n) = true := by
  rw [IsScalar] at h
  rw [codepointBytes, isUtf8]
  split_ifs with hone htwo hthree
  · have hlead : utf8Tail (UInt8.ofNat n) = some [] := by
      rw [utf8Tail_ofNat (by omega), if_pos (by omega)]
    rw [isUtf8From_lead hlead]
    rfl
  · have hlead : utf8Tail (UInt8.ofNat (0xC0 + n / 64)) = some [(0x80, 0xBF)] := by
      rw [utf8Tail_ofNat (by omega), if_neg (by omega), if_pos (by omega)]
    rw [isUtf8From_lead hlead, isUtf8From_ofNat]
    · rfl
    · show 0x80 ≤ _
      omega
    · show _ ≤ 0xBF
      omega
  · -- the second byte of a long or of a surrogate form would be out of its range
    obtain ⟨lo, hi, hlead, hlo, hhi⟩ : ∃ lo hi : UInt8,
        utf8Tail (UInt8.ofNat (0xE0 + n / 4096)) = some [(lo, hi), (0x80, 0xBF)] ∧
          lo.toNat ≤ 0x80 + n / 64 % 64 ∧ 0x80 + n / 64 % 64 ≤ hi.toNat := by
      rw [utf8Tail_ofNat (by omega), if_neg (by omega), if_neg (by omega)]
      by_cases hlong : n < 0x1000
      · refine ⟨0xA0, 0xBF, by rw [if_pos (by omega)], ?_, ?_⟩
        · show 0xA0 ≤ _
          omega
        · show _ ≤ 0xBF
          omega
      · rw [if_neg (by omega)]
        by_cases hsurrogate : 0xD000 ≤ n ∧ n < 0xE000
        · refine ⟨0x80, 0x9F, by rw [if_pos (by omega)], ?_, ?_⟩
          · show 0x80 ≤ _
            omega
          · show _ ≤ 0x9F
            omega
        · refine ⟨0x80, 0xBF, by rw [if_neg (by omega), if_pos (by omega)], ?_, ?_⟩
          · show 0x80 ≤ _
            omega
          · show _ ≤ 0xBF
            omega
    rw [isUtf8From_lead hlead, isUtf8From_ofNat hlo hhi, isUtf8From_ofNat]
    · rfl
    · show 0x80 ≤ _
      omega
    · show _ ≤ 0xBF
      omega
  · obtain ⟨lo, hi, hlead, hlo, hhi⟩ : ∃ lo hi : UInt8,
        utf8Tail (UInt8.ofNat (0xF0 + n / 262144)) = some [(lo, hi), (0x80, 0xBF), (0x80, 0xBF)] ∧
          lo.toNat ≤ 0x80 + n / 4096 % 64 ∧ 0x80 + n / 4096 % 64 ≤ hi.toNat := by
      rw [utf8Tail_ofNat (by omega), if_neg (by omega), if_neg (by omega), if_neg (by omega),
        if_neg (by omega), if_neg (by omega)]
      by_cases hlong : n < 0x40000
      · refine ⟨0x90, 0xBF, by rw [if_pos (by omega)], ?_, ?_⟩
        · show 0x90 ≤ _
          omega
        · show _ ≤ 0xBF
          omega
      · rw [if_neg (by omega)]
        by_cases hlast : 0x100000 ≤ n
        · refine ⟨0x80, 0x8F, by rw [if_neg (by omega), if_pos (by omega)], ?_, ?_⟩
          · show 0x80 ≤ _
            omega
          · show _ ≤ 0x8F
            omega
        · refine ⟨0x80, 0xBF, by rw [if_pos (by omega)], ?_, ?_⟩
          · show 0x80 ≤ _
            omega
          · show _ ≤ 0xBF
            omega
    rw [isUtf8From_lead hlead, isUtf8From_ofNat hlo hhi, isUtf8From_ofNat, isUtf8From_ofNat]
    · rfl
    · show 0x80 ≤ _
      omega
    · show _ ≤ 0xBF
      omega
    · show 0x80 ≤ _
      omega
    · show _ ≤ 0xBF
      omega

theorem parseHex_lt {left uniCh value : Nat} {s rest : Str}
    (h : parseHex left uniCh s = some (value, rest)) : value < (uniCh + 1) * 16 ^ left := by
  fun_induction parseHex left uniCh s with
  | case1 uniCh s =>
      obtain ⟨rfl, -⟩ : uniCh = value ∧ s = rest := by simpa using h
      omega
  | case2 => cases h
  | case3 left uniCh c s ih =>
      obtain ⟨hex, hhex, hrest⟩ := Option.bind_eq_some_iff.mp h
      have hlt : hex < 16 := by
        rw [hexDigit] at hhex
        simp only [UInt8.le_iff_toNat_le, UInt8.reduceToNat] at hhex
        split_ifs at hhex with h₁ h₂ h₃
        · obtain rfl := Option.some.inj hhex
          omega
        · obtain rfl := Option.some.inj hhex
          omega
        · obtain rfl := Option.some.inj hhex
          omega
      calc value < (uniCh * 16 + hex + 1) * 16 ^ left := ih hex hrest
        _ ≤ ((uniCh + 1) * 16) * 16 ^ left := Nat.mul_le_mul_right _ (by omega)
        _ = (uniCh + 1) * 16 ^ (left + 1) := by rw [Nat.pow_succ', Nat.mul_assoc]

theorem getCodepoint_lt {value : Nat} {s rest : Str} (h : getCodepoint s = some (value, rest)) :
    value < 0x10000 := by
  have hlt : value < (0 + 1) * 16 ^ 4 := parseHex_lt h
  omega

theorem isUtf8_scanUnicode {s bytes rest : Str} (h : scanUnicode s = some (bytes, rest)) :
    isUtf8 bytes = true := by
  rw [scanUnicode] at h
  obtain ⟨⟨codepoint1, s₁⟩, hfirst, h⟩ := Option.bind_eq_some_iff.mp h
  have hlt := getCodepoint_lt hfirst
  simp only at h
  split_ifs at h with hhigh hlow
  · obtain ⟨s₂, -, h⟩ := Option.bind_eq_some_iff.mp h
    obtain ⟨⟨codepoint2, s₃⟩, -, h⟩ := Option.bind_eq_some_iff.mp h
    simp only at h
    split_ifs at h with hsecond
    · obtain ⟨rfl, -⟩ := Prod.mk.inj (Option.some.inj h)
      apply isUtf8_codepointBytes
      rw [IsScalar]
      omega
  · obtain ⟨rfl, -⟩ := Prod.mk.inj (Option.some.inj h)
    apply isUtf8_codepointBytes
    rw [IsScalar]
    omega

theorem isUtf8_escapes {e c : UInt8} (h : escapes.lookup e = some c) : isUtf8 [c] = true := by
  have hall : ∀ escape ∈ escapes, isUtf8 [escape.2] = true := by
    simp [escapes, isUtf8, isUtf8From, utf8Tail]
  obtain ⟨before, behind, hescapes, -⟩ := List.lookup_eq_some_iff.mp h
  exact hall (e, c) (by simp [hescapes])

theorem isUtf8_scanChar {s bytes rest : Str} (h : scanChar s = some (.push bytes, rest)) :
    isUtf8 bytes = true := by
  cases s with
  | nil => cases h
  | cons c s =>
      simp only [scanChar] at h
      split_ifs at h with hquote hescape hcontrol
      · simp at h
      · cases s with
        | nil => cases h
        | cons e s =>
            simp only at h
            split_ifs at h with hunicode
            · obtain ⟨⟨bytes', rest'⟩, hread, heq⟩ := Option.map_eq_some_iff.mp h
              obtain ⟨hpush, -⟩ := Prod.mk.inj heq
              obtain rfl := StringStep.push.inj hpush
              exact isUtf8_scanUnicode hread
            · obtain ⟨c', hlookup, heq⟩ := Option.map_eq_some_iff.mp h
              obtain ⟨hpush, -⟩ := Prod.mk.inj heq
              obtain rfl := StringStep.push.inj hpush
              exact isUtf8_escapes hlookup
      · obtain ⟨ranges, hranges, hbytes⟩ := Option.bind_eq_some_iff.mp h
        obtain ⟨⟨bytes', rest'⟩, hread, heq⟩ := Option.map_eq_some_iff.mp hbytes
        obtain ⟨hpush, -⟩ := Prod.mk.inj heq
        obtain rfl := StringStep.push.inj hpush
        rw [isUtf8, isUtf8From_lead hranges]
        exact isUtf8From_nextBytes hread

theorem isUtf8_scanString {s out rest : Str} (h : scanString s = some (out, rest)) :
    isUtf8 out = true := by
  suffices hall : ∀ found, stringScan.run ([], s) = some found → isUtf8 found.1 = true from
    hall _ h
  apply stringScan.run_invariant (fun state => isUtf8 state.1 = true)
    (fun result => ∀ found, result = some found → isUtf8 found.1 = true)
  · rintro ⟨buffer, s⟩ ⟨buffer', s'⟩ hbuffer hturn
    simp only [stringScan, stringTurn] at hturn
    split at hturn
    · cases hturn
    · cases hturn
    · next bytes rest hchar =>
        obtain ⟨rfl, -⟩ := Prod.mk.inj (Sum.inl.inj hturn)
        exact isUtf8_append hbuffer (isUtf8_scanChar hchar)
  · rintro ⟨buffer, s⟩ result hbuffer hturn found rfl
    simp only [stringScan, stringTurn] at hturn
    split at hturn
    · cases hturn
    · obtain rfl := Option.some.inj (Sum.inr.inj hturn)
      exact hbuffer
    · cases hturn
  · rfl

/-! ### Values -/

section

variable (doubles : Doubles)

mutual

/-- Strings are UTF-8, integers fit, doubles come from a text, and members are in
the order of their keys. -/
def Formed : Json → Prop
  | .string s => isUtf8 s = true
  | .numberUnsigned n => n < 2 ^ 64
  | .numberInteger n => IsInt64 n
  | .numberFloat x => ∃ text, doubles.strtod text = some x
  | .array items => ItemsFormed items
  | .object members => Sorted members ∧ MembersFormed members
  | _ => True

def ItemsFormed : List Json → Prop
  | [] => True
  | item :: items => Formed item ∧ ItemsFormed items

def MembersFormed : List (Str × Json) → Prop
  | [] => True
  | (key, member) :: members => (isUtf8 key = true ∧ Formed member) ∧ MembersFormed members

end

variable {doubles}

theorem itemsFormed_iff {items : List Json} :
    ItemsFormed doubles items ↔ ∀ item ∈ items, Formed doubles item := by
  induction items with
  | nil => simp [ItemsFormed]
  | cons item items ih => simp [ItemsFormed, ih]

theorem membersFormed_iff {members : List (Str × Json)} :
    MembersFormed doubles members ↔ ∀ m ∈ members, isUtf8 m.1 = true ∧ Formed doubles m.2 := by
  induction members with
  | nil => simp [MembersFormed]
  | cons m members ih => simp [MembersFormed, ih]

mutual

theorem Formed.dumpable : ∀ {j : Json}, Formed doubles j → j.dumpable = true
  | .string _, h => h
  | .array _, h => ItemsFormed.dumpable h
  | .object _, h => MembersFormed.dumpable h.2
  | .null, _ | .boolean _, _ | .numberInteger _, _ | .numberUnsigned _, _ | .numberFloat _, _ => rfl

theorem ItemsFormed.dumpable :
    ∀ {items : List Json}, ItemsFormed doubles items → itemsDumpable items = true
  | [], _ => rfl
  | item :: items, h => by
      rw [itemsDumpable, Formed.dumpable h.1, ItemsFormed.dumpable h.2]
      rfl

theorem MembersFormed.dumpable :
    ∀ {members : List (Str × Json)}, MembersFormed doubles members → membersDumpable members = true
  | [], _ => rfl
  | (key, member) :: members, h => by
      rw [membersDumpable, h.1.1, Formed.dumpable h.1.2, MembersFormed.dumpable h.2]
      rfl

end

/-! ### The parser -/

variable (doubles)

def TokenFormed (token : Token) : Prop := ∀ j, scalar token = .ok j → Formed doubles j

def FrameFormed : Frame → Prop
  | .array items => ItemsFormed doubles items
  | .object members key => (Sorted members ∧ MembersFormed doubles members) ∧ isUtf8 key = true

def FocusFormed : Focus → Prop
  | .token token => TokenFormed doubles token
  | .value j => Formed doubles j

def StateFormed (state : ParserState) : Prop :=
  (∀ frame ∈ state.states, FrameFormed doubles frame) ∧ FocusFormed doubles state.focus

variable {doubles}

theorem tokenFormed_of_scalar {token : Token} {e : ParseError} (h : scalar token = .error e) :
    TokenFormed doubles token := by
  intro j hj
  rw [h] at hj
  cases hj

theorem tokenFormed_numberToken (text : Str) (numberType : NumberType) :
    TokenFormed doubles (numberToken doubles text numberType) := by
  have hfloat : TokenFormed doubles (.valueFloat (doubles.strtod text)) := by
    intro j hj
    rcases hread : doubles.strtod text with _ | x
    · rw [hread] at hj
      cases hj
    · rw [hread] at hj
      obtain rfl := Except.ok.inj hj
      exact ⟨text, hread⟩
  cases numberType with
  | unsigned =>
      simp only [numberToken]
      split_ifs with hlt
      · intro j hj
        obtain rfl := Except.ok.inj hj
        exact hlt
      · exact hfloat
  | integer =>
      simp only [numberToken]
      split_ifs with hle
      · intro j hj
        obtain rfl := Except.ok.inj hj
        exact ⟨hle, by omega⟩
      · exact hfloat
  | float => exact hfloat

theorem tokenFormed_scanLiteral {text s rest : Str} {token token' : Token}
    (htoken : TokenFormed doubles token) (h : scanLiteral text token s = (token', rest)) :
    TokenFormed doubles token' := by
  rw [scanLiteral] at h
  split at h
  · exact (Prod.mk.inj h).1 ▸ htoken
  · exact (Prod.mk.inj h).1 ▸ tokenFormed_of_scalar rfl

theorem tokenFormed_scan {s rest : Str} {token : Token} (h : scan doubles s = (token, rest)) :
    TokenFormed doubles token := by
  rw [scan] at h
  rcases hws : skipWs s with _ | ⟨c, s'⟩
  · simp only [hws] at h
    exact (Prod.mk.inj h).1 ▸ tokenFormed_of_scalar rfl
  · simp only [hws] at h
    split at h
    · next found hfound =>
        obtain ⟨rfl, -⟩ := Prod.mk.inj h
        have hall : ∀ entry ∈ structural, ∃ e, scalar entry.2 = .error e := by
          simp [structural, scalar]
        obtain ⟨before, behind, hsplit, -⟩ := List.lookup_eq_some_iff.mp hfound
        obtain ⟨e, he⟩ := hall (c, found) (by simp [hsplit])
        exact tokenFormed_of_scalar he
    · next text found hnone hfound =>
        have hall : ∀ entry ∈ literals, TokenFormed doubles entry.2.2 := by
          simp [literals, TokenFormed, scalar, Formed]
        obtain ⟨before, behind, hsplit, -⟩ := List.lookup_eq_some_iff.mp hfound
        exact tokenFormed_scanLiteral (hall (c, text, found) (by simp [hsplit])) h
    · split_ifs at h with hquote hnumber hend
      · split at h
        · next out rest' hstring =>
            obtain ⟨rfl, -⟩ := Prod.mk.inj h
            intro j hj
            obtain rfl := Except.ok.inj hj
            exact isUtf8_scanString hstring
        · exact (Prod.mk.inj h).1 ▸ tokenFormed_of_scalar rfl
      · split at h
        · exact (Prod.mk.inj h).1 ▸ tokenFormed_numberToken _ _
        · exact (Prod.mk.inj h).1 ▸ tokenFormed_of_scalar rfl
      · exact (Prod.mk.inj h).1 ▸ tokenFormed_of_scalar rfl
      · exact (Prod.mk.inj h).1 ▸ tokenFormed_of_scalar rfl

theorem stateFormed_parseKey {states : List Frame} {members : List (Str × Json)} {s : Str}
    {state : ParserState} (hstates : ∀ frame ∈ states, FrameFormed doubles frame)
    (hmembers : Sorted members ∧ MembersFormed doubles members)
    (h : parseKey doubles states members (scan doubles s) = .inl state) :
    StateFormed doubles state := by
  rcases hscan : scan doubles s with ⟨token, s'⟩
  rw [hscan] at h
  cases token with
  | valueString key =>
      have hkey : isUtf8 key = true := tokenFormed_scan hscan _ rfl
      simp only [parseKey] at h
      split at h
      · obtain rfl := Sum.inl.inj h
        refine ⟨List.forall_mem_cons.mpr ⟨⟨hmembers, hkey⟩, hstates⟩, ?_⟩
        exact tokenFormed_scan (Prod.eta _).symm
      · cases h
  | _ => cases h

theorem stateFormed_parseToken {states : List Frame} {token : Token} {s : Str}
    {state : ParserState} (hstates : ∀ frame ∈ states, FrameFormed doubles frame)
    (htoken : TokenFormed doubles token) (h : parseToken doubles states token s = .inl state) :
    StateFormed doubles state := by
  have hscalar : ∀ {j : Json}, scalar token = .ok j → (.inl ⟨states, .value j, s⟩ : _ ⊕ Parsed) =
      .inl state → StateFormed doubles state := by
    intro j hj hstate
    obtain rfl := Sum.inl.inj hstate
    exact ⟨hstates, htoken j hj⟩
  cases token with
  | beginObject =>
      simp only [parseToken] at h
      split at h
      · obtain rfl := Sum.inl.inj h
        exact ⟨hstates, sorted_nil, trivial⟩
      · exact stateFormed_parseKey hstates ⟨sorted_nil, trivial⟩ h
  | beginArray =>
      simp only [parseToken] at h
      split at h
      · obtain rfl := Sum.inl.inj h
        exact ⟨hstates, trivial⟩
      · next hscan =>
          obtain rfl := Sum.inl.inj h
          exact ⟨List.forall_mem_cons.mpr ⟨trivial, hstates⟩, tokenFormed_scan hscan⟩
  | literalTrue | literalFalse | literalNull | valueString _ | valueUnsigned _ | valueInteger _ =>
      exact hscalar rfl h
  | valueFloat x =>
      cases x with
      | none => cases h
      | some x => exact hscalar rfl h
  | endArray | endObject | nameSeparator | valueSeparator | parseError | endOfInput => cases h

theorem stateFormed_evaluateState {states : List Frame} {j : Json} {s : Str}
    {state : ParserState} (hstates : ∀ frame ∈ states, FrameFormed doubles frame)
    (hj : Formed doubles j) (h : evaluateState doubles j s states = .inl state) :
    StateFormed doubles state := by
  rcases states with _ | ⟨items | ⟨members, key⟩, states⟩
  · cases h
  · obtain ⟨hitems, hstates⟩ := List.forall_mem_cons.mp hstates
    have happend : ItemsFormed doubles (items ++ [j]) := by
      rw [itemsFormed_iff, List.forall_mem_append]
      exact ⟨itemsFormed_iff.mp hitems, by simpa using hj⟩
    simp only [evaluateState] at h
    split at h
    · obtain rfl := Sum.inl.inj h
      refine ⟨List.forall_mem_cons.mpr ⟨happend, hstates⟩, ?_⟩
      exact tokenFormed_scan (Prod.eta _).symm
    · obtain rfl := Sum.inl.inj h
      exact ⟨hstates, happend⟩
    · cases h
  · obtain ⟨⟨⟨hsorted, hmembers⟩, hkey⟩, hstates⟩ := List.forall_mem_cons.mp hstates
    have hassign :
        Sorted (assign key j members) ∧ MembersFormed doubles (assign key j members) := by
      refine ⟨sorted_assign hsorted, membersFormed_iff.mpr ?_⟩
      exact forall_assign (P := fun key j => isUtf8 key = true ∧ Formed doubles j) ⟨hkey, hj⟩
        (membersFormed_iff.mp hmembers)
    simp only [evaluateState] at h
    split at h
    · exact stateFormed_parseKey hstates hassign h
    · obtain rfl := Sum.inl.inj h
      exact ⟨hstates, hassign⟩
    · cases h

theorem parseKey_ne_ok {states : List Frame} {members : List (Str × Json)} {next : Token × Str}
    {j : Json} {rest : Str} : parseKey doubles states members next ≠ .inr (.ok (j, rest)) := by
  intro h
  obtain ⟨token, s⟩ := next
  cases token with
  | valueString key =>
      simp only [parseKey] at h
      split at h <;> cases h
  | _ => cases h

/-- The loop ends with a value only where nothing is open. -/
theorem parserTurn_ok {state : ParserState} {j : Json} {rest : Str}
    (h : parserTurn doubles state = .inr (.ok (j, rest))) : state = ⟨[], .value j, rest⟩ := by
  obtain ⟨states, focus, s⟩ := state
  cases focus with
  | token token =>
      exfalso
      simp only [parserTurn] at h
      cases token with
      | beginObject =>
          simp only [parseToken] at h
          split at h
          · cases h
          · exact parseKey_ne_ok h
      | beginArray =>
          simp only [parseToken] at h
          split at h <;> cases h
      | valueFloat x => cases x <;> cases h
      | _ => cases h
  | value j' =>
      rcases states with _ | ⟨items | ⟨members, key⟩, states⟩
      · cases h
        rfl
      · simp only [parserTurn, evaluateState] at h
        split at h <;> cases h
      · simp only [parserTurn, evaluateState] at h
        split at h
        · exact absurd h parseKey_ne_ok
        · cases h
        · cases h

/-- Whatever the parser returns is well formed. -/
theorem formed_of_parse {strict : Bool} {s : Str} {j : Json}
    (h : parse doubles strict s = .ok j) : Formed doubles j := by
  rw [parse] at h
  rcases hbom : skipBom s with _ | s'
  · simp [hbom] at h
  · simp only [hbom] at h
    rcases hscan : scan doubles s' with ⟨token, s''⟩
    rw [hscan] at h
    obtain ⟨⟨j', rest⟩, hrun, hstrict⟩ := bind_eq_ok.mp h
    obtain rfl : j' = j := by
      simp only at hstrict
      split at hstrict
      · exact Except.ok.inj hstrict
      · exact Except.ok.inj hstrict
      · cases hstrict
    suffices hall : ∀ found rest,
        (parserLoop doubles).run ⟨[], .token token, s''⟩ = .ok (found, rest) →
          Formed doubles found from hall j' rest hrun
    apply (parserLoop doubles).run_invariant (StateFormed doubles)
      (fun result => ∀ found rest, result = .ok (found, rest) → Formed doubles found)
    · rintro ⟨states, focus, input⟩ state ⟨hstates, hfocus⟩ hturn
      cases focus with
      | token token => exact stateFormed_parseToken hstates hfocus hturn
      | value j => exact stateFormed_evaluateState hstates hfocus hturn
    · rintro ⟨states, focus, input⟩ result ⟨hstates, hfocus⟩ hturn found rest rfl
      obtain ⟨rfl, rfl, rfl⟩ := ParserState.mk.inj (parserTurn_ok hturn)
      exact hfocus
    · exact ⟨by simp, tokenFormed_scan hscan⟩

end

end MvcBackend.JsonTextReading
