import MvcBackend.JsonValues
import MvcBackend.Library.SextetCoding
import MvcBackend.Library.Transaction

/-!
`jwt::base`: the base64url coding of the parts of a token, whose padding is the
text `%3d`. Tokens carry no padding, so it is cut off and put back.
-/

namespace MvcBackend.Base64

open MvcBackend.JsonValues
open MvcBackend.Library.SextetCoding
open MvcBackend.Library.Transaction

def base64url : Alphabet UInt8 where
  letters := str "ABCDEFGHIJKLMNOPQRSTUVWXYZabcdefghijklmnopqrstuvwxyz0123456789-_"
  length_letters := by decide
  nodup_letters := by decide

def fill : Str := str "%3d"

/-- What the exceptions of `decode` say. -/
def invalidInput : Str := str "Invalid input"

def encode : Str → Str
  | a :: b :: c :: rest =>
      let n := triple a b c
      base64url.letter (n / 2 ^ 18) :: base64url.letter (n / 2 ^ 12) ::
        base64url.letter (n / 2 ^ 6) :: base64url.letter n :: encode rest
  | [a, b] =>
      let n := triple a b 0
      [base64url.letter (n / 2 ^ 18), base64url.letter (n / 2 ^ 12),
        base64url.letter (n / 2 ^ 6)] ++ fill
  | [a] =>
      let n := triple a 0 0
      [base64url.letter (n / 2 ^ 18), base64url.letter (n / 2 ^ 12)] ++ fill ++ fill
  | [] => []

/-- The loop that takes fills off the end and counts them: it throws at the
third, and never takes off all that there is. -/
def stripFill (left : Nat) (base : Str) : Except Str (Str × Nat) :=
  if fill.length < base.length ∧ fill <:+ base then
    match left with
    | 0 => .error invalidInput
    | left + 1 => do
        let (core, fillCnt) ← stripFill left (base.take (base.length - fill.length))
        return (core, fillCnt + 1)
  else .ok (base, 0)

def getSextet (c : UInt8) : Except Str Nat :=
  match base64url.sextet c with
  | some n => .ok n
  | none => .error invalidInput

/-- Groups of four, and a last one of three or two where one or two were fills. -/
def decodeGroups (fillCnt : Nat) : Str → Except Str Str
  | a :: b :: c :: d :: rest => do
      let n := joined (← getSextet a) (← getSextet b) (← getSextet c) (← getSextet d)
      return byteHigh n :: byteMid n :: byteLow n :: (← decodeGroups fillCnt rest)
  | [a, b, c] =>
      if fillCnt = 1 then do
        let n := joined (← getSextet a) (← getSextet b) (← getSextet c) 0
        return [byteHigh n, byteMid n]
      else .ok []
  | [a, b] =>
      if fillCnt = 2 then do
        let n := joined (← getSextet a) (← getSextet b) 0 0
        return [byteHigh n]
      else .ok []
  | _ => .ok []

def decode (base : Str) : Except Str Str := do
  let (core, fillCnt) ← stripFill 2 base
  if (core.length + fillCnt) % 4 ≠ 0 then throw invalidInput
  decodeGroups fillCnt core

/-- The switch whose cases fall through. -/
def fixPadding (s : Str) : Str :=
  match s.length % 4 with
  | 1 => s ++ fill ++ fill ++ fill
  | 2 => s ++ fill ++ fill
  | 3 => s ++ fill
  | _ => s

/-- `base.substr(0, base.find(fill))`. -/
def beforeFill : Str → Str
  | [] => []
  | c :: rest => if fill <+: c :: rest then [] else c :: beforeFill rest

/-- A part of a token, as the builder of tokens writes it. -/
def encodePart (data : Str) : Str := beforeFill (encode data)

/-- A part of a token, as the constructor of `decoded_jwt` reads it. -/
def decodePart (part : Str) : Except Str Str := decode (fixPadding part)

/-! ### Padding -/

def fills : Nat → Str
  | 0 => []
  | n + 1 => fills n ++ fill

theorem length_fills (n : Nat) : (fills n).length = 3 * n := by
  induction n with
  | zero => rfl
  | succ n ih =>
      rw [fills, List.length_append, ih]
      show 3 * n + 3 = 3 * (n + 1)
      omega

theorem fills_add (m n : Nat) : fills (m + n) = fills m ++ fills n := by
  induction n with
  | zero => simp [fills]
  | succ n ih => rw [← Nat.add_assoc, fills, ih, fills, List.append_assoc]

theorem fixPadding_eq (s : Str) : fixPadding s = s ++ fills ((4 - s.length % 4) % 4) := by
  have hlt : s.length % 4 < 4 := Nat.mod_lt _ (by decide)
  rw [fixPadding]
  generalize s.length % 4 = n at hlt
  match n with
  | 0 => simp [fills]
  | 1 => simp [fills]
  | 2 => simp [fills]
  | 3 => simp [fills]

/-- The percent sign of a fill is no letter. -/
theorem percent_not_mem : (0x25 : UInt8) ∉ base64url.letters := by decide

theorem percent_mem_fills {n : Nat} (hn : 0 < n) : (0x25 : UInt8) ∈ fills n := by
  cases n with
  | zero => simp at hn
  | succ n =>
      rw [fills, List.mem_append]
      exact .inr (by decide)

def Letters (s : Str) : Prop := ∀ c ∈ s, c ∈ base64url.letters

theorem not_fill_suffix {s : Str} (hs : Letters s) : ¬ fill <:+ s := by
  rintro ⟨front, rfl⟩
  exact percent_not_mem (hs 0x25 (List.mem_append_right front (by decide)))

theorem stripFill_of_not {base : Str} (h : ¬ (fill.length < base.length ∧ fill <:+ base))
    (left : Nat) : stripFill left base = .ok (base, 0) := by
  unfold stripFill
  rw [if_neg h]

/-- What is taken off and what is left. -/
theorem stripFill_append {left fillCnt : Nat} {base core : Str}
    (h : stripFill left base = .ok (core, fillCnt)) :
    base = core ++ fills fillCnt ∧ fillCnt ≤ left := by
  induction left, base using stripFill.induct generalizing core fillCnt with
  | case1 base hfill =>
      rw [stripFill, if_pos hfill] at h
      simp at h
  | case2 base hfill left ih =>
      rw [stripFill, if_pos hfill] at h
      obtain ⟨⟨core', fillCnt'⟩, hrest, hpure⟩ := bind_eq_ok.mp h
      obtain ⟨rfl, rfl⟩ : core' = core ∧ fillCnt' + 1 = fillCnt := by
        simpa [pure, Except.pure] using hpure
      obtain ⟨htake, hle⟩ := ih hrest
      refine ⟨?_, by omega⟩
      obtain ⟨front, rfl⟩ := hfill.2
      rw [fills, ← List.append_assoc, ← htake]
      simp
  | case3 left base hfill =>
      rw [stripFill_of_not hfill] at h
      obtain ⟨rfl, rfl⟩ : base = core ∧ 0 = fillCnt := by simpa using h
      exact ⟨by simp [fills], by omega⟩

theorem stripFill_fills {core : Str} {fillCnt left : Nat} (hcore : Letters core)
    (hne : core ≠ [] ∨ fillCnt = 0) (hle : fillCnt ≤ left) :
    stripFill left (core ++ fills fillCnt) = .ok (core, fillCnt) := by
  induction fillCnt generalizing left with
  | zero =>
      have hfill : ¬ (fill.length < (core ++ fills 0).length ∧ fill <:+ core ++ fills 0) := by
        rw [fills, List.append_nil]
        exact fun h => not_fill_suffix hcore h.2
      rw [stripFill_of_not hfill]
      simp [fills]
  | succ fillCnt ih =>
      have hne : core ≠ [] := by simpa using hne
      have hpos := List.length_pos_iff.mpr hne
      obtain ⟨left, rfl⟩ : ∃ left', left = left' + 1 := ⟨left - 1, by omega⟩
      have hfill : fill.length < (core ++ fills (fillCnt + 1)).length ∧
          fill <:+ core ++ fills (fillCnt + 1) := by
        refine ⟨?_, ⟨core ++ fills fillCnt, by simp [fills]⟩⟩
        rw [List.length_append, length_fills]
        show 3 < _
        omega
      have htake : (core ++ fills (fillCnt + 1)).take
          ((core ++ fills (fillCnt + 1)).length - fill.length) = core ++ fills fillCnt := by
        simp [fills, ← List.append_assoc]
      rw [stripFill, if_pos hfill, htake, ih (.inl hne) (by omega)]
      rfl

/-! ### Decoding -/

theorem getSextet_eq_ok {c : UInt8} {n : Nat} :
    getSextet c = .ok n ↔ base64url.sextet c = some n := by
  rw [getSextet]
  cases base64url.sextet c <;> simp

theorem decodeGroups_eq_ok {fillCnt : Nat} {core bytes : Str}
    (hlength : (core.length + fillCnt) % 4 = 0) (hle : fillCnt ≤ 2) :
    decodeGroups fillCnt core = .ok bytes ↔ base64url.unpack core = some bytes := by
  induction core using Alphabet.unpack.induct generalizing bytes with
  | case1 => simp [decodeGroups, Alphabet.unpack]
  | case2 c =>
      simp only [List.length_singleton] at hlength
      omega
  | case3 a b =>
      obtain rfl : fillCnt = 2 := by
        simp only [List.length_cons, List.length_nil] at hlength
        omega
      simp [decodeGroups, Alphabet.unpack, bind_eq_ok, getSextet_eq_ok,
        Option.bind_eq_some_iff, pure, Except.pure]
  | case4 a b c =>
      obtain rfl : fillCnt = 1 := by
        simp only [List.length_cons, List.length_nil] at hlength
        omega
      simp [decodeGroups, Alphabet.unpack, bind_eq_ok, getSextet_eq_ok,
        Option.bind_eq_some_iff, pure, Except.pure]
  | case5 a b c d rest ih =>
      have hrest : (rest.length + fillCnt) % 4 = 0 := by
        simp only [List.length_cons] at hlength
        omega
      simp [decodeGroups, Alphabet.unpack, bind_eq_ok, getSextet_eq_ok,
        Option.bind_eq_some_iff, pure, Except.pure, ih hrest]

theorem letters_of_unpack {core bytes : Str} (h : base64url.unpack core = some bytes) :
    core.length % 4 ≠ 1 ∧ Letters core :=
  base64url.exists_unpack_iff.mp ⟨bytes, h⟩

theorem decode_eq_ok {base bytes : Str} :
    decode base = .ok bytes ↔
      ∃ core fillCnt, stripFill 2 base = .ok (core, fillCnt) ∧
        (core.length + fillCnt) % 4 = 0 ∧ base64url.unpack core = some bytes := by
  rw [decode, bind_eq_ok, Prod.exists]
  refine exists_congr fun core => exists_congr fun fillCnt => and_congr_right fun hstrip => ?_
  have hle := (stripFill_append hstrip).2
  by_cases hlength : (core.length + fillCnt) % 4 = 0
  · simp only [hlength, ne_eq, not_true_eq_false, if_false, true_and]
    exact decodeGroups_eq_ok hlength hle
  · simp [hlength, throw, throwThe, MonadExceptOf.throw, bind, Except.bind]

theorem decode_letters {core bytes : Str} (h : base64url.unpack core = some bytes) :
    decode (core ++ fills ((4 - core.length % 4) % 4)) = .ok bytes := by
  obtain ⟨hlength, hletters⟩ := letters_of_unpack h
  refine decode_eq_ok.mpr ⟨core, (4 - core.length % 4) % 4, ?_, by omega, h⟩
  apply stripFill_fills hletters
  · rcases core with _ | ⟨c, core⟩
    · exact .inr rfl
    · exact .inl (by simp)
  · omega

/-- A part is read where it consists of letters, none of them alone in the last
group; or where two fills are written out behind a group of two. -/
theorem decodePart_eq_ok (part bytes : Str) :
    decodePart part = .ok bytes ↔
      ∃ core, base64url.unpack core = some bytes ∧
        (part = core ∨ (core.length % 4 = 2 ∧ part = core ++ fill ++ fill)) := by
  rw [decodePart, fixPadding_eq]
  constructor
  · intro h
    obtain ⟨core, fillCnt, hstrip, hlength, hunpack⟩ := decode_eq_ok.mp h
    obtain ⟨-, hletters⟩ := letters_of_unpack hunpack
    obtain ⟨happend, hle⟩ := stripFill_append hstrip
    refine ⟨core, hunpack, ?_⟩
    rcases le_or_gt ((4 - part.length % 4) % 4) fillCnt with hadded | hadded
    · -- the fills that were put back are among those taken off
      obtain ⟨written, rfl⟩ := Nat.exists_eq_add_of_le' hadded
      rw [fills_add, ← List.append_assoc] at happend
      obtain rfl := List.append_cancel_right happend
      rw [List.length_append, length_fills] at hlength hle
      match written with
      | 0 => exact .inl (by simp [fills])
      | 1 => omega
      | 2 => exact .inr ⟨by omega, by simp [fills]⟩
      | written + 3 => omega
    · obtain ⟨kept, hkept⟩ := Nat.exists_eq_add_of_lt hadded
      have hsplit : (4 - part.length % 4) % 4 = kept + 1 + fillCnt := by omega
      rw [hsplit, fills_add, ← List.append_assoc] at happend
      obtain rfl := List.append_cancel_right happend
      have hpercent := percent_mem_fills (Nat.succ_pos kept)
      exact absurd (hletters 0x25 (List.mem_append_right part hpercent)) percent_not_mem
  · rintro ⟨core, hunpack, rfl | ⟨hlength, rfl⟩⟩
    · exact decode_letters hunpack
    · have hmod : (core ++ fill ++ fill).length % 4 = 0 := by
        simp only [List.length_append]
        show (core.length + 3 + 3) % 4 = 0
        omega
      have hcore := decode_letters hunpack
      rw [hlength] at hcore
      rw [hmod]
      simpa [fills] using hcore

/-! ### The round trip -/

theorem encode_eq (data : Str) :
    encode data = base64url.pack data ++ fills ((3 - data.length % 3) % 3) := by
  induction data using encode.induct with
  | case1 a b c rest ih =>
      have hlength : (a :: b :: c :: rest).length % 3 = rest.length % 3 := by
        simp only [List.length_cons]
        omega
      rw [hlength]
      simp [encode, Alphabet.pack, ih]
  | case2 a b => simp [encode, Alphabet.pack, fills]
  | case3 a => simp [encode, Alphabet.pack, fills]
  | case4 => simp [encode, Alphabet.pack, fills]

theorem beforeFill_fills (n : Nat) : beforeFill (fills n) = [] := by
  cases n with
  | zero => rfl
  | succ n =>
      have hprefix : fill <+: fills (n + 1) := ⟨fills n, by rw [Nat.add_comm, fills_add]; simp [fills]⟩
      rcases hfills : fills (n + 1) with _ | ⟨c, rest⟩
      · rfl
      · rw [beforeFill, if_pos (hfills ▸ hprefix)]

theorem beforeFill_letters {s : Str} (hs : Letters s) (n : Nat) :
    beforeFill (s ++ fills n) = s := by
  induction s with
  | nil => exact beforeFill_fills n
  | cons c s ih =>
      have hfill : ¬ fill <+: c :: (s ++ fills n) := by
        rintro ⟨rest, hrest⟩
        obtain rfl : (0x25 : UInt8) = c := (List.cons.inj hrest).1
        exact percent_not_mem (hs 0x25 (by simp))
      rw [List.cons_append, beforeFill, if_neg hfill, ih fun d hd => hs d (by simp [hd])]

theorem encodePart_eq (data : Str) : encodePart data = base64url.pack data := by
  rw [encodePart, encode_eq]
  exact beforeFill_letters (fun c hc => base64url.mem_letters_of_mem_pack hc) _

theorem decodePart_encodePart (data : Str) : decodePart (encodePart data) = .ok data := by
  rw [decodePart_eq_ok]
  exact ⟨encodePart data, by rw [encodePart_eq, Alphabet.unpack_pack], .inl rfl⟩

/-- The parts of tokens. Letters are read unless one of them is left alone, with
nothing or just the two fills of a last group of two behind them; each of them is
written again except for the last one, unless its bits are all in use. What has
been written is read as it was. -/
theorem token_parts (part : Str) :
    ((∃ bytes, decodePart part = .ok bytes) ↔
      ∃ core, Letters core ∧ core.length % 4 ≠ 1 ∧
        (part = core ∨ (core.length % 4 = 2 ∧ part = core ++ fill ++ fill))) ∧
    (∀ bytes, decodePart part = .ok bytes →
      (∃ core, core.length = (encodePart bytes).length ∧
        core.dropLast = (encodePart bytes).dropLast ∧
        (part = core ∨ (core.length % 4 = 2 ∧ part = core ++ fill ++ fill))) ∧
      (bytes.length % 3 = 0 → part = encodePart bytes)) ∧
    decodePart (encodePart part) = .ok part := by
  refine ⟨?_, fun bytes h => ?_, decodePart_encodePart part⟩
  · constructor
    · rintro ⟨bytes, h⟩
      obtain ⟨core, hunpack, hpart⟩ := (decodePart_eq_ok part bytes).mp h
      obtain ⟨hlength, hletters⟩ := letters_of_unpack hunpack
      exact ⟨core, hletters, hlength, hpart⟩
    · rintro ⟨core, hletters, hlength, hpart⟩
      obtain ⟨bytes, hunpack⟩ := base64url.exists_unpack_iff.mpr ⟨hlength, hletters⟩
      exact ⟨bytes, (decodePart_eq_ok part bytes).mpr ⟨core, hunpack, hpart⟩⟩
  · obtain ⟨core, hunpack, hpart⟩ := (decodePart_eq_ok part bytes).mp h
    obtain ⟨hlength, hdrop, hwhole⟩ := base64url.pack_of_unpack hunpack
    rw [encodePart_eq]
    refine ⟨⟨core, hlength, hdrop, hpart⟩, fun hbytes => ?_⟩
    rcases hpart with rfl | ⟨htwo, -⟩
    · exact hwhole hbytes
    · -- whole groups of bytes leave no group of two letters
      rw [hlength, Alphabet.length_pack] at htwo
      omega

end MvcBackend.Base64
