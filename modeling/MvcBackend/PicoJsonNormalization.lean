import MvcBackend.PicoJsonRoundTrip

/-!
What the parser makes of a text, whatever order its members are in and however
it is spaced and escaped, is written and read again without a change.
-/

namespace MvcBackend.PicoJsonNormalization

open MvcBackend.JsonValues
open MvcBackend.ApiParse
open MvcBackend.PicoJson
open MvcBackend.PicoJsonRoundTrip
open MvcBackend.Library.SortedMap
open MvcBackend.Library.Transaction

mutual

/-- Without doubles at any depth. -/
def Value.Integral : Value → Prop
  | .number _ => False
  | .array items => ItemsIntegral items
  | .object members => MembersIntegral members
  | _ => True

def ItemsIntegral : List Value → Prop
  | [] => True
  | item :: items => Value.Integral item ∧ ItemsIntegral items

def MembersIntegral : List (Str × Value) → Prop
  | [] => True
  | (_, member) :: members => Value.Integral member ∧ MembersIntegral members

end

mutual

def decidableIntegral : (v : Value) → Decidable (Value.Integral v)
  | .null | .boolean _ | .int64 _ | .string _ => .isTrue trivial
  | .number _ => .isFalse not_false
  | .array items => decidableItemsIntegral items
  | .object members => decidableMembersIntegral members

def decidableItemsIntegral : (items : List Value) → Decidable (ItemsIntegral items)
  | [] => .isTrue trivial
  | item :: items =>
      @instDecidableAnd _ _ (decidableIntegral item) (decidableItemsIntegral items)

def decidableMembersIntegral : (members : List (Str × Value)) → Decidable (MembersIntegral members)
  | [] => .isTrue trivial
  | (_, member) :: members =>
      @instDecidableAnd _ _ (decidableIntegral member) (decidableMembersIntegral members)

end

instance : DecidablePred Value.Integral := decidableIntegral

theorem membersIntegral_iff {members : List (Str × Value)} :
    MembersIntegral members ↔ ∀ m ∈ members, Value.Integral m.2 := by
  induction members with
  | nil => simp [MembersIntegral]
  | cons m members ih => simp [MembersIntegral, ih]

/-! ### Values -/

section

variable {strtod : Str → Strtod}

theorem plain_of_parseNumber {s rest : Str} {v : Value}
    (h : parseNumber strtod s = .ok (v, rest)) (hv : Value.Integral v) : Value.Plain v := by
  rw [parseNumber] at h
  split at h
  · rename_i n hn
    obtain ⟨rfl, -⟩ := Prod.mk.inj (Except.ok.inj h)
    rw [strtoimax] at hn
    rcases splitSign (s.takeWhile isNumberChar) with ⟨sign, digits⟩
    simp only at hn
    split_ifs at hn with hdigits hint
    obtain rfl := Option.some.inj hn
    exact hint
  · split at h
    · obtain ⟨rfl, -⟩ := Prod.mk.inj (Except.ok.inj h)
      exact hv.elim
    · cases h
    · cases h

theorem map_eq_ok {α β : Type} {x : Except ParseError α} {f : α → β} {b : β} :
    x.map f = .ok b ↔ ∃ a, x = .ok a ∧ f a = b := by
  cases x <;> simp [Except.map]

theorem plain_of_literal {text s rest : Str} {value v : Value} (hvalue : Value.Plain value)
    (h : literal text value s = .ok (v, rest)) : Value.Plain v := by
  obtain ⟨rest', -, hpair⟩ := map_eq_ok.mp h
  obtain ⟨rfl, -⟩ := Prod.mk.inj hpair
  exact hvalue

/-- Members that are in order stay so, and only plain ones are assigned. -/
structure Forms (strtod : Str → Strtod) (fuel : Nat) : Prop where
  value : ∀ {s rest : Str} {v : Value}, parseValue strtod fuel s = .ok (v, rest) →
    Value.Integral v → Value.Plain v
  items : ∀ {s rest : Str} {items : List Value}, parseItems strtod fuel s = .ok (items, rest) →
    ItemsIntegral items → ItemsPlain items
  members : ∀ {s rest : Str} {before members : List (Str × Value)},
    parseMembers strtod fuel before s = .ok (members, rest) →
    (before.map Prod.fst).Pairwise (· < ·) → (∀ m ∈ before, Value.Integral m.2 → Value.Plain m.2) →
    (members.map Prod.fst).Pairwise (· < ·) ∧ ∀ m ∈ members, Value.Integral m.2 → Value.Plain m.2

theorem Forms.value_succ {fuel : Nat} (h : Forms strtod fuel) {s rest : Str} {v : Value}
    (hread : parseValue strtod (fuel + 1) s = .ok (v, rest)) (hv : Value.Integral v) : Value.Plain v := by
  rw [parseValue] at hread
  rcases hws : skipWs s with _ | ⟨c, s'⟩
  · simp [hws] at hread
  · simp only [hws] at hread
    split_ifs at hread with hnull hfalse htrue hquote harray hobject hnumber
    · exact plain_of_literal (by simp [Value.Plain]) hread
    · exact plain_of_literal (by simp [Value.Plain]) hread
    · exact plain_of_literal (by simp [Value.Plain]) hread
    · obtain ⟨out, -, rfl⟩ := map_pair_eq_ok hread
      trivial
    · rcases hbracket : expect 0x5D s' with ⟨_ | _, s''⟩
      · simp only [hbracket] at hread
        obtain ⟨items, hitems, rfl⟩ := map_pair_eq_ok hread
        exact h.items hitems hv
      · simp only [hbracket] at hread
        obtain ⟨rfl, -⟩ := Prod.mk.inj (Except.ok.inj hread)
        trivial
    · rcases hbracket : expect 0x7D s' with ⟨_ | _, s''⟩
      · simp only [hbracket] at hread
        obtain ⟨members, hmembers, rfl⟩ := map_pair_eq_ok hread
        obtain ⟨hsorted, hplain⟩ := h.members hmembers (by simp) (by simp)
        have hintegral := membersIntegral_iff.mp hv
        exact ⟨hsorted, membersPlain_iff.mpr fun m hm => hplain m hm (hintegral m hm)⟩
      · simp only [hbracket] at hread
        obtain ⟨rfl, -⟩ := Prod.mk.inj (Except.ok.inj hread)
        exact ⟨by simp, trivial⟩
    · exact plain_of_parseNumber hread hv

theorem Forms.items_succ {fuel : Nat} (h : Forms strtod fuel) {s rest : Str}
    {items : List Value} (hread : parseItems strtod (fuel + 1) s = .ok (items, rest))
    (hitems : ItemsIntegral items) : ItemsPlain items := by
  rw [parseItems] at hread
  obtain ⟨⟨item, s'⟩, hitem, hread⟩ := bind_eq_ok.mp hread
  simp only at hread
  rcases hexpect : expect 0x2C s' with ⟨_ | _, s''⟩
  · simp only [hexpect] at hread
    rcases hbracket : expect 0x5D s'' with ⟨_ | _, s₃⟩
    · simp [hbracket] at hread
    · simp only [hbracket] at hread
      obtain ⟨rfl, -⟩ : [item] = items ∧ s₃ = rest := by simpa [pure, Except.pure] using hread
      exact ⟨h.value hitem hitems.1, trivial⟩
  · simp only [hexpect] at hread
    obtain ⟨⟨items', rest'⟩, hrest, hread⟩ := bind_eq_ok.mp hread
    obtain ⟨rfl, -⟩ : item :: items' = items ∧ rest' = rest := by
      simpa [pure, Except.pure] using hread
    exact ⟨h.value hitem hitems.1, h.items hrest hitems.2⟩

theorem Forms.members_succ {fuel : Nat} (h : Forms strtod fuel) {s rest : Str}
    {before members : List (Str × Value)}
    (hread : parseMembers strtod (fuel + 1) before s = .ok (members, rest))
    (hsorted : (before.map Prod.fst).Pairwise (· < ·))
    (hplain : ∀ m ∈ before, Value.Integral m.2 → Value.Plain m.2) :
    (members.map Prod.fst).Pairwise (· < ·) ∧ ∀ m ∈ members, Value.Integral m.2 → Value.Plain m.2 := by
  rw [parseMembers] at hread
  rcases hquote : expect 0x22 s with ⟨_ | _, s₁⟩
  · simp [hquote] at hread
  · simp only [hquote] at hread
    obtain ⟨⟨key, s₂⟩, -, hread⟩ := bind_eq_ok.mp hread
    simp only at hread
    rcases hcolon : expect 0x3A s₂ with ⟨_ | _, s₃⟩
    · simp [hcolon] at hread
    · simp only [hcolon] at hread
      obtain ⟨⟨member, s₄⟩, hmember, hread⟩ := bind_eq_ok.mp hread
      have hsorted' : ((assign key member before).map Prod.fst).Pairwise (· < ·) :=
        sorted_assign hsorted
      have hplain' : ∀ m ∈ assign key member before, Value.Integral m.2 → Value.Plain m.2 :=
        forall_assign (P := fun _ v => Value.Integral v → Value.Plain v) (h.value hmember) hplain
      simp only at hread
      rcases hcomma : expect 0x2C s₄ with ⟨_ | _, s₅⟩
      · simp only [hcomma] at hread
        rcases hclose : expect 0x7D s₅ with ⟨_ | _, s₆⟩
        · simp [hclose] at hread
        · simp only [hclose] at hread
          obtain ⟨rfl, -⟩ : assign key member before = members ∧ s₆ = rest := by
            simpa [pure, Except.pure] using hread
          exact ⟨hsorted', hplain'⟩
      · simp only [hcomma] at hread
        exact h.members hread hsorted' hplain'

theorem forms (strtod : Str → Strtod) (fuel : Nat) : Forms strtod fuel := by
  induction fuel with
  | zero =>
      constructor
      · intro s rest v h
        cases h
      · intro s rest items h
        cases h
      · intro s rest before members h
        cases h
  | succ fuel ih => exact ⟨ih.value_succ, ih.items_succ, ih.members_succ⟩

/-- Whatever text a value without doubles has been read from, it is read as it is
from the text it is written as, which may be followed by anything that does not go
on with a number; and no fuel beyond what the length allows for is ever used, for
the value as for any string in it. -/
theorem read_values_read_back (strtod : Str → Strtod) {s : Str} {v : Value}
    (h : parse strtod s = .ok v) (hv : Value.Integral v) {rest : Str} (hrest : Stops rest) {fuel : Nat}
    (hfuel : 2 * (v.serialize ++ rest).length < fuel) :
    Value.Plain v ∧ parse strtod (v.serialize ++ rest) = .ok v ∧
      (parseValue strtod fuel (v.serialize ++ rest)).map Prod.fst = .ok v ∧
      ∀ t : Str, t.length ≤ (v.serialize ++ rest).length → stringLoop fuel t = parseString t := by
  obtain ⟨⟨v', rest'⟩, hread, rfl⟩ := map_eq_ok.mp h
  have hplain := (forms strtod _).value hread hv
  have hparse := parse_serialize strtod v' hplain hrest
  refine ⟨hplain, hparse, (parse_eq_of_fuel _ hfuel).symm.trans hparse, ?_⟩
  intro t ht
  exact (parseString_eq_of_fuel t (by omega)).symm

/-- The names are out of order, one of them twice, a letter is escaped, and more
than the object is there. -/
def untidyText : Str :=
  str " \x7b\"sub\" : 1, \"iss\":\"\\u0041\\/\", \"sub\":[-20 , \x7b\"b\":null,\"a\":true\x7d] \x7d .."

def tidyText : Str := str "\x7b\"iss\":\"A\\/\",\"sub\":[-20,\x7b\"a\":true,\"b\":null\x7d]\x7d"

/-- The members are put in order and the second of two that have one name stays. -/
theorem read_values_read_back_untidy :
    ∃ v, parse (fun _ => .incomplete) untidyText = .ok v ∧ v.serialize = tidyText ∧
      parse (fun _ => .incomplete) (tidyText ++ str "]") = .ok v := by
  have hread : (parse (fun _ => .incomplete) untidyText).map
      (fun v => (v.serialize, decide (Value.Integral v))) = .ok (tidyText, true) := by
    decide +kernel
  obtain ⟨v, hv, hpair⟩ := map_eq_ok.mp hread
  obtain ⟨htext, hintegral⟩ := Prod.mk.inj hpair
  have hstops : Stops (str "]") := stops_cons (by decide) []
  have hback := (read_values_read_back _ hv (of_decide_eq_true hintegral) hstops
    (Nat.lt_succ_self _)).2.1
  rw [htext] at hback
  exact ⟨v, hv, htext, hback⟩

end

end MvcBackend.PicoJsonNormalization
