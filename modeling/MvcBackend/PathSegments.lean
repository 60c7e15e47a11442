import MvcBackend.HttpHandler

/-!
A client percent-encodes the segments of a path and joins them. The server
decodes the whole path before it splits it, so an encoded separator separates.
-/

namespace MvcBackend.PathSegments

open MvcBackend.JsonValues
open MvcBackend.Database
open MvcBackend.HttpHandler

/-- The byte that separates the segments of a path. -/
def separator : UInt8 := 0x2F

/-- The bytes that may stand for themselves in a segment of a path: letters,
digits and some marks, but neither the separator nor the percent sign. -/
def isPathChar (c : UInt8) : Bool :=
  (0x41 ≤ c && c ≤ 0x5A) || (0x61 ≤ c && c ≤ 0x7A) || (0x30 ≤ c && c ≤ 0x39) ||
    (str "-._~!$&'()*+,;=:@").contains c

/-- `encoded` is `s` with each byte as it is, where that is allowed, or percent-encoded. -/
inductive Encodes : Str → Str → Prop where
  | nil : Encodes [] []
  | plain {c : UInt8} {s encoded : Str} (hc : isPathChar c = true) (h : Encodes s encoded) :
      Encodes (c :: s) (c :: encoded)
  | escaped {hi lo high low : UInt8} {s encoded : Str} (hhi : hexValue hi = some high)
      (hlo : hexValue lo = some low) (h : Encodes s encoded) :
      Encodes ((16 * high + low) :: s) (0x25 :: hi :: lo :: encoded)

/-- A segment that is not empty, as a client sends it. -/
structure SentSegment where
  segment : Str
  encoded : Str
  nonempty : segment ≠ []
  encodes : Encodes segment encoded

/-- The segments joined, behind a separator of their own or not. -/
def sentPath (leading : Bool) (sent : List SentSegment) : Str :=
  (if leading then [separator] else []) ++ [separator].intercalate (sent.map SentSegment.encoded)

def hexDigit (n : Nat) : UInt8 := UInt8.ofNat (if n < 10 then 0x30 + n else 0x37 + n)

/-- The client that encodes every byte it has to. -/
def percentEncode : Str → Str
  | [] => []
  | c :: s =>
      if isPathChar c then c :: percentEncode s
      else 0x25 :: hexDigit (c.toNat / 16) :: hexDigit (c.toNat % 16) :: percentEncode s

theorem hexValue_hexDigit : ∀ n < 16, hexValue (hexDigit n) = some (UInt8.ofNat n) := by decide

theorem encodes_percentEncode (s : Str) : Encodes s (percentEncode s) := by
  induction s with
  | nil => exact .nil
  | cons c s ih =>
      rw [percentEncode]
      split
      · next hc => exact .plain hc ih
      · have hlt := c.toNat_lt
        have hc : 16 * UInt8.ofNat (c.toNat / 16) + UInt8.ofNat (c.toNat % 16) = c := by
          rw [← UInt8.toNat_inj]
          simp only [UInt8.toNat_add, UInt8.toNat_mul, UInt8.toNat_ofNat', UInt8.reduceToNat]
          omega
        have h := Encodes.escaped (hexValue_hexDigit (c.toNat / 16) (by omega))
          (hexValue_hexDigit (c.toNat % 16) (by omega)) ih
        rwa [hc] at h

theorem uriDecode_cons {c : UInt8} (hc : c ≠ 0x25) (rest : Str) :
    uriDecode (c :: rest) = (uriDecode rest).map fun tail => c :: tail := by
  rw [uriDecode]
  · exact fun hi lo rest' h => absurd h hc
  · exact fun h => absurd h hc

theorem uriDecode_encoded {s encoded : Str} (h : Encodes s encoded) {rest decoded : Str}
    (hrest : uriDecode rest = .ok decoded) : uriDecode (encoded ++ rest) = .ok (s ++ decoded) := by
  induction h with
  | nil => exact hrest
  | @plain c s encoded hc h ih =>
      have hne : c ≠ 0x25 := by
        rintro rfl
        revert hc
        decide
      rw [List.cons_append, uriDecode_cons hne, ih]
      rfl
  | escaped hhi hlo h ih =>
      simp only [List.cons_append, uriDecode, hhi, hlo, ih]
      rfl

theorem uriDecode_intercalate (sent : List SentSegment) :
    uriDecode ([separator].intercalate (sent.map SentSegment.encoded)) =
      .ok ([separator].intercalate (sent.map SentSegment.segment)) := by
  induction sent with
  | nil => rfl
  | cons x sent ih =>
      cases sent with
      | nil =>
          have h : uriDecode (x.encoded ++ []) = .ok (x.segment ++ []) :=
            uriDecode_encoded x.encodes rfl
          simpa using h
      | cons y sent =>
          have hrest : uriDecode (separator ::
              [separator].intercalate ((y :: sent).map SentSegment.encoded)) =
                .ok (separator :: [separator].intercalate ((y :: sent).map SentSegment.segment)) := by
            rw [uriDecode_cons (by decide), ih]
            rfl
          exact uriDecode_encoded x.encodes hrest

theorem uriDecode_sentPath (leading : Bool) (sent : List SentSegment) :
    uriDecode (sentPath leading sent) =
      .ok ((if leading then [separator] else []) ++
        [separator].intercalate (sent.map SentSegment.segment)) := by
  rw [sentPath]
  cases leading with
  | false => exact uriDecode_intercalate sent
  | true =>
      show uriDecode (separator :: [separator].intercalate (sent.map SentSegment.encoded)) = _
      rw [uriDecode_cons (by decide), uriDecode_intercalate]
      rfl

theorem uriSplitPath_append (front rest : Str) :
    uriSplitPath (front ++ separator :: rest) = uriSplitPath front ++ uriSplitPath rest := by
  show ((front ++ separator :: rest).splitOn separator).filter _ = _
  rw [List.splitOn_append_cons_self, List.filter_append]
  rfl

theorem uriSplitPath_intercalate (segments : List Str) :
    uriSplitPath ([separator].intercalate segments) = segments.flatMap uriSplitPath := by
  induction segments with
  | nil => rfl
  | cons s segments ih =>
      cases segments with
      | nil => simp
      | cons s' segments =>
          show uriSplitPath (s ++ separator :: [separator].intercalate (s' :: segments)) = _
          rw [uriSplitPath_append, ih]
          rfl

theorem uriSplitPath_of_not_mem {s : Str} (hne : s ≠ []) (h : separator ∉ s) :
    uriSplitPath s = [s] := by
  show (s.splitOn separator).filter _ = _
  rw [List.splitOn_eq_singleton h]
  simpa using hne

theorem not_mem_of_splitOn (s : Str) : ∀ piece ∈ s.splitOn separator, separator ∉ piece := by
  induction s with
  | nil => simp
  | cons c s ih =>
      rw [List.splitOn_cons_eq_if_modifyHead]
      split
      · simpa using ih
      · next hc =>
          obtain ⟨head, pieces, hsplit⟩ := List.exists_cons_of_ne_nil
            (List.splitOn_ne_nil separator s)
          rw [hsplit] at ih ⊢
          obtain ⟨hhead, hpieces⟩ := List.forall_mem_cons.mp ih
          refine List.forall_mem_cons.mpr ⟨?_, hpieces⟩
          have hne : separator ≠ c := by
            rintro rfl
            exact hc (by simp)
          exact List.not_mem_cons_of_ne_of_not_mem hne hhead

theorem uriSplitPath_sent (leading : Bool) (segments : List Str) :
    uriSplitPath ((if leading then [separator] else []) ++ [separator].intercalate segments) =
      segments.flatMap uriSplitPath := by
  rw [← uriSplitPath_intercalate]
  cases leading with
  | false => rfl
  | true => exact uriSplitPath_append [] _

/-- The segments arrive as they were sent just when no separator was among
their bytes. -/
theorem segments_survive_iff (req : HttpRequest) (leading : Bool) (sent : List SentSegment) :
    splitRequestPath { req with path := sentPath leading sent } =
        .ok (sent.map SentSegment.segment) ↔
      ∀ s ∈ sent, separator ∉ s.segment := by
  have hpath : splitRequestPath { req with path := sentPath leading sent } =
      .ok ((sent.map SentSegment.segment).flatMap uriSplitPath) := by
    rw [splitRequestPath, uriDecode_sentPath, ← uriSplitPath_sent leading]
    rfl
  rw [hpath, Except.ok.injEq, List.flatMap_map]
  constructor
  · intro h s hs
    have hmem : s.segment ∈ sent.flatMap fun s => uriSplitPath s.segment := by
      rw [h]
      exact List.mem_map_of_mem hs
    obtain ⟨s', -, hpiece⟩ := List.mem_flatMap.mp hmem
    exact not_mem_of_splitOn s'.segment s.segment (List.mem_filter.mp hpiece).1
  · intro h
    have hsingle : ∀ s ∈ sent, uriSplitPath s.segment = [s.segment] :=
      fun s hs => uriSplitPath_of_not_mem s.nonempty (h s hs)
    rw [List.flatMap_congr hsingle, List.map_eq_flatMap]

/-- The one segment `a/b`. -/
def slashSegment : SentSegment :=
  ⟨str "a/b", percentEncode (str "a/b"), by decide, encodes_percentEncode _⟩

theorem slash_splits :
    splitRequestPath ⟨str "GET", sentPath true [slashSegment], [], []⟩ ≠
      .ok ([slashSegment].map SentSegment.segment) := by
  decide

end MvcBackend.PathSegments
