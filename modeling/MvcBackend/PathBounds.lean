import MvcBackend.ApiParse
import MvcBackend.Library.Tracing

/-!
The parser stays on its path. A twin of each parse records the states that it
reaches and the calls that it makes on them, and counts the tokens of the branch
that it takes; without its log it is the parse itself.
-/

namespace MvcBackend.PathBounds

open MvcBackend.JsonValues
open MvcBackend.ApiParse
open MvcBackend.ApiParse.Parser
open MvcBackend.Library.Tracing

/-- A parser is given a state, or one is made; and the two calls that must not
come at the end of the path. -/
inductive Event where
  | reached (s : State)
  | segment (s : State)
  | next (s : State)

/-- A successful parse, with the tokens that matched on the branch it took. -/
structure Taken (ρ : Type) where
  result : Result ρ
  tokens : List Token

abbrev Trace (α : Type) := Traced Event ParseFault α

variable {ρ : Type}

/-! ### The parse with its log -/

def segmentTrace (s : State) : Trace Str := do
  record (.segment s)
  ofExcept s.segment

def nextTrace (s : State) : Trace State := do
  record (.next s)
  let next ← ofExcept s.next
  record (.reached next)
  return next

def litTrace (k : Str) (s : State) : Trace (Option (Taken ρ)) := do
  record (.reached s)
  if s.atEnd then return none
  else
    let segment ← segmentTrace s
    if segment = k then return some ⟨⟨← nextTrace s, []⟩, [.lit k]⟩ else return none

/-- Which of the two calls comes first is up to the compiler: a segment that is
no number may be read before the next state is made, and then less is reached. -/
def intTrace (s : State) : Trace (Option (Taken ρ)) := do
  record (.reached s)
  if s.atEnd then return none
  else
    let next ← nextTrace s
    let segment ← segmentTrace s
    match stoi segment with
    | .ok n => return some ⟨⟨next, [.int n]⟩, [.int]⟩
    | .error .invalidArgument => return none
    | .error .outOfRange => return none

def stringTrace (s : State) : Trace (Option (Taken ρ)) := do
  record (.reached s)
  if s.atEnd then return none
  else return some ⟨⟨← nextTrace s, [.string (← segmentTrace s)]⟩, [.string]⟩

def constructTaken (make : List (Val ρ) → ρ) (taken : Taken ρ) : Taken ρ :=
  ⟨⟨taken.result.nextState, [.object (make taken.result.result)]⟩, taken.tokens⟩

mutual

def trace : Parser ρ → State → Trace (Option (Taken ρ))
  | .lit k, s => litTrace k s
  | .int, s => intTrace s
  | .string, s => stringTrace s
  | .any parsers, s => firstTrace parsers s
  | .dyn parsers, s => firstTrace parsers s
  | .all parsers, s => allTrace parsers [] [] s
  | .cons make parsers, s => do
      return (← allTrace parsers [] [] s).map (constructTaken make)
  | .endpoint make parsers, s => do
      return (← allTrace parsers [] [] s).map (constructTaken make)

def allTrace : List (Parser ρ) → List (Val ρ) → List Token → State → Trace (Option (Taken ρ))
  | [], curTuple, tokens, curState => do
      record (.reached curState)
      return some ⟨⟨curState, curTuple⟩, tokens⟩
  | parser :: parsers, curTuple, tokens, curState => do
      record (.reached curState)
      match ← trace parser curState with
      | some taken =>
          allTrace parsers (curTuple ++ taken.result.result) (tokens ++ taken.tokens)
            taken.result.nextState
      | none => return none

def firstTrace : List (Parser ρ) → State → Trace (Option (Taken ρ))
  | [], curState => do
      record (.reached curState)
      return none
  | parser :: parsers, curState => do
      record (.reached curState)
      match ← trace parser curState with
      | some taken =>
          return some ⟨⟨taken.result.nextState, [flatten taken.result.result]⟩, taken.tokens⟩
      | none => firstTrace parsers curState

end

def rootTrace (parsers : List (Parser ρ)) (path : ApiPath) : Trace (Option (Val ρ)) := do
  match ← allTrace parsers [] [] ⟨path⟩ with
  | some taken =>
      if taken.result.nextState.atEnd then return some (flatten taken.result.result)
      else return none
  | none => return none

/-! ### Without its log it is the parse -/

abbrev ErasesTo (m : Trace (Option (Taken ρ))) (x : Except ParseFault (Parsed ρ)) : Prop :=
  Erases (Option.map Taken.result) m x

theorem segmentTrace_erases (s : State) : Erases id (segmentTrace s) s.segment :=
  (Erases.ofExcept s.segment).after_record _

theorem nextTrace_erases (s : State) : Erases id (nextTrace s) s.next := by
  intro log
  rcases s with ⟨_ | ⟨segment, rest⟩⟩
  · rfl
  · rfl

theorem litTrace_erases (k : Str) (s : State) :
    ErasesTo (litTrace k s) (litParse k s : Except ParseFault (Parsed ρ)) := by
  apply Erases.after_record
  rw [litParse]
  split
  · exact Erases.pure none
  · apply (segmentTrace_erases s).bind
    intro segment
    simp only [id_eq]
    split
    · apply (nextTrace_erases s).bind
      intro next
      exact Erases.pure (some _)
    · exact Erases.pure none

theorem intTrace_erases (s : State) :
    ErasesTo (intTrace s) (intParse s : Except ParseFault (Parsed ρ)) := by
  apply Erases.after_record
  rw [intParse]
  split
  · exact Erases.pure none
  · apply (nextTrace_erases s).bind
    intro next
    apply (segmentTrace_erases s).bind
    intro segment
    simp only [id_eq]
    rcases stoi segment with (_ | _) | n
    · exact Erases.pure none
    · exact Erases.pure none
    · exact Erases.pure (some _)

theorem stringTrace_erases (s : State) :
    ErasesTo (stringTrace s) (stringParse s : Except ParseFault (Parsed ρ)) := by
  apply Erases.after_record
  rw [stringParse]
  split
  · exact Erases.pure none
  · apply (nextTrace_erases s).bind
    intro next
    apply (segmentTrace_erases s).bind
    intro segment
    exact Erases.pure (some _)

theorem allTrace_erases {parsers : List (Parser ρ)}
    (h : ∀ parser ∈ parsers, ∀ s, ErasesTo (trace parser s) (parse parser s))
    (curTuple : List (Val ρ)) (tokens : List Token) (s : State) :
    ErasesTo (allTrace parsers curTuple tokens s) (allParse parsers curTuple s) := by
  induction parsers generalizing curTuple tokens s with
  | nil =>
      rw [allTrace, allParse]
      exact (Erases.pure (some _)).after_record _
  | cons parser parsers ih =>
      rw [allTrace, allParse]
      apply Erases.after_record
      apply (h parser (by simp) s).bind
      intro taken
      rcases taken with _ | taken
      · exact Erases.pure none
      · exact ih (fun other hother => h other (by simp [hother])) _ _ _

theorem firstTrace_erases {parsers : List (Parser ρ)}
    (h : ∀ parser ∈ parsers, ∀ s, ErasesTo (trace parser s) (parse parser s)) (s : State) :
    ErasesTo (firstTrace parsers s) (firstParse parsers s) := by
  induction parsers with
  | nil =>
      rw [firstTrace, firstParse]
      exact (Erases.pure none).after_record _
  | cons parser parsers ih =>
      rw [firstTrace, firstParse]
      apply Erases.after_record
      apply (h parser (by simp) s).bind
      intro taken
      rcases taken with _ | taken
      · exact ih fun other hother => h other (by simp [hother])
      · exact Erases.pure (some _)

theorem construct_erases {make : List (Val ρ) → ρ} {m : Trace (Option (Taken ρ))}
    {x : Except ParseFault (Parsed ρ)} (h : ErasesTo m x) :
    ErasesTo (do return (← m).map (constructTaken make)) (do return construct make (← x)) := by
  apply h.bind
  intro taken
  rcases taken with _ | taken
  · exact Erases.pure none
  · exact Erases.pure (some _)

theorem trace_erases (parser : Parser ρ) (s : State) :
    ErasesTo (trace parser s) (parse parser s) := by
  induction parser using Parser.inductionOn generalizing s with
  | lit k =>
      rw [trace, parse]
      exact litTrace_erases k s
  | int =>
      rw [trace, parse]
      exact intTrace_erases s
  | string =>
      rw [trace, parse]
      exact stringTrace_erases s
  | any parsers ih | dyn parsers ih =>
      rw [trace, parse]
      exact firstTrace_erases ih s
  | all parsers ih =>
      rw [trace, parse]
      exact allTrace_erases ih [] [] s
  | cons make parsers ih | endpoint make parsers ih =>
      rw [trace, parse]
      exact construct_erases (allTrace_erases ih [] [] s)

theorem rootTrace_erases (parsers : List (Parser ρ)) (path : ApiPath) :
    Erases id (rootTrace parsers path) (rootParse parsers path) := by
  apply (allTrace_erases (fun parser _ => trace_erases parser) [] [] ⟨path⟩).bind
  intro taken
  rcases taken with _ | taken
  · exact Erases.pure none
  · simp only [Option.map_some]
    split
    · exact Erases.pure (some _)
    · exact Erases.pure none

/-! ### What it reaches and takes -/

/-- The state is what remains of the path, and it is asked for a segment or for
the next state only where something remains. -/
def Event.Within (path : ApiPath) : Event → Prop
  | .reached s => s.rest <:+ path
  | .segment s | .next s => s.rest <:+ path ∧ s.atEnd = false

def Admits : Token → Str → Prop
  | .lit k, segment => segment = k
  | .int, segment => ∃ n, stoi segment = .ok n
  | .string, _ => True

mutual

/-- The tokens on a branch of a grammar, which takes one alternative of each choice. -/
inductive Branch : Parser ρ → List Token → Prop where
  | token (token : Token) : Branch token.parser [token]
  | any {parsers parser tokens} : parser ∈ parsers → Branch parser tokens →
      Branch (.any parsers) tokens
  | dyn {parsers parser tokens} : parser ∈ parsers → Branch parser tokens →
      Branch (.dyn parsers) tokens
  | all {parsers tokens} : Branches parsers tokens → Branch (.all parsers) tokens
  | cons {make parsers tokens} : Branches parsers tokens → Branch (.cons make parsers) tokens
  | endpoint {make parsers tokens} : Branches parsers tokens →
      Branch (.endpoint make parsers) tokens

/-- The tokens on a branch of each parser, one after the other. -/
inductive Branches : List (Parser ρ) → List Token → Prop where
  | nil : Branches [] []
  | cons {parser parsers first rest} : Branch parser first → Branches parsers rest →
      Branches (parser :: parsers) (first ++ rest)

end

/-- From `s` to `s'` each of the tokens admits one segment. -/
def Leads (tokens : List Token) (s s' : State) : Prop :=
  ∃ segments, s.rest = segments ++ s'.rest ∧ List.Forall₂ Admits tokens segments

theorem Leads.refl (s : State) : Leads [] s s := ⟨[], rfl, .nil⟩

theorem Leads.token (token : Token) {segment : Str} (h : Admits token segment)
    (rest : List Str) : Leads [token] ⟨segment :: rest⟩ ⟨rest⟩ :=
  ⟨[segment], rfl, .cons h .nil⟩

theorem Leads.trans {first second : List Token} {s s' s'' : State} (h : Leads first s s')
    (h' : Leads second s' s'') : Leads (first ++ second) s s'' := by
  obtain ⟨segments, hsegments, hmatches⟩ := h
  obtain ⟨segments', hsegments', hmatches'⟩ := h'
  refine ⟨segments ++ segments', ?_, List.rel_append hmatches hmatches'⟩
  rw [hsegments, hsegments', List.append_assoc]

theorem Leads.suffix {tokens : List Token} {s s' : State} (h : Leads tokens s s') :
    s'.rest <:+ s.rest := by
  obtain ⟨segments, hsegments, -⟩ := h
  exact ⟨segments, hsegments.symm⟩

theorem Leads.length_eq {tokens : List Token} {s s' : State} (h : Leads tokens s s') :
    s.rest.length = s'.rest.length + tokens.length := by
  obtain ⟨segments, hsegments, hmatches⟩ := h
  rw [hsegments, List.length_append, hmatches.length_eq, Nat.add_comm]

/-- From within the path `m` throws nothing and stays within it, and what it
takes satisfies `Q`. -/
def Stays (path : ApiPath) (m : Trace (Option (Taken ρ))) (Q : Taken ρ → Prop) : Prop :=
  Keeps (Event.Within path) m fun taken => ∀ t ∈ taken, Q t

namespace Stays

variable {path : ApiPath} {Q Q' : Taken ρ → Prop}

theorem none : Stays path (pure none) Q :=
  Keeps.pure (by simp)

theorem some {t : Taken ρ} (h : Q t) : Stays path (pure (some t)) Q :=
  Keeps.pure (by simpa using h)

theorem mono {m : Trace (Option (Taken ρ))} (h : Stays path m Q) (hQ : ∀ t, Q t → Q' t) :
    Stays path m Q' :=
  Keeps.mono h fun _ htaken t ht => hQ t (htaken t ht)

end Stays

theorem keeps_reached {α : Type} {path : ApiPath} {s : State} {m : Trace α} {Q : α → Prop}
    (h : s.rest <:+ path) (hm : Keeps (Event.Within path) m Q) :
    Keeps (Event.Within path) (do record (.reached s); m) Q :=
  Keeps.after_record h hm

/-- What is taken from `s` is a branch, of those that `B` tells of. -/
def TakesFrom (s : State) (B : List Token → Prop) (t : Taken ρ) : Prop :=
  B t.tokens ∧ Leads t.tokens s t.result.nextState

def StaysWithin (parser : Parser ρ) : Prop :=
  ∀ (path : ApiPath) (s : State), s.rest <:+ path →
    Stays path (trace parser s) (TakesFrom s (Branch parser))

section Tokens

variable {path : ApiPath} {segment : Str} {rest : List Str}

theorem segmentTrace_keeps (h : segment :: rest <:+ path) :
    Keeps (Event.Within path) (segmentTrace ⟨segment :: rest⟩) (segment = ·) := by
  have hevent : Event.Within path (.segment ⟨segment :: rest⟩) := ⟨h, rfl⟩
  exact Keeps.after_record hevent (Keeps.pure rfl)

theorem nextTrace_keeps (h : segment :: rest <:+ path) :
    Keeps (Event.Within path) (nextTrace ⟨segment :: rest⟩) (· = ⟨rest⟩) := by
  have hevent : Event.Within path (.next ⟨segment :: rest⟩) := ⟨h, rfl⟩
  have hrest : rest <:+ path := (List.suffix_cons segment rest).trans h
  apply Keeps.after_record hevent
  apply Keeps.bind (Q := (· = ⟨rest⟩)) (Keeps.pure rfl)
  rintro _ rfl
  exact keeps_reached hrest (Keeps.pure rfl)

theorem lit_staysWithin (k : Str) : StaysWithin (.lit k : Parser ρ) := by
  rintro path ⟨_ | ⟨segment, rest⟩⟩ h
  · rw [trace]
    exact keeps_reached h Stays.none
  · rw [trace]
    apply keeps_reached h
    apply (segmentTrace_keeps h).bind
    rintro _ rfl
    split
    · next hsegment =>
        apply (nextTrace_keeps h).bind
        rintro _ rfl
        exact Stays.some ⟨.token (.lit k), .token (.lit k) hsegment rest⟩
    · exact Stays.none

theorem int_staysWithin : StaysWithin (.int : Parser ρ) := by
  rintro path ⟨_ | ⟨segment, rest⟩⟩ h
  · rw [trace]
    exact keeps_reached h Stays.none
  · rw [trace]
    apply keeps_reached h
    apply (nextTrace_keeps h).bind
    rintro _ rfl
    apply (segmentTrace_keeps h).bind
    rintro _ rfl
    rcases hstoi : stoi segment with (_ | _) | n
    · exact Stays.none
    · exact Stays.none
    · exact Stays.some ⟨.token .int, .token .int ⟨n, hstoi⟩ rest⟩

theorem string_staysWithin : StaysWithin (.string : Parser ρ) := by
  rintro path ⟨_ | ⟨segment, rest⟩⟩ h
  · rw [trace]
    exact keeps_reached h Stays.none
  · rw [trace]
    apply keeps_reached h
    apply (nextTrace_keeps h).bind
    rintro _ rfl
    apply (segmentTrace_keeps h).bind
    rintro _ rfl
    exact Stays.some ⟨.token .string, .token .string trivial rest⟩

end Tokens

section Combinators

variable {parsers : List (Parser ρ)} {path : ApiPath} {s : State}

theorem allTrace_stays (h : ∀ parser ∈ parsers, StaysWithin parser) (curTuple : List (Val ρ))
    (tokens : List Token) (hs : s.rest <:+ path) :
    Stays path (allTrace parsers curTuple tokens s) fun t =>
      ∃ rest, t.tokens = tokens ++ rest ∧ Branches parsers rest ∧
        Leads rest s t.result.nextState := by
  induction parsers generalizing curTuple tokens s with
  | nil =>
      rw [allTrace]
      exact keeps_reached hs (Stays.some ⟨[], by simp, .nil, .refl s⟩)
  | cons parser parsers ih =>
      rw [allTrace]
      apply keeps_reached hs
      apply (h parser (by simp) path s hs).bind
      rintro (_ | first) hfirst
      · exact Stays.none
      · obtain ⟨hbranch, hleads⟩ := hfirst first rfl
        have hrest := ih (fun other hother => h other (by simp [hother]))
          (curTuple ++ first.result.result) (tokens ++ first.tokens) (hleads.suffix.trans hs)
        apply hrest.mono
        rintro t ⟨rest, htokens, hbranches, hleads'⟩
        refine ⟨first.tokens ++ rest, ?_, .cons hbranch hbranches, hleads.trans hleads'⟩
        rw [htokens, List.append_assoc]

theorem allTrace_takes (h : ∀ parser ∈ parsers, StaysWithin parser) (hs : s.rest <:+ path) :
    Stays path (allTrace parsers [] [] s) (TakesFrom s (Branches parsers)) := by
  apply (allTrace_stays h [] [] hs).mono
  rintro t ⟨rest, htokens, hbranches, hleads⟩
  obtain rfl : t.tokens = rest := by simpa using htokens
  exact ⟨hbranches, hleads⟩

theorem firstTrace_takes (h : ∀ parser ∈ parsers, StaysWithin parser) (hs : s.rest <:+ path) :
    Stays path (firstTrace parsers s)
      (TakesFrom s fun tokens => ∃ parser ∈ parsers, Branch parser tokens) := by
  induction parsers with
  | nil =>
      rw [firstTrace]
      exact keeps_reached hs Stays.none
  | cons parser parsers ih =>
      rw [firstTrace]
      apply keeps_reached hs
      apply (h parser (by simp) path s hs).bind
      rintro (_ | first) hfirst
      -- a failed alternative leaves the state to the next one
      · apply Stays.mono (ih fun other hother => h other (by simp [hother]))
        rintro t ⟨⟨other, hother, hbranch⟩, hleads⟩
        exact ⟨⟨other, by simp [hother], hbranch⟩, hleads⟩
      · obtain ⟨hbranch, hleads⟩ := hfirst first rfl
        exact Stays.some ⟨⟨parser, by simp, hbranch⟩, hleads⟩

theorem construct_takes {make : List (Val ρ) → ρ} {m : Trace (Option (Taken ρ))}
    {B : List Token → Prop} (h : Stays path m (TakesFrom s B)) :
    Stays path (do return (← m).map (constructTaken make)) (TakesFrom s B) := by
  apply Keeps.bind h
  rintro (_ | taken) htaken
  · exact Stays.none
  · exact Stays.some (htaken taken rfl)

end Combinators

theorem staysWithin (parser : Parser ρ) : StaysWithin parser := by
  induction parser using Parser.inductionOn with
  | lit k => exact lit_staysWithin k
  | int => exact int_staysWithin
  | string => exact string_staysWithin
  | any parsers ih =>
      intro path s hs
      rw [trace]
      apply (firstTrace_takes ih hs).mono
      rintro t ⟨⟨parser, hparser, hbranch⟩, hleads⟩
      exact ⟨.any hparser hbranch, hleads⟩
  | dyn parsers ih =>
      intro path s hs
      rw [trace]
      apply (firstTrace_takes ih hs).mono
      rintro t ⟨⟨parser, hparser, hbranch⟩, hleads⟩
      exact ⟨.dyn hparser hbranch, hleads⟩
  | all parsers ih =>
      intro path s hs
      rw [trace]
      apply (allTrace_takes ih hs).mono
      rintro t ⟨hbranches, hleads⟩
      exact ⟨.all hbranches, hleads⟩
  | cons make parsers ih =>
      intro path s hs
      rw [trace]
      apply (construct_takes (allTrace_takes ih hs)).mono
      rintro t ⟨hbranches, hleads⟩
      exact ⟨.cons hbranches, hleads⟩
  | endpoint make parsers ih =>
      intro path s hs
      rw [trace]
      apply (construct_takes (allTrace_takes ih hs)).mono
      rintro t ⟨hbranches, hleads⟩
      exact ⟨.endpoint hbranches, hleads⟩

theorem rootTrace_keeps (parsers : List (Parser ρ)) (path : ApiPath) :
    Keeps (Event.Within path) (rootTrace parsers path) fun _ => True := by
  have hall := allTrace_takes (fun parser (_ : parser ∈ parsers) => staysWithin parser)
    (List.suffix_refl path)
  apply Keeps.bind hall
  rintro (_ | taken) -
  · exact Keeps.pure trivial
  · simp only
    split
    · exact Keeps.pure trivial
    · exact Keeps.pure trivial

/-- Whatever the grammar, nothing is thrown and nothing is read past the path;
and a success is shorter by one segment for each token of the branch it took,
and as long as before only where that branch has no token. -/
theorem stays_on_path :
    (∀ (parsers : List (Parser ρ)) (path : ApiPath), ∃ out log,
      rootTrace parsers path [] = .ok out log ∧ rootParse parsers path = .ok out ∧
        ∀ event ∈ log, event.Within path) ∧
    ∀ (parser : Parser ρ) (s : State), ∃ taken log,
      trace parser s [] = .ok taken log ∧ parse parser s = .ok (taken.map Taken.result) ∧
        (∀ event ∈ log, event.Within s.rest) ∧
        ∀ t ∈ taken, Branch parser t.tokens ∧ Leads t.tokens s t.result.nextState ∧
          t.result.nextState.rest <:+ s.rest ∧
            s.rest.length = t.result.nextState.rest.length + t.tokens.length := by
  constructor
  · intro parsers path
    obtain ⟨out, log, hrun, hwithin, -⟩ := rootTrace_keeps parsers path [] (by simp)
    refine ⟨out, log, hrun, ?_, hwithin⟩
    rw [← rootTrace_erases parsers path [], hrun]
    rfl
  · intro parser s
    obtain ⟨taken, log, hrun, hwithin, htaken⟩ :=
      staysWithin parser s.rest s (List.suffix_refl s.rest) [] (by simp)
    refine ⟨taken, log, hrun, ?_, hwithin, ?_⟩
    · rw [← trace_erases parser s [], hrun]
      rfl
    · intro t ht
      obtain ⟨hbranch, hleads⟩ := htaken t ht
      exact ⟨hbranch, hleads, hleads.suffix, hleads.length_eq⟩

end MvcBackend.PathBounds
