import Mathlib.Order.Basic
import Mathlib.Data.List.Basic

/-!
Transactions with scope guards over an arbitrary store, in an environment that
may make any call to the store's engine fail. An action that opens one
transaction is related to the one step it makes on the store: it makes that
step or raises its error, or it raises a fault of the environment and leaves
the store alone.
-/

namespace MvcBackend.Library.Transaction

/-- What a store's engine enforces at commit, and the errors it raises. -/
class Engine (τ : Type) (ε φ : outParam Type) where
  Sound : τ → Prop
  decideSound : DecidablePred Sound
  raise : φ → ε
  alreadyInTransaction : ε
  notInTransaction : ε
  constraintViolation : ε

instance {τ ε φ : Type} [Engine τ ε φ] : DecidablePred (Engine.Sound : τ → Prop) :=
  Engine.decideSound

section World

variable (τ : Type) {ε φ : Type} [Engine τ ε φ]

/-- A committed store; an uncommitted one cannot break the constraints. -/
abbrev Store := { t : τ // Engine.Sound t }

/-- The committed store, the working copy of the current transaction if there
is one, the faults that the next engine calls will meet, and the number of
commits so far. -/
structure World where
  store : Store τ
  current : Option τ
  faults : List (Option φ)
  commits : Nat

abbrev Action (α : Type) := EStateM ε (World τ) α

end World

abbrev Program (τ ε α : Type) := StateT τ (Except ε) α

variable {τ ε φ α β : Type} [Engine τ ε φ]

def World.idle (store : Store τ) (faults : List (Option φ)) : World τ :=
  { store, current := none, faults, commits := 0 }

@[simp] theorem World.idle_current (store : Store τ) (faults : List (Option φ)) :
    (World.idle store faults).current = none := rfl

/-- One call to the engine, which meets the next fault if there is one. -/
def engineCall : Action τ Unit := fun w =>
  match w.faults with
  | [] => .ok () w
  | none :: rest => .ok () { w with faults := rest }
  | some fault :: rest => .error (Engine.raise τ fault) { w with faults := rest }

/-- Open a transaction, which one thread can do once at a time. -/
def begin : Action τ Unit := fun w =>
  match w.current with
  | some _ => .error (Engine.alreadyInTransaction τ) w
  | none =>
      match engineCall w with
      | .ok _ w' => .ok () { w' with current := some w'.store.val }
      | .error e w' => .error e w'

/-- One read or write of the working copy. -/
def access (p : Program τ ε α) : Action τ α := fun w =>
  match engineCall w with
  | .error e w' => .error e w'
  | .ok _ w' =>
      match w'.current with
      | none => .error (Engine.notInTransaction τ) w'
      | some t =>
          match p t with
          | .ok (a, t') => .ok a { w' with current := some t' }
          | .error e => .error e w'

/-- Make the working copy the committed store, if it is sound. -/
def commit : Action τ Unit := fun w =>
  match engineCall w with
  | .error e w' => .error e w'
  | .ok _ w' =>
      match w'.current with
      | none => .error (Engine.notInTransaction τ) w'
      | some t =>
          if sound : Engine.Sound t then
            .ok () { w' with store := ⟨t, sound⟩, current := none, commits := w'.commits + 1 }
          else .error (Engine.constraintViolation τ) w'

def rollback (w : World τ) : World τ := { w with current := none }

/-- A scope with a transaction guard: the guard opens the transaction, and its
destructor rolls back whatever was not committed, on return and on unwinding. -/
def transaction (body : Action τ α) : Action τ α := fun w =>
  match begin w with
  | .error e w' => .error e w'
  | .ok _ w' =>
      match body w' with
      | .ok a w'' => .ok a (rollback w'')
      | .error e w'' => .error e (rollback w'')

def worldAfter (m : Action τ α) (w : World τ) : World τ :=
  match m w with
  | .ok _ w' => w'
  | .error _ w' => w'

@[simp] theorem pure_apply (a : α) (w : World τ) :
    (pure a : Action τ α) w = .ok a w := rfl

@[simp] theorem throw_apply (e : ε) (w : World τ) :
    (throw e : Action τ α) w = .error e w := rfl

theorem bind_apply (m : Action τ α) (k : α → Action τ β) (w : World τ) :
    (m >>= k) w = match m w with
      | .ok a w' => k a w'
      | .error e w' => .error e w' := by
  cases h : m w <;> simp [bind, EStateM.bind, h]

theorem tryCatch_apply (m : Action τ α) (handler : ε → Action τ α) (w : World τ) :
    tryCatch m handler w = match m w with
      | .ok a w' => .ok a w'
      | .error e w' => handler e w' := by
  cases h : m w <;>
    simp [tryCatch, tryCatchThe, MonadExceptOf.tryCatch, EStateM.tryCatch,
      EStateM.Backtrackable.restore, EStateM.dummyRestore, h]

theorem ofExcept_apply (x : Except ε α) (w : World τ) :
    (MonadExcept.ofExcept x : Action τ α) w = match x with
      | .ok a => .ok a w
      | .error e => .error e w := by
  cases x <;> rfl

theorem ofExcept_eq_ok_iff {x : Except ε α} {a : α} {w w' : World τ} :
    (MonadExcept.ofExcept x : Action τ α) w = .ok a w' ↔ x = .ok a ∧ w = w' := by
  rw [ofExcept_apply]
  cases x <;> simp

/-- From the outside nothing happened, except that faults were met. -/
structure Unchanged (w w' : World τ) : Prop where
  store : w'.store = w.store
  commits : w'.commits = w.commits
  faults : w'.faults ⊆ w.faults

theorem Unchanged.refl (w : World τ) : Unchanged w w := ⟨rfl, rfl, List.Subset.refl _⟩

theorem Unchanged.trans {w₁ w₂ w₃ : World τ} (h : Unchanged w₁ w₂) (h' : Unchanged w₂ w₃) :
    Unchanged w₁ w₃ :=
  ⟨h'.store.trans h.store, h'.commits.trans h.commits, List.Subset.trans h'.faults h.faults⟩

theorem Unchanged.eq_idle {store : Store τ} {w : World τ}
    (h : Unchanged (World.idle store []) w) (hw : w.current = none) : w = World.idle store [] := by
  obtain ⟨store', current, faults, commits⟩ := w
  obtain ⟨hstore, hcommits, hfaults⟩ := h
  obtain rfl : store' = store := hstore
  obtain rfl : commits = 0 := hcommits
  obtain rfl : current = none := hw
  obtain rfl : faults = [] := List.subset_nil.mp hfaults
  rfl

/-- The error `e` is one the environment had in store, or the one that the
computation `r` ends in. -/
def Raised (w : World τ) (e : ε) (r : Except ε β) : Prop :=
  r = .error e ∨ ∃ fault, some fault ∈ w.faults ∧ e = Engine.raise τ fault

theorem Raised.mono {w w' : World τ} {e : ε} {r : Except ε β} (h : Raised w' e r)
    (hfaults : w'.faults ⊆ w.faults) : Raised w e r :=
  h.imp_right fun ⟨fault, hmem, he⟩ => ⟨fault, hfaults hmem, he⟩

/-- How a transaction left the store: as it was, or with `t` committed. -/
def Settled (w w' : World τ) : Option τ → Prop
  | none => Unchanged w w'
  | some t => w'.store.val = t ∧ w'.commits = w.commits + 1 ∧ w'.faults ⊆ w.faults

theorem Settled.faults {w w' : World τ} {o : Option τ} (h : Settled w w' o) :
    w'.faults ⊆ w.faults := by
  cases o with
  | none => exact Unchanged.faults h
  | some t => exact h.2.2

theorem Settled.after {w₁ w₂ w₃ : World τ} {o : Option τ} (h : Settled w₂ w₃ o)
    (hsame : Unchanged w₁ w₂) : Settled w₁ w₃ o := by
  cases o with
  | none => exact hsame.trans h
  | some t => exact ⟨h.1, by rw [h.2.1, hsame.commits], List.Subset.trans h.2.2 hsame.faults⟩

theorem engineCall_ok {w w' : World τ} {u : Unit} (hrun : engineCall w = .ok u w') :
    Unchanged w w' ∧ w'.current = w.current := by
  obtain ⟨store, current, faults, commits⟩ := w
  rcases faults with _ | ⟨_ | fault, rest⟩
  · cases hrun
    exact ⟨.refl _, rfl⟩
  · cases hrun
    exact ⟨⟨rfl, rfl, List.subset_cons_self _ _⟩, rfl⟩
  · cases hrun

theorem engineCall_error {w w' : World τ} {e : ε} (hrun : engineCall w = .error e w') :
    Unchanged w w' ∧ w'.current = w.current ∧
      ∃ fault, some fault ∈ w.faults ∧ e = Engine.raise τ fault := by
  obtain ⟨store, current, faults, commits⟩ := w
  rcases faults with _ | ⟨_ | fault, rest⟩
  · cases hrun
  · cases hrun
  · cases hrun
    exact ⟨⟨rfl, rfl, List.subset_cons_self _ _⟩, rfl, fault, by simp, rfl⟩

/-- Run inside a transaction whose working copy is `t`, `m` comes out as `r`:
a value and the next working copy, or an error. -/
def Inside (t : τ) (m : Action τ α) (r : Except ε (α × τ)) : Prop :=
  ∀ w, w.current = some t →
    match m w with
    | .ok a w' => Unchanged w w' ∧ ∃ t', w'.current = some t' ∧ r = .ok (a, t')
    | .error e w' => Unchanged w w' ∧ Raised w e r

/-- Run from the working copy `t` to the end of the transaction, `m` comes out
as `r`: a value and what was committed, or an error. -/
def Concludes (t : τ) (m : Action τ α) (r : Except ε (α × Option τ)) : Prop :=
  ∀ w, w.current = some t →
    match m w with
    | .ok a w' => ∃ o, r = .ok (a, o) ∧ Settled w w' o
    | .error e w' => Unchanged w w' ∧ Raised w e r

/-- Run with no transaction in progress, `m` is one step `q` on the store. -/
def Atomic (m : Action τ α) (q : τ → Except ε (α × Option τ)) : Prop :=
  ∀ w, w.current = none →
    match m w with
    | .ok a w' => w'.current = none ∧ ∃ o, q w.store.val = .ok (a, o) ∧ Settled w w' o
    | .error e w' => w'.current = none ∧ Unchanged w w' ∧ Raised w e (q w.store.val)

/-- Run with no transaction in progress, `m` only looks at the store. -/
def Observes (m : Action τ α) (q : τ → Except ε α) : Prop :=
  Atomic m fun t => (q t).map fun a => (a, none)

section Ends

variable {m : Action τ α} {w w' : World τ} {a : α} {e : ε} {t : τ}

theorem Inside.of_ok {r : Except ε (α × τ)} (h : Inside t m r) (hw : w.current = some t)
    (hrun : m w = .ok a w') :
    Unchanged w w' ∧ ∃ t', w'.current = some t' ∧ r = .ok (a, t') := by
  have hend := h w hw
  rwa [hrun] at hend

theorem Inside.of_error {r : Except ε (α × τ)} (h : Inside t m r) (hw : w.current = some t)
    (hrun : m w = .error e w') : Unchanged w w' ∧ Raised w e r := by
  have hend := h w hw
  rwa [hrun] at hend

theorem Concludes.of_ok {r : Except ε (α × Option τ)} (h : Concludes t m r)
    (hw : w.current = some t) (hrun : m w = .ok a w') :
    ∃ o, r = .ok (a, o) ∧ Settled w w' o := by
  have hend := h w hw
  rwa [hrun] at hend

theorem Concludes.of_error {r : Except ε (α × Option τ)} (h : Concludes t m r)
    (hw : w.current = some t) (hrun : m w = .error e w') : Unchanged w w' ∧ Raised w e r := by
  have hend := h w hw
  rwa [hrun] at hend

theorem Atomic.of_ok {q : τ → Except ε (α × Option τ)} (h : Atomic m q) (hw : w.current = none)
    (hrun : m w = .ok a w') :
    w'.current = none ∧ ∃ o, q w.store.val = .ok (a, o) ∧ Settled w w' o := by
  have hend := h w hw
  rwa [hrun] at hend

theorem Atomic.of_error {q : τ → Except ε (α × Option τ)} (h : Atomic m q)
    (hw : w.current = none) (hrun : m w = .error e w') :
    w'.current = none ∧ Unchanged w w' ∧ Raised w e (q w.store.val) := by
  have hend := h w hw
  rwa [hrun] at hend

theorem Observes.of_ok {q : τ → Except ε α} (h : Observes m q) (hw : w.current = none)
    (hrun : m w = .ok a w') : w'.current = none ∧ q w.store.val = .ok a ∧ Unchanged w w' := by
  obtain ⟨hcurrent, o, hq, hsettled⟩ := Atomic.of_ok h hw hrun
  rcases hfound : q w.store.val with e | a'
  · simp [hfound, Except.map] at hq
  · obtain ⟨rfl, rfl⟩ : a' = a ∧ none = o := by simpa [hfound, Except.map] using hq
    exact ⟨hcurrent, rfl, hsettled⟩

theorem Observes.of_error {q : τ → Except ε α} (h : Observes m q) (hw : w.current = none)
    (hrun : m w = .error e w') :
    w'.current = none ∧ Unchanged w w' ∧ Raised w e (q w.store.val) := by
  obtain ⟨hcurrent, hsame, hraised⟩ := Atomic.of_error h hw hrun
  refine ⟨hcurrent, hsame, hraised.imp_left fun hq => ?_⟩
  rcases hfound : q w.store.val with e' | a
  · simpa [hfound, Except.map] using hq
  · simp [hfound, Except.map] at hq

end Ends

namespace Inside

variable {t t' : τ}

theorem pure (a : α) : Inside t (pure a) (.ok (a, t)) := by
  intro w hw
  exact ⟨.refl w, t, hw, rfl⟩

theorem access {p : Program τ ε α} {r : Except ε (α × τ)} (hp : p t = r) :
    Inside t (access p) r := by
  subst hp
  intro w hw
  simp only [Transaction.access]
  rcases hrun : (engineCall w : EStateM.Result ε (World τ) Unit) with ⟨u, w'⟩ | ⟨e, w'⟩
  · obtain ⟨hsame, hcurrent⟩ := engineCall_ok hrun
    simp only [hcurrent, hw]
    rcases p t with e | ⟨a, t'⟩
    · exact ⟨hsame, .inl rfl⟩
    · exact ⟨⟨hsame.store, hsame.commits, hsame.faults⟩, t', rfl, rfl⟩
  · obtain ⟨hsame, -, hfault⟩ := engineCall_error hrun
    exact ⟨hsame, .inr hfault⟩

theorem bind {m : Action τ α} {k : α → Action τ β} {a : α} {r : Except ε (β × τ)}
    (hm : Inside t m (.ok (a, t'))) (hk : Inside t' (k a) r) : Inside t (m >>= k) r := by
  intro w hw
  rw [bind_apply]
  rcases hrun : m w with ⟨a', w'⟩ | ⟨e, w'⟩
  · obtain ⟨hsame, t'', hcurrent, heq⟩ := hm.of_ok hw hrun
    obtain ⟨rfl, rfl⟩ : a = a' ∧ t' = t'' := by simpa using heq
    simp only
    rcases hrun' : k a w' with ⟨b, w''⟩ | ⟨e, w''⟩
    · obtain ⟨hsame', hend⟩ := hk.of_ok hcurrent hrun'
      exact ⟨hsame.trans hsame', hend⟩
    · obtain ⟨hsame', hraised⟩ := hk.of_error hcurrent hrun'
      exact ⟨hsame.trans hsame', hraised.mono hsame.faults⟩
  · obtain ⟨hsame, hraised⟩ := hm.of_error hw hrun
    exact ⟨hsame, .inr (hraised.resolve_left (by simp))⟩

/-- A loop of reads that succeed reads all values and changes nothing. -/
theorem mapM {γ : Type} {f : γ → Action τ α} {value : γ → α} {xs : List γ}
    (h : ∀ x ∈ xs, Inside t (f x) (.ok (value x, t))) :
    Inside t (xs.mapM f) (.ok (xs.map value, t)) := by
  induction xs with
  | nil => exact Inside.pure []
  | cons x xs ih =>
      rw [List.mapM_cons]
      exact (h x (by simp)).bind ((ih fun y hy => h y (by simp [hy])).bind (Inside.pure _))

/-- A second guard on the same thread never opens its transaction. -/
theorem transaction (m : Action τ α) :
    Inside t (transaction m) (.error (Engine.alreadyInTransaction τ)) := by
  intro w hw
  simp only [Transaction.transaction, begin, hw]
  exact ⟨.refl w, .inl rfl⟩

end Inside

namespace Concludes

variable {t t' : τ}

theorem pure (a : α) : Concludes t (pure a) (.ok (a, none)) := by
  intro w _
  exact ⟨none, rfl, .refl w⟩

theorem commit (sound : Engine.Sound t) : Concludes t commit (.ok ((), some t)) := by
  intro w hw
  simp only [Transaction.commit]
  rcases hrun : (engineCall w : EStateM.Result ε (World τ) Unit) with ⟨u, w'⟩ | ⟨e, w'⟩
  · obtain ⟨hsame, hcurrent⟩ := engineCall_ok hrun
    simp only [hcurrent, hw, sound, ↓reduceDIte]
    exact ⟨some t, rfl, rfl, by rw [hsame.commits], hsame.faults⟩
  · obtain ⟨hsame, -, hfault⟩ := engineCall_error hrun
    exact ⟨hsame, .inr hfault⟩

/-- After the commit only a value is computed. -/
theorem map {m : Action τ α} {a : α} {o : Option τ} (h : Concludes t m (.ok (a, o)))
    (f : α → β) : Concludes t (m >>= fun a => Pure.pure (f a)) (.ok (f a, o)) := by
  intro w hw
  rw [bind_apply]
  rcases hrun : m w with ⟨a', w'⟩ | ⟨e, w'⟩
  · obtain ⟨o', heq, hsettled⟩ := h.of_ok hw hrun
    obtain ⟨rfl, rfl⟩ : a = a' ∧ o = o' := by simpa using heq
    exact ⟨o, rfl, hsettled⟩
  · obtain ⟨hsame, hraised⟩ := h.of_error hw hrun
    exact ⟨hsame, .inr (hraised.resolve_left (by simp))⟩

theorem bind {m : Action τ α} {k : α → Action τ β} {a : α} {r : Except ε (β × Option τ)}
    (hm : Inside t m (.ok (a, t'))) (hk : Concludes t' (k a) r) :
    Concludes t (m >>= k) r := by
  intro w hw
  rw [bind_apply]
  rcases hrun : m w with ⟨a', w'⟩ | ⟨e, w'⟩
  · obtain ⟨hsame, t'', hcurrent, heq⟩ := hm.of_ok hw hrun
    obtain ⟨rfl, rfl⟩ : a = a' ∧ t' = t'' := by simpa using heq
    simp only
    rcases hrun' : k a w' with ⟨b, w''⟩ | ⟨e, w''⟩
    · obtain ⟨o, hr, hsettled⟩ := hk.of_ok hcurrent hrun'
      exact ⟨o, hr, hsettled.after hsame⟩
    · obtain ⟨hsame', hraised⟩ := hk.of_error hcurrent hrun'
      exact ⟨hsame.trans hsame', hraised.mono hsame.faults⟩
  · obtain ⟨hsame, hraised⟩ := hm.of_error hw hrun
    exact ⟨hsame, .inr (hraised.resolve_left (by simp))⟩

theorem bind_error {m : Action τ α} {k : α → Action τ β} {e : ε}
    (hm : Inside t m (.error e)) : Concludes t (m >>= k) (.error e) := by
  intro w hw
  rw [bind_apply]
  rcases hrun : m w with ⟨a, w'⟩ | ⟨e', w'⟩
  · obtain ⟨_, _, _, heq⟩ := hm.of_ok hw hrun
    cases heq
  · obtain ⟨hsame, hraised⟩ := hm.of_error hw hrun
    exact ⟨hsame, hraised.imp_left fun heq => by simpa using heq⟩

end Concludes

namespace Atomic

theorem pure (a : α) : Atomic (pure a : Action τ α) fun _ => .ok (a, none) := by
  intro w hw
  exact ⟨hw, none, rfl, .refl w⟩

/-- A whole guarded scope is one step, and only sound stores matter to it. -/
theorem transaction {m : Action τ α} {q : τ → Except ε (α × Option τ)}
    (h : ∀ t, Engine.Sound t → Concludes t m (q t)) : Atomic (transaction m) q := by
  intro w hw
  simp only [Transaction.transaction, begin, hw]
  rcases hrun : (engineCall w : EStateM.Result ε (World τ) Unit) with ⟨u, w'⟩ | ⟨e, w'⟩
  · obtain ⟨hsame, -⟩ := engineCall_ok hrun
    simp only
    have hbody := h w'.store.val w'.store.property
    rw [hsame.store] at hbody
    have hopen : ({ w' with current := some w'.store.val } : World τ).current =
        some w.store.val := by rw [hsame.store]
    rcases hrun' : m { w' with current := some w'.store.val } with ⟨a, w''⟩ | ⟨e, w''⟩
    · obtain ⟨o, hq, hsettled⟩ := hbody.of_ok hopen hrun'
      refine ⟨rfl, o, hq, ?_⟩
      rcases o with _ | t
      · exact hsame.trans ⟨hsettled.store, hsettled.commits, hsettled.faults⟩
      · refine ⟨hsettled.1, ?_, List.Subset.trans hsettled.2.2 hsame.faults⟩
        rw [rollback, hsettled.2.1, hsame.commits]
    · obtain ⟨hsame', hraised⟩ := hbody.of_error hopen hrun'
      refine ⟨rfl, hsame.trans ⟨hsame'.store, hsame'.commits, hsame'.faults⟩, ?_⟩
      exact hraised.mono hsame.faults
  · obtain ⟨hsame, hcurrent, hfault⟩ := engineCall_error hrun
    exact ⟨hcurrent.trans hw, hsame, .inr hfault⟩

theorem throw (e : ε) : Atomic (throw e : Action τ α) fun _ => .error e := by
  intro w hw
  exact ⟨hw, .refl w, .inl rfl⟩

/-- What only looks at the store may come before the step. -/
theorem after {m : Action τ α} {q : τ → Except ε α} {k : α → Action τ β}
    {r : α → τ → Except ε (β × Option τ)} (hm : Observes m q) (hk : ∀ a, Atomic (k a) (r a)) :
    Atomic (m >>= k) fun t => q t >>= fun a => r a t := by
  intro w hw
  rw [bind_apply]
  rcases hrun : m w with ⟨a, w'⟩ | ⟨e, w'⟩
  · obtain ⟨hcurrent, hq, hsame⟩ := hm.of_ok hw hrun
    simp only [hq]
    rcases hrun' : k a w' with ⟨b, w''⟩ | ⟨e, w''⟩
    · obtain ⟨hcurrent', o, hr, hsettled⟩ := (hk a).of_ok hcurrent hrun'
      rw [hsame.store] at hr
      exact ⟨hcurrent', o, hr, hsettled.after hsame⟩
    · obtain ⟨hcurrent', hsame', hraised⟩ := (hk a).of_error hcurrent hrun'
      rw [hsame.store] at hraised
      exact ⟨hcurrent', hsame.trans hsame', hraised.mono hsame.faults⟩
  · obtain ⟨hcurrent, hsame, hraised⟩ := hm.of_error hw hrun
    exact ⟨hcurrent, hsame, hraised.imp_left fun hq => by simp only [hq]; rfl⟩

/-- What cannot fail once the step has committed may come after it. -/
theorem thenExcept {m : Action τ α} {q : τ → Except ε (α × Option τ)} {f : α → Except ε β}
    (hm : Atomic m q) (hf : ∀ t a t', q t = .ok (a, some t') → ∃ b, f a = .ok b) :
    Atomic (m >>= fun a => MonadExcept.ofExcept (f a))
      fun t => q t >>= fun result => (f result.1).map fun b => (b, result.2) := by
  intro w hw
  rw [bind_apply]
  rcases hrun : m w with ⟨a, w'⟩ | ⟨e, w'⟩
  · obtain ⟨hcurrent, o, hq, hsettled⟩ := hm.of_ok hw hrun
    simp only [hq]
    rcases hfa : f a with e | b
    · rcases o with _ | t'
      · exact ⟨hcurrent, hsettled, .inl (by simp [bind, Except.bind, hfa, Except.map])⟩
      · obtain ⟨b, hb⟩ := hf _ a t' hq
        simp [hfa] at hb
    · exact ⟨hcurrent, o, by simp [bind, Except.bind, hfa, Except.map], hsettled⟩
  · obtain ⟨hcurrent, hsame, hraised⟩ := hm.of_error hw hrun
    exact ⟨hcurrent, hsame, hraised.imp_left fun hq => by simp only [hq]; rfl⟩

variable {m : Action τ α} {q : τ → Except ε (α × Option τ)} {store : Store τ}

/-- Without faults the step is made. -/
theorem run_ok (h : Atomic m q) {a : α} {o : Option τ} (hq : q store.val = .ok (a, o)) :
    ∃ w, m (World.idle store []) = .ok a w ∧ w.current = none ∧
      Settled (World.idle store []) w o := by
  rcases hrun : m (World.idle store []) with ⟨a', w⟩ | ⟨e, w⟩
  · obtain ⟨hcurrent, o', hq', hsettled⟩ := h.of_ok rfl hrun
    obtain ⟨rfl, rfl⟩ : a = a' ∧ o = o' := by simpa [World.idle, hq] using hq'
    exact ⟨w, rfl, hcurrent, hsettled⟩
  · obtain ⟨-, -, herror | ⟨fault, hmem, -⟩⟩ := h.of_error rfl hrun
    · simp [World.idle, hq] at herror
    · simp [World.idle] at hmem

theorem run_error (h : Atomic m q) {e : ε} (hq : q store.val = .error e) :
    m (World.idle store []) = .error e (World.idle store []) := by
  rcases hrun : m (World.idle store []) with ⟨a, w⟩ | ⟨e', w⟩
  · obtain ⟨-, o, hq', -⟩ := h.of_ok rfl hrun
    simp [World.idle, hq] at hq'
  · obtain ⟨hcurrent, hsame, herror | ⟨fault, hmem, -⟩⟩ := h.of_error rfl hrun
    · obtain rfl : e = e' := by simpa [World.idle, hq] using herror
      rw [hsame.eq_idle hcurrent]
    · simp [World.idle] at hmem

/-- Without faults a step that commits nothing changes nothing. -/
theorem run_read (h : Atomic m q) {a : α} (hq : q store.val = .ok (a, none)) :
    m (World.idle store []) = .ok a (World.idle store []) := by
  obtain ⟨w, hrun, hcurrent, hsame⟩ := h.run_ok hq
  rw [hrun, hsame.eq_idle hcurrent]

end Atomic

namespace Observes

theorem pure (a : α) : Observes (pure a : Action τ α) fun _ => .ok a := Atomic.pure a

theorem ofExcept (x : Except ε α) : Observes (MonadExcept.ofExcept x : Action τ α) fun _ => x := by
  cases x with
  | ok a => exact Atomic.pure a
  | error e => exact Atomic.throw e

theorem engineCall : Observes (engineCall : Action τ Unit) fun _ => .ok () := by
  intro w hw
  rcases hrun : (Transaction.engineCall w : EStateM.Result ε (World τ) Unit) with
    ⟨u, w'⟩ | ⟨e, w'⟩
  · obtain ⟨hsame, hcurrent⟩ := engineCall_ok hrun
    exact ⟨hcurrent.trans hw, none, rfl, hsame⟩
  · obtain ⟨hsame, hcurrent, hfault⟩ := engineCall_error hrun
    exact ⟨hcurrent.trans hw, hsame, .inr hfault⟩

theorem bind {m : Action τ α} {q : τ → Except ε α} {k : α → Action τ β}
    {r : α → τ → Except ε β} (hm : Observes m q) (hk : ∀ a, Observes (k a) (r a)) :
    Observes (m >>= k) fun t => q t >>= fun a => r a t := by
  have h := Atomic.after hm hk
  have hstep : ∀ t, ((q t >>= fun a => r a t).map fun b => (b, (none : Option τ))) =
      q t >>= fun a => (r a t).map fun b => (b, none) := by
    intro t
    cases q t <;> rfl
  simpa only [Observes, hstep] using h

variable {m : Action τ α} {q : τ → Except ε α} {store : Store τ}

theorem run_ok (h : Observes m q) {a : α} (hq : q store.val = .ok a) :
    m (World.idle store []) = .ok a (World.idle store []) :=
  Atomic.run_read h (by simp [hq, Except.map])

theorem run_error (h : Observes m q) {e : ε} (hq : q store.val = .error e) :
    m (World.idle store []) = .error e (World.idle store []) :=
  Atomic.run_error h (by simp [hq, Except.map])

end Observes

theorem bind_eq_ok {x : Except ε α} {f : α → Except ε β} {b : β} :
    (x >>= f) = .ok b ↔ ∃ a, x = .ok a ∧ f a = .ok b := by
  cases x <;> simp [bind, Except.bind]

theorem bind_eq_error {x : Except ε α} {f : α → Except ε β} {e : ε} :
    (x >>= f) = .error e ↔ x = .error e ∨ ∃ a, x = .ok a ∧ f a = .error e := by
  cases x <;> simp [bind, Except.bind]

theorem mapError_eq_ok {δ : Type} {x : Except ε α} {f : ε → δ} {a : α} :
    x.mapError f = .ok a ↔ x = .ok a := by
  cases x <;> simp [Except.mapError]

end MvcBackend.Library.Transaction
