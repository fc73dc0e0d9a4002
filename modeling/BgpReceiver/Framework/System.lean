import Mathlib

/-!
# Labelled transition systems

A `System` has initial states and labelled steps. A run is a list of labels that
leads from one state to another, built at its end, so that an induction over a run
follows the steps in the order in which they happen (`System.Run`).

What holds of the initial states and is kept by every step holds of every reachable
state (`System.Invariant.reachable`). What rests on invariants that are already known is
proved by induction over reachable states (`System.Reachable.induction`), and it may
be asked of the steps that meet a condition only, in the system restricted to them
(`System.restrict`).

What a property says about the past is kept in a history variable, which every step
updates and no step reads (`System.observe`). A detailed system is related to a coarser
one by a function on states under which each of its steps is a step of the coarser one
or leaves its state alone (`System.Run.image`).

Where a state lists its components, such as the tasks of a program, a step replaces one
of them or adds one.
-/

/-- A transition system: the states in which it may begin, and its labelled steps. -/
structure System (State Label : Type) where
  init : State → Prop
  step : State → Label → State → Prop

namespace System

variable {State Label : Type} {S : System State Label}

/-- A run from one state to another, with the labels of its steps. -/
inductive Run (S : System State Label) (s : State) : List Label → State → Prop
  | nil : Run S s [] s
  | snoc {ls : List Label} {s' s'' : State} {l : Label} :
      Run S s ls s' → S.step s' l s'' → Run S s (ls ++ [l]) s''

/-- The states that a run from an initial state leads to. -/
def Reachable (S : System State Label) (s : State) : Prop :=
  ∃ s₀ ls, S.init s₀ ∧ S.Run s₀ ls s

theorem Run.single {s s' : State} {l : Label} (h : S.step s l s') : S.Run s [l] s' :=
  Run.nil.snoc h

theorem Run.append {s s' s'' : State} {ls ls' : List Label} (h : S.Run s ls s')
    (h' : S.Run s' ls' s'') : S.Run s (ls ++ ls') s'' := by
  induction h' with
  | nil => rwa [List.append_nil]
  | snoc _ hs ih =>
    rw [← List.append_assoc]
    exact ih.snoc hs

theorem Reachable.init {s : State} (h : S.init s) : S.Reachable s := ⟨s, [], h, .nil⟩

/-- A run from a reachable state leads to reachable states only. -/
theorem Reachable.run {s s' : State} {ls : List Label} (h : S.Reachable s) (hr : S.Run s ls s') :
    S.Reachable s' := by
  obtain ⟨s₀, ls₀, h₀, hr₀⟩ := h
  exact ⟨s₀, ls₀ ++ ls, h₀, hr₀.append hr⟩

/-- A step from a reachable state leads to one. -/
theorem Reachable.step {s s' : State} {l : Label} (h : S.Reachable s) (hs : S.step s l s') :
    S.Reachable s' :=
  h.run (.single hs)

/-- A run of one system is a run of any system that has its steps. -/
theorem Run.mono {T : System State Label} (h : ∀ s l s', S.step s l s' → T.step s l s')
    {s s' : State} {ls : List Label} (hr : S.Run s ls s') : T.Run s ls s' := by
  induction hr with
  | nil => exact .nil
  | snoc _ hl ih => exact ih.snoc (h _ _ _ hl)

/-- A system with more beginnings and more steps reaches more states. -/
theorem Reachable.mono {T : System State Label} (hinit : ∀ s, S.init s → T.init s)
    (h : ∀ s l s', S.step s l s' → T.step s l s') {s : State} (hs : S.Reachable s) :
    T.Reachable s := by
  obtain ⟨s₀, ls, h₀, hr⟩ := hs
  exact ⟨s₀, ls, hinit s₀ h₀, hr.mono h⟩

/-- What every step keeps, every run keeps. -/
theorem Run.preserves {P : State → Prop} (hstep : ∀ s l s', P s → S.step s l s' → P s')
    {s s' : State} {ls : List Label} (h : S.Run s ls s') (hs : P s) : P s' := by
  induction h with
  | nil => exact hs
  | snoc _ hl ih => exact hstep _ _ _ ih hl

/-- An invariant holds at first and is kept by every step. -/
structure Invariant (S : System State Label) (P : State → Prop) : Prop where
  init : ∀ s, S.init s → P s
  step : ∀ s l s', P s → S.step s l s' → P s'

/-- **Invariants hold of every reachable state.** -/
theorem Invariant.reachable {P : State → Prop} (h : S.Invariant P) {s : State}
    (hs : S.Reachable s) : P s := by
  obtain ⟨s₀, ls, h₀, hr⟩ := hs
  exact hr.preserves h.step (h.init s₀ h₀)

/-- **Induction over reachable states**, for what rests on invariants that are known
of them already. -/
theorem Reachable.induction {P : State → Prop} (hinit : ∀ s, S.init s → P s)
    (hstep : ∀ s l s', S.Reachable s → P s → S.step s l s' → P s') {s : State}
    (h : S.Reachable s) : P s := by
  obtain ⟨s₀, ls, h₀, hr⟩ := h
  induction hr with
  | nil => exact hinit s₀ h₀
  | snoc hr hl ih => exact hstep _ _ _ ⟨s₀, _, h₀, hr⟩ ih hl

/-- The system with the steps that meet a condition only. -/
def restrict (S : System State Label) (ok : State → Label → Prop) : System State Label where
  init := S.init
  step := fun s l s' => ok s l ∧ S.step s l s'

theorem Run.of_restrict {ok : State → Label → Prop} {s s' : State} {ls : List Label}
    (h : (S.restrict ok).Run s ls s') : S.Run s ls s' :=
  Run.mono (S := S.restrict ok) (T := S) (fun _ _ _ hs => hs.2) h

/-- What is reachable under a condition is reachable. -/
theorem Reachable.of_restrict {ok : State → Label → Prop} {s : State}
    (h : (S.restrict ok).Reachable s) : S.Reachable s :=
  Reachable.mono (S := S.restrict ok) (T := S) (fun _ h₀ => h₀) (fun _ _ _ hs => hs.2) h

/-! ### History variables -/

section Observe

variable {History : Type} (start : State → History → Prop)
  (next : History → State → Label → State → History)

/-- The system with a history variable. -/
def observe (S : System State Label) : System (State × History) Label where
  init := fun p => S.init p.1 ∧ start p.1 p.2
  step := fun p l p' => S.step p.1 l p'.1 ∧ p'.2 = next p.2 p.1 l p'.1

variable {start next}

/-- The history variable rules no run out. -/
theorem Run.observed {s s' : State} {ls : List Label} (h : S.Run s ls s') (r : History) :
    ∃ r', (S.observe start next).Run (s, r) ls (s', r') := by
  induction h with
  | nil => exact ⟨r, .nil⟩
  | snoc _ hs ih =>
    obtain ⟨r', hr⟩ := ih
    exact ⟨next r' _ _ _, hr.snoc ⟨hs, rfl⟩⟩

end Observe

/-! ### Refinement -/

/-- **Every run of the detailed system is one of the coarser system**, when the steps
from states with the invariant are, or leave the coarser state alone. -/
theorem Run.image {State' Label' : Type} {T : System State' Label'} {f : State → State'}
    {P : State → Prop} (hinv : ∀ s l s', P s → S.step s l s' → P s')
    (hstep : ∀ s l s', P s → S.step s l s' → f s' = f s ∨ ∃ l', T.step (f s) l' (f s'))
    {s s' : State} {ls : List Label} (h : S.Run s ls s') (hs : P s) :
    ∃ ls', T.Run (f s) ls' (f s') := by
  induction h with
  | nil => exact ⟨[], .nil⟩
  | snoc hr hl ih =>
    obtain ⟨ls', ih⟩ := ih
    rcases hstep _ _ _ (hr.preserves hinv hs) hl with heq | ⟨l', hl'⟩
    · rw [heq]
      exact ⟨ls', ih⟩
    · exact ⟨_, ih.snoc hl'⟩

/-! ### Lists of components -/

/-- An entry of a list in which one has been replaced. -/
theorem getElem?_set_cases {α : Type} {l : List α} {i n : ℕ} {a b : α}
    (h : (l.set i a)[n]? = some b) : (n = i ∧ b = a) ∨ (n ≠ i ∧ l[n]? = some b) := by
  rw [List.getElem?_set] at h
  split_ifs at h with hi hlen
  · exact Or.inl ⟨hi.symm, (Option.some.inj h).symm⟩
  · exact Or.inr ⟨Ne.symm hi, h⟩

/-- A list that is written where it has an element has the new one there. -/
theorem getElem?_set_self_of {α : Type} {l : List α} {i : ℕ} {a b : α} (h : l[i]? = some b) :
    (l.set i a)[i]? = some a :=
  List.getElem?_set_self (List.getElem?_eq_some_iff.mp h).1

/-- An entry of a list that has got one more. -/
theorem getElem?_concat_cases {α : Type} {l : List α} {n : ℕ} {a b : α}
    (h : (l ++ [a])[n]? = some b) : (n = l.length ∧ b = a) ∨ l[n]? = some b := by
  rw [List.getElem?_append] at h
  split_ifs at h with hn
  · exact Or.inr h
  · obtain ⟨hlt, hget⟩ := List.getElem?_eq_some_iff.mp h
    rw [List.length_singleton] at hlt
    exact Or.inl ⟨by omega, by simpa using hget.symm⟩

end System
