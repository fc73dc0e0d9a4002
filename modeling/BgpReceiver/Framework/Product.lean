import BgpReceiver.Framework.System

/-!
# Two systems side by side

In a product of two systems each step is a step of one of them or of both at once; which
steps go together is a relation on the labels, and may depend on the states
(`System.product`). A run of the product is a run of each of the two, when the labels of
the other one are left out (`System.Run.left`, `System.Run.right`), so that what has been
proved of the two by themselves holds in the product.
-/

namespace System

variable {State Label State' Label' : Type}

/-- A step, or none. -/
def Moves (S : System State Label) (s : State) : Option Label → State → Prop
  | none, s' => s' = s
  | some l, s' => S.step s l s'

/-- The product, with the steps that may go together. -/
def product (S : System State Label) (T : System State' Label')
    (joint : State → State' → Option Label → Option Label' → Prop) :
    System (State × State') (Option Label × Option Label') where
  init := fun p => S.init p.1 ∧ T.init p.2
  step := fun p l p' => joint p.1 p.2 l.1 l.2 ∧ S.Moves p.1 l.1 p'.1 ∧ T.Moves p.2 l.2 p'.2

variable {S : System State Label} {T : System State' Label'}
  {joint : State → State' → Option Label → Option Label' → Prop}

/-- The labels of the one system. -/
def lefts (ls : List (Option Label × Option Label')) : List Label := ls.filterMap Prod.fst

/-- The labels of the other one. -/
def rights (ls : List (Option Label × Option Label')) : List Label' := ls.filterMap Prod.snd

theorem lefts_concat (ls : List (Option Label × Option Label')) (l : Option Label × Option Label') :
    lefts (ls ++ [l]) = lefts ls ++ l.1.toList := by
  rw [lefts, List.filterMap_append]
  obtain ⟨a, b⟩ := l
  cases a <;> rfl

theorem rights_concat (ls : List (Option Label × Option Label'))
    (l : Option Label × Option Label') : rights (ls ++ [l]) = rights ls ++ l.2.toList := by
  rw [rights, List.filterMap_append]
  obtain ⟨a, b⟩ := l
  cases b <;> rfl

/-- A run goes on by a move, which is a step or none. -/
theorem Run.moves {s s' s'' : State} {ls : List Label} {l : Option Label} (h : S.Run s ls s')
    (hl : S.Moves s' l s'') : S.Run s (ls ++ l.toList) s'' := by
  cases l with
  | none =>
    obtain rfl : s'' = s' := hl
    rwa [Option.toList_none, List.append_nil]
  | some l => exact h.snoc hl

/-- **A run of the product is a run of the one system.** -/
theorem Run.left {p p' : State × State'} {ls : List (Option Label × Option Label')}
    (h : (S.product T joint).Run p ls p') : S.Run p.1 (lefts ls) p'.1 := by
  induction h with
  | nil => exact .nil
  | snoc _ hs ih =>
    rw [lefts_concat]
    exact ih.moves hs.2.1

/-- **And a run of the other one.** -/
theorem Run.right {p p' : State × State'} {ls : List (Option Label × Option Label')}
    (h : (S.product T joint).Run p ls p') : T.Run p.2 (rights ls) p'.2 := by
  induction h with
  | nil => exact .nil
  | snoc _ hs ih =>
    rw [rights_concat]
    exact ih.moves hs.2.2

end System
