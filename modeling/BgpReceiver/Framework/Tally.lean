import BgpReceiver.Framework.OrdMap

/-!
# Counters kept one step at a time

A tally counts how often each key occurs in a collection, without the collection at
hand: adding an element raises its counter, removing one lowers it. A counter that
is missing stands for zero, and a counter that would fall below zero is an error
(`Tally.step`).

The counters agree with a list when each of them is the number of occurrences of
its key (`Tally.Totals`). Raising the counters of some keys is then what prepending
the keys to the list is, and lowering them is what taking them off the list is;
neither fails (`Totals.raise`, `Totals.lower`). The order of the list does not matter
(`Totals.perm`).

A grouped tally has a table of counters for each group, and drops a counter that
falls to zero (`Tally.Grouped`).
-/

namespace Tally

variable {κ γ : Type} [LinearOrder κ] [LinearOrder γ]

/-- A counter after one step up or down. -/
def step (up : Bool) (n : ℕ) : Option ℕ :=
  if up then some (n + 1) else if n = 0 then none else some (n - 1)

/-- Move the counter of a key. -/
def bump (up : Bool) (m : OrdMap κ ℕ) (k : κ) : Option (OrdMap κ ℕ) :=
  (step up ((m.find k).getD 0)).map fun n => m.insert k n

/-- The counters are the numbers of occurrences in a list. -/
def Totals (m : OrdMap κ ℕ) (l : List κ) : Prop := ∀ k, (m.find k).getD 0 = l.count k

theorem Totals.empty : Totals (OrdMap.empty : OrdMap κ ℕ) [] := fun _ => rfl

/-- The order of what is counted does not matter. -/
theorem Totals.perm {m : OrdMap κ ℕ} {l l' : List κ} (h : Totals m l) (hp : l.Perm l') :
    Totals m l' := fun k => by rw [h k, hp.count_eq]

/-- A counter that is set, and all others, where a missing one is zero. -/
theorem getD_insert (m : OrdMap κ ℕ) (k k' : κ) (n : ℕ) :
    ((m.insert k n).find k').getD 0 = if k' = k then n else (m.find k').getD 0 := by
  rw [OrdMap.find_insert]
  split <;> rfl

/-- One step up. -/
theorem Totals.bump_up {m : OrdMap κ ℕ} {l : List κ} (h : Totals m l) (k : κ) :
    ∃ m', bump true m k = some m' ∧ Totals m' (k :: l) := by
  refine ⟨m.insert k ((m.find k).getD 0 + 1), rfl, fun k' => ?_⟩
  rw [getD_insert, List.count_cons, h k, h k']
  by_cases hk : k' = k
  · subst hk
    simp
  · rw [if_neg hk, if_neg (by simpa using Ne.symm hk)]
    rfl

/-- One step down. -/
theorem Totals.bump_down {m : OrdMap κ ℕ} {k : κ} {l : List κ} (h : Totals m (k :: l)) :
    ∃ m', bump false m k = some m' ∧ Totals m' l := by
  have hk : (m.find k).getD 0 = l.count k + 1 := by
    rw [h k, List.count_cons_self]
  refine ⟨m.insert k (l.count k), ?_, fun k' => ?_⟩
  · rw [bump, hk]
    rfl
  · rw [getD_insert]
    by_cases hk' : k' = k
    · rw [if_pos hk', hk']
    · rw [if_neg hk', h k', List.count_cons_of_ne (Ne.symm hk')]

/-- **Raising** the counters of some keys. -/
theorem Totals.raise {m : OrdMap κ ℕ} {l : List κ} (h : Totals m l) (ks : List κ) :
    ∃ m', ks.foldlM (bump true) m = some m' ∧ Totals m' (ks ++ l) := by
  induction ks generalizing m l with
  | nil => exact ⟨m, rfl, h⟩
  | cons k ks ih =>
    obtain ⟨m₁, h₁, ht⟩ := h.bump_up k
    obtain ⟨m₂, h₂, ht⟩ := ih ht
    exact ⟨m₂, by rw [List.foldlM_cons, h₁]; exact h₂, ht.perm List.perm_middle⟩

/-- **Lowering** the counters of some keys. -/
theorem Totals.lower {m : OrdMap κ ℕ} {l : List κ} (ks : List κ) (h : Totals m (ks ++ l)) :
    ∃ m', ks.foldlM (bump false) m = some m' ∧ Totals m' l := by
  induction ks generalizing m with
  | nil => exact ⟨m, rfl, h⟩
  | cons k ks ih =>
    obtain ⟨m₁, h₁, ht⟩ := Totals.bump_down h
    obtain ⟨m₂, h₂, ht⟩ := ih ht
    exact ⟨m₂, by rw [List.foldlM_cons, h₁]; exact h₂, ht⟩

/-! ### Tables of counters -/

/-- Move the counter of a key and drop it when it is zero. -/
def bumpPruned (up : Bool) (m : OrdMap κ ℕ) (k : κ) : Option (OrdMap κ ℕ) :=
  (step up ((m.find k).getD 0)).map fun n =>
    if n = 0 then (m.insert k n).erase k else m.insert k n

/-- Move a counter in the table of a group that is there. -/
def bumpIn (up : Bool) (t : OrdMap γ (OrdMap κ ℕ)) (e : γ × κ) :
    Option (OrdMap γ (OrdMap κ ℕ)) := do
  let table ← t.find e.1
  let table ← bumpPruned up table e.2
  return t.insert e.1 table

/-- The tables of the given groups count a list of keys with their groups, and hold no
counter that is zero. -/
structure Grouped (groups : List γ) (t : OrdMap γ (OrdMap κ ℕ)) (l : List (γ × κ)) : Prop where
  present : ∀ g ∈ groups, ∃ table, t.find g = some table
  total : ∀ g table, t.find g = some table → ∀ k, (table.find k).getD 0 = l.count (g, k)
  positive : ∀ g table, t.find g = some table → ∀ k, table.find k ≠ some 0

/-- The order of what is grouped does not matter. -/
theorem Grouped.perm {groups : List γ} {t : OrdMap γ (OrdMap κ ℕ)} {l l' : List (γ × κ)}
    (h : Grouped groups t l) (hp : l.Perm l') : Grouped groups t l' where
  present := h.present
  total := fun g table hg k => by rw [h.total g table hg k, hp.count_eq]
  positive := h.positive

/-- **A list determines the tables** that count it. -/
theorem Grouped.unique {groups : List γ} {t t' : OrdMap γ (OrdMap κ ℕ)} {l : List (γ × κ)}
    (h : Grouped groups t l) (h' : Grouped groups t' l) {g : γ} (hg : g ∈ groups) :
    t.find g = t'.find g := by
  obtain ⟨table, ht⟩ := h.present g hg
  obtain ⟨table', ht'⟩ := h'.present g hg
  rw [ht, ht']
  refine congrArg some (OrdMap.ext_find fun k => ?_)
  have hcount := (h.total g table ht k).trans (h'.total g table' ht' k).symm
  have hpos := h.positive g table ht k
  have hpos' := h'.positive g table' ht' k
  -- a counter that is missing reads like a zero, and there are no zeros
  rcases hf : table.find k with _ | n
  · rcases hf' : table'.find k with _ | n'
    · rfl
    · rw [hf, hf'] at hcount
      exact absurd (hf'.trans (congrArg some hcount.symm)) hpos'
  · rcases hf' : table'.find k with _ | n'
    · rw [hf, hf'] at hcount
      exact absurd (hf.trans (congrArg some hcount)) hpos
    · rw [hf, hf'] at hcount
      exact congrArg some hcount

/-- A counter with its zero dropped reads the same. -/
theorem find_bumpPruned {up : Bool} {m m' : OrdMap κ ℕ} {k : κ} (h : bumpPruned up m k = some m') :
    ∃ n, step up ((m.find k).getD 0) = some n ∧
      ∀ k', m'.find k' = if k' = k then (if n = 0 then none else some n) else m.find k' := by
  unfold bumpPruned at h
  obtain ⟨n, hn, rfl⟩ := Option.map_eq_some_iff.mp h
  refine ⟨n, hn, fun k' => ?_⟩
  by_cases hz : n = 0
  · rw [if_pos hz, OrdMap.find_erase, OrdMap.find_insert]
    by_cases hk : k' = k
    · rw [if_pos hk, if_pos hk, if_pos hz]
    · rw [if_neg hk, if_neg hk, if_neg hk]
  · rw [if_neg hz, OrdMap.find_insert]
    by_cases hk : k' = k
    · rw [if_pos hk, if_pos hk, if_neg hz]
    · rw [if_neg hk, if_neg hk]

/-- Moving one counter, when the step does not fail and leads to the number of
occurrences in another list that agrees everywhere else. -/
theorem Grouped.bumpIn {groups : List γ} {t : OrdMap γ (OrdMap κ ℕ)} {l l' : List (γ × κ)}
    (h : Grouped groups t l) {up : Bool} {e : γ × κ} (he : e.1 ∈ groups)
    (hstep : step up (l.count e) = some (l'.count e))
    (hother : ∀ e', e' ≠ e → l'.count e' = l.count e') :
    ∃ t', bumpIn up t e = some t' ∧ Grouped groups t' l' := by
  obtain ⟨g, k⟩ := e
  obtain ⟨table, hg⟩ := h.present g he
  -- the counter in the table of the group is the count of the element
  have hcount : step up ((table.find k).getD 0) = some (l'.count (g, k)) := by
    rw [h.total g table hg k]
    exact hstep
  obtain ⟨table', ht⟩ : ∃ table', bumpPruned up table k = some table' := by
    rw [bumpPruned, hcount]
    exact ⟨_, rfl⟩
  obtain ⟨n, hn, hfind⟩ := find_bumpPruned ht
  rw [hcount] at hn
  obtain rfl := Option.some.inj hn
  -- the other groups, their totals and their counters are as before
  refine ⟨t.insert g table', ?_, ?_, ?_, ?_⟩
  · unfold Tally.bumpIn
    simp only [hg, Option.bind_eq_bind, Option.bind_some, ht]
    rfl
  · intro g' hg'
    rw [OrdMap.find_insert]
    split
    · exact ⟨_, rfl⟩
    · exact h.present g' hg'
  · intro g' table₁ hg' k'
    rw [OrdMap.find_insert] at hg'
    -- only the table of the group has changed, and in it one counter
    by_cases hgg : g' = g
    · rw [if_pos hgg] at hg'
      obtain rfl := Option.some.inj hg'
      rw [hfind, hgg]
      by_cases hk : k' = k
      · rw [if_pos hk, hk]
        split
        · next hz => exact hz.symm
        · rfl
      · rw [if_neg hk, h.total g table hg k', hother (g, k') fun he => hk (Prod.mk.inj he).2]
    · rw [if_neg hgg] at hg'
      rw [h.total g' table₁ hg' k', hother (g', k') fun he => hgg (Prod.mk.inj he).1]
  · intro g' table₁ hg' k'
    rw [OrdMap.find_insert] at hg'
    by_cases hgg : g' = g
    · rw [if_pos hgg] at hg'
      obtain rfl := Option.some.inj hg'
      rw [hfind]
      by_cases hk : k' = k
      · rw [if_pos hk]
        split
        · simp
        · next hz => simpa using hz
      · rw [if_neg hk]
        exact h.positive g table hg k'
    · rw [if_neg hgg] at hg'
      exact h.positive g' table₁ hg' k'

/-- **Raising** the counters of some keys in their groups. -/
theorem Grouped.raise {groups : List γ} {t : OrdMap γ (OrdMap κ ℕ)} {l : List (γ × κ)}
    (h : Grouped groups t l) (es : List (γ × κ)) (hes : ∀ e ∈ es, e.1 ∈ groups) :
    ∃ t', es.foldlM (Tally.bumpIn true) t = some t' ∧ Grouped groups t' (es ++ l) := by
  induction es generalizing t l with
  | nil => exact ⟨t, rfl, h⟩
  | cons e es ih =>
    have hup : step true (l.count e) = some ((e :: l).count e) := by
      rw [List.count_cons_self]
      rfl
    obtain ⟨t₁, h₁, hg⟩ := h.bumpIn (hes e List.mem_cons_self) hup
      fun e' he => List.count_cons_of_ne (Ne.symm he)
    obtain ⟨t₂, h₂, hg⟩ := ih hg fun e he => hes e (List.mem_cons_of_mem _ he)
    exact ⟨t₂, by rw [List.foldlM_cons, h₁]; exact h₂, hg.perm List.perm_middle⟩

/-- **Lowering** the counters of some keys in their groups. -/
theorem Grouped.lower {groups : List γ} {t : OrdMap γ (OrdMap κ ℕ)} {l : List (γ × κ)}
    (es : List (γ × κ)) (h : Grouped groups t (es ++ l)) (hes : ∀ e ∈ es, e.1 ∈ groups) :
    ∃ t', es.foldlM (Tally.bumpIn false) t = some t' ∧ Grouped groups t' l := by
  induction es generalizing t with
  | nil => exact ⟨t, rfl, h⟩
  | cons e es ih =>
    have hdown : step false ((e :: (es ++ l)).count e) = some ((es ++ l).count e) := by
      rw [List.count_cons_self]
      rfl
    obtain ⟨t₁, h₁, hg⟩ := h.bumpIn (hes e List.mem_cons_self) hdown
      fun e' he => (List.count_cons_of_ne (Ne.symm he)).symm
    obtain ⟨t₂, h₂, hg⟩ := ih hg fun e he => hes e (List.mem_cons_of_mem _ he)
    exact ⟨t₂, by rw [List.foldlM_cons, h₁]; exact h₂, hg⟩

/-- Clearing every table. -/
theorem Grouped.clear {groups : List γ} {t : OrdMap γ (OrdMap κ ℕ)} {l : List (γ × κ)}
    (h : Grouped groups t l) :
    Grouped groups (t.mapValues fun _ => (OrdMap.empty : OrdMap κ ℕ)) [] where
  present := by
    intro g hg
    obtain ⟨table, ht⟩ := h.present g hg
    exact ⟨OrdMap.empty, by rw [OrdMap.find_mapValues, ht]; rfl⟩
  total := by
    intro g table ht k
    rw [OrdMap.find_mapValues] at ht
    obtain ⟨_, -, rfl⟩ := Option.map_eq_some_iff.mp ht
    rfl
  positive := by
    intro g table ht k
    rw [OrdMap.find_mapValues] at ht
    obtain ⟨_, -, rfl⟩ := Option.map_eq_some_iff.mp ht
    rw [OrdMap.find_empty]
    simp

end Tally
