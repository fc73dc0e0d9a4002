import Mathlib

/-!
# Patterns with captures

Regular expressions over an alphabet, with numbered groups, as a backtracking matcher
reads them. A matcher tries the ways to match in order (`Pattern.run`): the left side of an
alternative before the right one, a greedy repetition with many symbols before few and a
lazy one with few before many. A search takes the first way at the first place at which
there is one (`Pattern.search`).

Which ways there are is a matter of the language alone (`Pattern.Matches`), so a search
fails exactly on texts without a match in them (`search_eq_none_iff`), and what it finds is
one of the matches (`search_found`).

A repetition is one of a set of symbols. That is enough for patterns whose repetitions are
not nested, and it needs no rule for repetitions of nothing.
-/

/-- A regular expression, with the numbers of its groups. It is generic in its symbols. -/
inductive Pattern (α : Type) where
  | empty
  | symbol (p : α → Bool)
  /-- zero or more symbols of a set -/
  | many (greedy : Bool) (p : α → Bool)
  | seq (r s : Pattern α)
  | alt (r s : Pattern α)
  | group (n : ℕ) (r : Pattern α)

namespace Pattern

variable {α : Type}

/-! ### The matcher -/

/-- A way to match: what is matched, what the groups hold, and what is left. -/
structure Way (α : Type) where
  taken : List α
  groups : List (ℕ × List α)
  rest : List α

/-- The ways to take symbols of a set, the shorter ones first. -/
def splits (p : α → Bool) : List α → List (List α × List α)
  | [] => [([], [])]
  | a :: w => ([], a :: w) :: if p a then (splits p w).map fun s => (a :: s.1, s.2) else []

/-- The ways to match at the front of a word, in the order in which they are tried. -/
def run : Pattern α → List α → List (Way α)
  | empty, w => [⟨[], [], w⟩]
  | symbol _, [] => []
  | symbol p, a :: w => if p a then [⟨[a], [], w⟩] else []
  | many greedy p, w =>
    ((if greedy then (splits p w).reverse else splits p w).map fun s => ⟨s.1, [], s.2⟩)
  | seq r s, w => (run r w).flatMap fun x => (run s x.rest).map fun y =>
      ⟨x.taken ++ y.taken, x.groups ++ y.groups, y.rest⟩
  | alt r s, w => run r w ++ run s w
  | group n r, w => (run r w).map fun x => { x with groups := (n, x.taken) :: x.groups }

/-- The first way to match at the first place. -/
def search (r : Pattern α) (w : List α) : Option (Way α) :=
  w.tails.findSome? fun tail => (run r tail).head?

/-- What a group holds. -/
def Way.group (x : Way α) (n : ℕ) : List α := ((x.groups.find? (·.1 = n)).map Prod.snd).getD []

/-! ### The language -/

/-- A word matches, with what the groups hold. -/
inductive Matches : Pattern α → List α → List (ℕ × List α) → Prop
  | empty : Matches empty [] []
  | symbol {p : α → Bool} {a : α} : p a = true → Matches (symbol p) [a] []
  | many {greedy : Bool} {p : α → Bool} {w : List α} : (∀ a ∈ w, p a = true) →
      Matches (many greedy p) w []
  | seq {r s : Pattern α} {v w : List α} {g g' : List (ℕ × List α)} : Matches r v g →
      Matches s w g' → Matches (seq r s) (v ++ w) (g ++ g')
  | left {r s : Pattern α} {w : List α} {g : List (ℕ × List α)} : Matches r w g →
      Matches (alt r s) w g
  | right {r s : Pattern α} {w : List α} {g : List (ℕ × List α)} : Matches s w g →
      Matches (alt r s) w g
  | group {n : ℕ} {r : Pattern α} {w : List α} {g : List (ℕ × List α)} : Matches r w g →
      Matches (group n r) w ((n, w) :: g)

/-- A split is a prefix of symbols of the set and what is behind it. -/
theorem mem_splits_iff {p : α → Bool} {w v rest : List α} :
    (v, rest) ∈ splits p w ↔ w = v ++ rest ∧ ∀ a ∈ v, p a = true := by
  induction w generalizing v with
  | nil =>
    rw [splits, List.mem_singleton, Prod.mk.injEq]
    refine ⟨?_, fun ⟨h, _⟩ => List.nil_eq_append_iff.mp h⟩
    rintro ⟨rfl, rfl⟩
    exact ⟨rfl, nofun⟩
  | cons a w ih =>
    rw [splits, List.mem_cons, Prod.mk.injEq]
    constructor
    · -- the empty prefix, or the first symbol with a prefix of the rest
      rintro (⟨rfl, rfl⟩ | h)
      · exact ⟨rfl, nofun⟩
      · split_ifs at h with hp
        · obtain ⟨⟨v, rest⟩, hmem, heq⟩ := List.mem_map.mp h
          obtain ⟨rfl, rfl⟩ := Prod.mk.inj heq
          obtain ⟨rfl, hall⟩ := ih.mp hmem
          exact ⟨rfl, List.forall_mem_cons.mpr ⟨hp, hall⟩⟩
        · cases h
    · rintro ⟨heq, hall⟩
      cases v with
      | nil => exact .inl ⟨rfl, heq.symm⟩
      | cons b v =>
        obtain ⟨rfl, hw⟩ := List.cons.inj heq
        obtain ⟨hp, hall⟩ := List.forall_mem_cons.mp hall
        rw [if_pos hp]
        exact .inr (List.mem_map.mpr ⟨(v, rest), ih.mpr ⟨hw, hall⟩, rfl⟩)

/-- **The ways of the matcher are the matches** at the front of the word. -/
theorem mem_run_iff {r : Pattern α} {w : List α} {x : Way α} :
    x ∈ run r w ↔ w = x.taken ++ x.rest ∧ Matches r x.taken x.groups := by
  -- by induction on the pattern, for all texts: each constructor has one rule of `Matches`
  induction r generalizing w x with
  | empty =>
    obtain ⟨taken, groups, rest⟩ := x
    rw [run, List.mem_singleton, Way.mk.injEq]
    constructor
    · rintro ⟨rfl, rfl, rfl⟩
      exact ⟨rfl, .empty⟩
    · rintro ⟨rfl, hm⟩
      cases hm
      exact ⟨rfl, rfl, rfl⟩
  | symbol p =>
    obtain ⟨taken, groups, rest⟩ := x
    cases w with
    | nil =>
      rw [run]
      refine iff_of_false List.not_mem_nil ?_
      rintro ⟨h, hm⟩
      cases hm
      cases h
    | cons a w =>
      rw [run]
      constructor
      · intro h
        split_ifs at h with hp
        · obtain ⟨rfl, rfl, rfl⟩ := Way.mk.inj (List.mem_singleton.mp h)
          exact ⟨rfl, .symbol hp⟩
        · cases h
      · rintro ⟨h, hm⟩
        cases hm with
        | symbol hp =>
          obtain ⟨rfl, rfl⟩ := List.cons.inj h
          rw [if_pos hp]
          exact List.mem_singleton_self _
  | many greedy p =>
    obtain ⟨taken, groups, rest⟩ := x
    have hmem : (⟨taken, groups, rest⟩ : Way α) ∈ run (many greedy p) w ↔
        (taken, rest) ∈ splits p w ∧ groups = [] := by
      rw [run, List.mem_map]
      -- greedy or lazy is a matter of the order, and not of which ways there are
      have hsplits : ∀ s, s ∈ (if greedy then (splits p w).reverse else splits p w) ↔
          s ∈ splits p w := fun s => by
        split_ifs
        · exact List.mem_reverse
        · exact Iff.rfl
      constructor
      · rintro ⟨s, hs, heq⟩
        obtain ⟨rfl, rfl, rfl⟩ := Way.mk.inj heq
        exact ⟨(hsplits s).mp hs, rfl⟩
      · rintro ⟨hs, rfl⟩
        exact ⟨(taken, rest), (hsplits _).mpr hs, rfl⟩
    rw [hmem, mem_splits_iff]
    constructor
    · rintro ⟨⟨h, hall⟩, rfl⟩
      exact ⟨h, .many hall⟩
    · rintro ⟨h, hm⟩
      cases hm with
      | many hall => exact ⟨⟨h, hall⟩, rfl⟩
  | seq r s ihr ihs =>
    obtain ⟨taken, groups, rest⟩ := x
    rw [run, List.mem_flatMap]
    constructor
    · -- a way through the first part, and one through the second from where that ends
      rintro ⟨x, hx, hmap⟩
      obtain ⟨y, hy, heq⟩ := List.mem_map.mp hmap
      obtain ⟨rfl, rfl, rfl⟩ := Way.mk.inj heq
      obtain ⟨rfl, hr⟩ := ihr.mp hx
      obtain ⟨hrest, hs⟩ := ihs.mp hy
      exact ⟨by rw [hrest, List.append_assoc], .seq hr hs⟩
    · rintro ⟨rfl, hm⟩
      cases hm with
      | @seq _ _ v v' g g' hr hs =>
        refine ⟨⟨v, g, v' ++ rest⟩, ihr.mpr ⟨List.append_assoc _ _ _, hr⟩, ?_⟩
        exact List.mem_map.mpr ⟨⟨v', g', rest⟩, ihs.mpr ⟨rfl, hs⟩, rfl⟩
  | alt r s ihr ihs =>
    rw [run, List.mem_append, ihr, ihs]
    constructor
    · rintro (⟨h, hm⟩ | ⟨h, hm⟩)
      · exact ⟨h, .left hm⟩
      · exact ⟨h, .right hm⟩
    · rintro ⟨h, hm⟩
      cases hm with
      | left hm => exact .inl ⟨h, hm⟩
      | right hm => exact .inr ⟨h, hm⟩
  | group n r ih =>
    obtain ⟨taken, groups, rest⟩ := x
    rw [run, List.mem_map]
    -- a group only notes what was matched inside of it
    change _ ↔ w = taken ++ rest ∧ Matches (group n r) taken groups
    constructor
    · rintro ⟨x, hx, heq⟩
      obtain ⟨rfl, rfl, rfl⟩ := Way.mk.inj heq
      obtain ⟨h, hm⟩ := ih.mp hx
      exact ⟨h, .group hm⟩
    · rintro ⟨h, hm⟩
      cases hm with
      | @group _ _ _ g hm => exact ⟨⟨taken, g, rest⟩, ih.mpr ⟨h, hm⟩, rfl⟩

/-! ### Searches -/

/-- **What a search finds** is a match somewhere in the text. -/
theorem search_found {r : Pattern α} {w : List α} {x : Way α} (h : search r w = some x) :
    ∃ front, w = front ++ (x.taken ++ x.rest) ∧ Matches r x.taken x.groups := by
  obtain ⟨tail, htail, hx⟩ := List.exists_of_findSome?_eq_some h
  obtain ⟨front, rfl⟩ := (List.mem_tails tail w).mp htail
  obtain ⟨rfl, hm⟩ := mem_run_iff.mp (List.mem_of_mem_head? hx)
  exact ⟨front, rfl, hm⟩

/-- **A search fails only on a text without a match.** -/
theorem search_eq_none_iff {r : Pattern α} {w : List α} :
    search r w = none ↔ ∀ v g, Matches r v g → ¬ v <:+: w := by
  constructor
  · intro h v g hm hin
    -- a match inside of the text would be found at its place
    obtain ⟨front, back, rfl⟩ := hin
    have hnone := List.findSome?_eq_none_iff.mp h (v ++ back)
      ((List.mem_tails _ _).mpr ⟨front, (List.append_assoc _ _ _).symm⟩)
    have hmem : (⟨v, g, back⟩ : Way α) ∈ run r (v ++ back) := mem_run_iff.mpr ⟨rfl, hm⟩
    rw [List.head?_eq_none_iff.mp hnone] at hmem
    cases hmem
  · intro h
    refine Option.eq_none_iff_forall_ne_some.mpr fun x hx => ?_
    obtain ⟨front, rfl, hm⟩ := search_found hx
    exact h _ _ hm ⟨front, x.rest, List.append_assoc _ _ _⟩

/-- The parts of a match of a sequence. -/
theorem matches_seq_iff {r s : Pattern α} {w : List α} {g : List (ℕ × List α)} :
    Matches (seq r s) w g ↔ ∃ v v' h h', w = v ++ v' ∧ g = h ++ h' ∧ Matches r v h ∧
      Matches s v' h' := by
  -- inversion of the one rule for a sequence
  constructor
  · intro hm
    cases hm with
    | seq hr hs => exact ⟨_, _, _, _, rfl, rfl, hr, hs⟩
  · rintro ⟨v, v', h, h', rfl, rfl, hr, hs⟩
    exact .seq hr hs

end Pattern
