import Mathlib

/-!
# Interning with reference counts

An arc is a shared value: the address of its allocation, and the value that is there. A pool
hands out one arc for every value (`ArcPool.intern`), so that whoever has the same value
shares the allocation, and gives up the arcs that nobody else holds (`ArcPool.collect`): an
arc is held by the pool and by its `holders`, and the strong count is the number of both.

Addresses come from a counter, and a pool that is dropped does not give them back
(`ArcPool.reset`), for there may be holders left.

`Sound` is what all operations keep: the pool has one arc for a value, and an address has one
arc among the pool and the holders. The strong count then says whether an arc of the pool is
among the holders (`mem_collect_iff`).
-/

namespace Interning

/-- A shared value, at the address of its allocation. -/
structure Arc (α : Type) where
  addr : ℕ
  value : α
  deriving DecidableEq

/-- The pooled arcs, and the address of the next allocation. -/
structure ArcPool (α : Type) where
  arcs : List (Arc α)
  next : ℕ

namespace ArcPool

variable {α : Type} [DecidableEq α]

/-- A pool with nothing in it. -/
def empty : ArcPool α := ⟨[], 0⟩

/-- The values that are in the pool, one for each allocation. -/
def values (p : ArcPool α) : List α := p.arcs.map Arc.value

/-- The arc of a value, which is allocated when the pool does not have it. -/
def intern (p : ArcPool α) (v : α) : Arc α × ArcPool α :=
  match p.arcs.find? fun a => a.value = v with
  | some a => (a, p)
  | none => (⟨p.next, v⟩, ⟨p.arcs ++ [⟨p.next, v⟩], p.next + 1⟩)

/-- How often an allocation is referred to. -/
def strongCount (p : ArcPool α) (holders : List (Arc α)) (a : Arc α) : ℕ :=
  (p.arcs ++ holders).countP fun b => b.addr = a.addr

/-- Keep the arcs that are referred to more than once. -/
def collect (p : ArcPool α) (holders : List (Arc α)) : ArcPool α :=
  { p with arcs := p.arcs.filter fun a => 1 < p.strongCount holders a }

/-- The pool is dropped, and a new one comes in its place. -/
def reset (p : ArcPool α) : ArcPool α := ⟨[], p.next⟩

end ArcPool

variable {α : Type} {p : ArcPool α} {holders holders' : List (Arc α)} {a b : Arc α} {v : α}

/-! ### What the operations keep -/

/-- How a pool stands to those who hold its arcs. -/
structure Sound (p : ArcPool α) (holders : List (Arc α)) : Prop where
  /-- A value has one arc in the pool. -/
  distinct : p.values.Nodup
  /-- Addresses in use have been given out. -/
  allocated : ∀ a, a ∈ p.arcs ∨ a ∈ holders → a.addr < p.next
  /-- An address has one arc. -/
  same : ∀ a b, a ∈ p.arcs ∨ a ∈ holders → b ∈ p.arcs ∨ b ∈ holders → a.addr = b.addr → a = b

/-- An empty pool is sound when nobody holds anything. -/
theorem sound_empty : Sound (ArcPool.empty : ArcPool α) [] where
  distinct := List.nodup_nil
  allocated := by simp [ArcPool.empty]
  same := by simp [ArcPool.empty]

/-- A handle that is dropped does no harm. -/
theorem Sound.mono (h : Sound p holders) (hsub : holders' ⊆ holders) : Sound p holders' where
  distinct := h.distinct
  allocated := fun a ha => h.allocated a (ha.imp_right fun ha => hsub ha)
  same := fun a b ha hb =>
    h.same a b (ha.imp_right fun ha => hsub ha) (hb.imp_right fun hb => hsub hb)

/-- A pool that is thrown away leaves its handles valid: the numbers go on from where they were. -/
theorem Sound.reset (h : Sound p holders) : Sound p.reset holders where
  distinct := List.nodup_nil
  allocated := fun a ha => h.allocated a (ha.imp_left fun ha => absurd ha List.not_mem_nil)
  same := fun a b ha hb => h.same a b (ha.imp_left fun ha => absurd ha List.not_mem_nil)
    (hb.imp_left fun hb => absurd hb List.not_mem_nil)

/-- Two arcs of the pool with one value are one. -/
theorem Sound.eq_of_value (h : Sound p holders) (ha : a ∈ p.arcs) (hb : b ∈ p.arcs)
    (hv : a.value = b.value) : a = b :=
  List.inj_on_of_nodup_map h.distinct ha hb hv

/-! ### Interning -/

section

variable [DecidableEq α]

/-- The pool has the value, or an arc is allocated for it. -/
theorem intern_cases (p : ArcPool α) (v : α) :
    (∃ a ∈ p.arcs, a.value = v ∧ p.intern v = (a, p)) ∨
      v ∉ p.values ∧ p.intern v = (⟨p.next, v⟩, ⟨p.arcs ++ [⟨p.next, v⟩], p.next + 1⟩) := by
  unfold ArcPool.intern
  cases hf : p.arcs.find? fun a => a.value = v with
  | some a =>
    exact Or.inl ⟨a, List.mem_of_find?_eq_some hf, by simpa using List.find?_some hf, rfl⟩
  | none =>
    refine Or.inr ⟨fun hmem => ?_, rfl⟩
    obtain ⟨a, ha, hv⟩ := List.mem_map.mp hmem
    exact absurd hv (by simpa using List.find?_eq_none.mp hf a ha)

/-- **The arc that is handed out** has the value, and is in the pool. -/
theorem intern_spec (p : ArcPool α) (v : α) :
    (p.intern v).1.value = v ∧ (p.intern v).1 ∈ (p.intern v).2.arcs := by
  rcases intern_cases p v with ⟨a, ha, hv, h⟩ | ⟨-, h⟩
  · rw [h]
    exact ⟨hv, ha⟩
  · rw [h]
    exact ⟨rfl, List.mem_append_right _ (List.mem_singleton_self _)⟩

/-- No allocation leaves the pool when a value is interned. -/
theorem subset_intern (p : ArcPool α) (v : α) : p.arcs ⊆ (p.intern v).2.arcs := by
  rcases intern_cases p v with ⟨a, -, -, h⟩ | ⟨-, h⟩
  · rw [h]
    exact List.Subset.refl _
  · rw [h]
    exact List.subset_append_left _ _

/-- A value is added when it is new, and only then. -/
theorem values_intern (p : ArcPool α) (v : α) :
    (p.intern v).2.values = if v ∈ p.values then p.values else p.values ++ [v] := by
  rcases intern_cases p v with ⟨a, ha, hv, h⟩ | ⟨hv, h⟩
  · have hmem : v ∈ p.values := List.mem_map.mpr ⟨a, ha, hv⟩
    rw [h, if_pos hmem]
  · rw [h, if_neg hv, ArcPool.values, List.map_append, ArcPool.values, List.map_singleton]

/-- **Interning** for one more holder. -/
theorem Sound.intern (h : Sound p holders) (v : α) :
    Sound (p.intern v).2 ((p.intern v).1 :: holders) := by
  rcases intern_cases p v with ⟨a, ha, -, hp⟩ | ⟨hv, hp⟩
  · -- the arc is one of the pool
    have hback : ∀ b, b ∈ p.arcs ∨ b ∈ a :: holders → b ∈ p.arcs ∨ b ∈ holders := by
      intro b hb
      rcases hb with hb | hb
      · exact Or.inl hb
      · rcases List.mem_cons.mp hb with rfl | hb
        · exact Or.inl ha
        · exact Or.inr hb
    rw [hp]
    exact ⟨h.distinct, fun b hb => h.allocated b (hback b hb),
      fun b c hb hc => h.same b c (hback b hb) (hback c hc)⟩
  · -- the address of the new arc is above all others
    have hback : ∀ b, b ∈ p.arcs ++ [⟨p.next, v⟩] ∨ b ∈ (⟨p.next, v⟩ : Arc α) :: holders →
        b = ⟨p.next, v⟩ ∨ b ∈ p.arcs ∨ b ∈ holders := by
      intro b hb
      simp only [List.mem_append, List.mem_cons, List.not_mem_nil, or_false] at hb
      tauto
    rw [hp]
    refine ⟨?_, fun b hb => ?_, fun b c hb hc hbc => ?_⟩
    · show ((p.arcs ++ [(⟨p.next, v⟩ : Arc α)]).map Arc.value).Nodup
      rw [List.map_append, List.nodup_append_comm]
      exact List.Nodup.cons hv h.distinct
    · rcases hback b hb with rfl | hb
      · exact Nat.lt_succ_self _
      · exact (h.allocated b hb).trans (Nat.lt_succ_self _)
    · rcases hback b hb with rfl | hb <;> rcases hback c hc with rfl | hc
      · rfl
      · exact absurd hbc (h.allocated c hc).ne'
      · exact absurd hbc (h.allocated b hb).ne
      · exact h.same b c hb hc hbc

/-! ### Collecting -/

/-- The strong count of an arc of the pool: one for the pool, and one for each holder. -/
theorem Sound.strongCount (h : Sound p holders) (ha : a ∈ p.arcs) :
    p.strongCount holders a = 1 + holders.count a := by
  have haddr : ∀ b, b ∈ p.arcs ∨ b ∈ holders →
      (decide (b.addr = a.addr) = true ↔ (b == a) = true) := by
    intro b hb
    rw [decide_eq_true_eq, beq_iff_eq]
    exact ⟨h.same b a hb (Or.inl ha), congrArg Arc.addr⟩
  have hpool : p.arcs.countP (fun b => b.addr = a.addr) = 1 := by
    rw [List.countP_congr fun b hb => haddr b (Or.inl hb)]
    exact List.count_eq_one_of_mem (List.Nodup.of_map Arc.value h.distinct) ha
  rw [ArcPool.strongCount, List.countP_append, hpool,
    List.countP_congr fun b hb => haddr b (Or.inr hb), List.count]

/-- **What is collected** is what nobody else holds. -/
theorem mem_collect_iff (h : Sound p holders) :
    a ∈ (p.collect holders).arcs ↔ a ∈ p.arcs ∧ a ∈ holders := by
  rw [ArcPool.collect, List.mem_filter]
  refine and_congr_right fun ha => ?_
  rw [decide_eq_true_eq, h.strongCount ha, Nat.lt_add_right_iff_pos, List.count_pos_iff]

omit [DecidableEq α] in
/-- What is collected has no holder, so the handles that are left stay sound. -/
theorem Sound.collect (h : Sound p holders) : Sound (p.collect holders) holders where
  distinct := h.distinct.sublist (List.filter_sublist.map _)
  allocated := fun a ha => h.allocated a (ha.imp_left fun ha => (List.mem_filter.mp ha).1)
  same := fun a b ha hb => h.same a b (ha.imp_left fun ha => (List.mem_filter.mp ha).1)
    (hb.imp_left fun hb => (List.mem_filter.mp hb).1)

/-- The values that are left, by a condition on values that says who holds their arcs. -/
theorem values_collect (h : Sound p holders) {keep : α → Prop} [DecidablePred keep]
    (hkeep : ∀ a ∈ p.arcs, keep a.value ↔ a ∈ holders) :
    (p.collect holders).values = p.values.filter fun v => keep v := by
  rw [ArcPool.values, ArcPool.values, List.filter_map]
  refine congrArg _ (List.filter_congr fun a ha => decide_eq_decide.mpr ?_)
  rw [h.strongCount ha, Nat.lt_add_right_iff_pos, List.count_pos_iff, hkeep a ha]

end

end Interning
