import Mathlib

/-!
# Stable sorting and paging

A list that is shown in pages is sorted by a key, and a page is what is left of it behind
an offset, cut to a size.

`StableSort` is what a stable sort returns: the keys are in order, and the elements with one
key are in the order that they had. A stable merge sort returns it (`stableSort_sortByKey`),
which rearranges the list (`sortByKey_perm`); a list whose keys are in order already is its
own (`sortByKey_of_sorted`).

Pages of one size that start where the one before ends are the list again
(`flatMap_pages`).
-/

namespace Paging

variable {α β : Type} [LinearOrder β] {key : α → β} {l s : List α}

/-! ### Sorting -/

/-- `s` is `l`, sorted by a key, with ties in the order of `l`. -/
structure StableSort (key : α → β) (l s : List α) : Prop where
  sorted : s.Pairwise fun a b => key a ≤ key b
  stable : ∀ k, s.filter (key · = k) = l.filter (key · = k)

/-- A stable sort by a key. -/
def sortByKey (key : α → β) (l : List α) : List α := l.mergeSort fun a b => key a ≤ key b

/-- Nothing is lost or doubled by the sort. -/
theorem sortByKey_perm : (sortByKey key l).Perm l := List.mergeSort_perm l _

/-- Merge sort is stable, so it is the one sort that the listing may show. -/
theorem stableSort_sortByKey : StableSort key l (sortByKey key l) := by
  have htrans : ∀ a b c : α, decide (key a ≤ key b) = true → decide (key b ≤ key c) = true →
      decide (key a ≤ key c) = true := by
    intro a b c hab hbc
    exact decide_eq_true ((of_decide_eq_true hab).trans (of_decide_eq_true hbc))
  have htotal : ∀ a b : α, (decide (key a ≤ key b) || decide (key b ≤ key a)) = true := by
    intro a b
    simpa using le_total (key a) (key b)
  refine ⟨?_, fun k => ?_⟩
  · exact (List.pairwise_mergeSort htrans htotal l).imp of_decide_eq_true
  · -- the elements with one key are a sorted part of the list, so they stay in their order
    have hties : (l.filter (key · = k)).Pairwise fun a b => decide (key a ≤ key b) = true := by
      refine List.pairwise_of_forall_mem_list fun a ha b hb => ?_
      have ha := of_decide_eq_true (List.mem_filter.mp ha).2
      have hb := of_decide_eq_true (List.mem_filter.mp hb).2
      exact decide_eq_true (ha.trans hb.symm).le
    have hsub := (List.sublist_mergeSort htrans htotal hties List.filter_sublist).filter (key · = k)
    simp only [List.filter_filter, Bool.and_self] at hsub
    exact (hsub.eq_of_length ((sortByKey_perm.filter _).length_eq).symm).symm

/-- A list whose keys are in order is not changed. -/
theorem sortByKey_of_sorted (h : l.Pairwise fun a b => key a ≤ key b) : sortByKey key l = l :=
  List.mergeSort_of_pairwise (h.imp decide_eq_true)

/-! ### Pages -/

/-- The pages up to a number are the list up to there. -/
theorem flatMap_pages (l : List α) (size n : ℕ) :
    (List.range n).flatMap (fun i => (l.drop (i * size)).take size) = l.take (n * size) := by
  induction n with
  | zero => rw [List.range_zero, Nat.zero_mul, List.take_zero, List.flatMap_nil]
  | succ n ih =>
    rw [List.range_succ, List.flatMap_append, ih, List.flatMap_singleton, Nat.succ_mul,
      List.take_add]

end Paging
