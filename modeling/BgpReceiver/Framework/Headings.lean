import Mathlib

/-!
# Lists cut at their headings

Some entries of a list are headings, and the entries behind a heading are its body up to the
next heading (`Headings.blocks`). What is in front of the first heading is in no block.

A reader that takes an entry at a time has to know what one more entry does: a heading begins
a block with an empty body (`blocks_concat_heading`), anything else is added to the body of
the last block, if there is one (`blocks_concat_body`). A list that was made of headings
and their bodies is cut into these again (`blocks_flatMap`).
-/

namespace Headings

variable {α β γ : Type} {head : α → Option β}

/-- The headings of a list, each with its body. -/
def blocks (head : α → Option β) : List α → List (β × List α)
  | [] => []
  | a :: l =>
    match head a with
    | some b => (b, l.takeWhile fun x => (head x).isNone) :: blocks head l
    | none => blocks head l

/-- A heading begins a block, which runs up to the next heading. -/
theorem blocks_cons_heading {a : α} {b : β} (h : head a = some b) (l : List α) :
    blocks head (a :: l) = (b, l.takeWhile fun x => (head x).isNone) :: blocks head l := by
  simp only [blocks, h]

/-- What is in front of the first heading is in no block. -/
theorem blocks_cons_body {a : α} (h : head a = none) (l : List α) :
    blocks head (a :: l) = blocks head l := by
  simp only [blocks, h]

/-- There is no block exactly when there is no heading. -/
theorem blocks_eq_nil_iff {l : List α} : blocks head l = [] ↔ ∀ x ∈ l, head x = none := by
  induction l with
  | nil => exact iff_of_true rfl nofun
  | cons a l ih =>
    rw [List.forall_mem_cons]
    cases h : head a with
    | some b =>
      rw [blocks_cons_heading h]
      exact iff_of_false (List.cons_ne_nil _ _) fun hall => nomatch hall.1
    | none =>
      rw [blocks_cons_body h, ih]
      exact (and_iff_right rfl).symm

/-- A body ends where it did when a list goes on behind a heading. -/
theorem takeWhile_concat {l : List α} {a : α} (h : blocks head l ≠ [] ∨ head a ≠ none) :
    (l ++ [a]).takeWhile (fun x => (head x).isNone) = l.takeWhile fun x => (head x).isNone := by
  rw [List.takeWhile_append]
  split_ifs with hlen
  · have hall : ∀ x ∈ l, head x = none := fun x hx => by
      have hl := List.takeWhile_prefix (fun x => (head x).isNone) (l := l) |>.eq_of_length hlen
      rw [← hl] at hx
      exact Option.isNone_iff_eq_none.mp
        (List.mem_takeWhile_imp (p := fun x => (head x).isNone) hx)
    obtain hne | ha := h
    · exact absurd (blocks_eq_nil_iff.mpr hall) hne
    · rw [List.takeWhile_cons_of_neg (by simpa using ha), List.append_nil]
      exact (List.takeWhile_eq_self_iff.mpr fun x hx => by simp [hall x hx]).symm
  · rfl

/-- **A heading begins a block.** -/
theorem blocks_concat_heading {a : α} {b : β} (h : head a = some b) (l : List α) :
    blocks head (l ++ [a]) = blocks head l ++ [(b, [])] := by
  induction l with
  | nil => exact blocks_cons_heading h []
  | cons c l ih =>
    rw [List.cons_append]
    cases hc : head c with
    | some d =>
      rw [blocks_cons_heading hc, blocks_cons_heading hc, ih, List.cons_append,
        takeWhile_concat (.inr (by simp [h]))]
    | none => rw [blocks_cons_body hc, blocks_cons_body hc, ih]

/-- **Anything else goes to the last block**, if there is one. -/
theorem blocks_concat_body {a : α} (h : head a = none) (l : List α) :
    blocks head (l ++ [a]) = (blocks head l).modifyLast fun s => (s.1, s.2 ++ [a]) := by
  induction l with
  | nil => exact blocks_cons_body h []
  | cons c l ih =>
    rw [List.cons_append]
    cases hc : head c with
    | some d =>
      rw [blocks_cons_heading hc, blocks_cons_heading hc, ih]
      rcases List.eq_nil_or_concat' (blocks head l) with hnil | ⟨front, s, hs⟩
      · -- the body of the block is the rest of the list
        have hall := blocks_eq_nil_iff.mp hnil
        have hself : ∀ l' : List α, (∀ x ∈ l', head x = none) →
            l'.takeWhile (fun x => (head x).isNone) = l' := fun l' hl' =>
          List.takeWhile_eq_self_iff.mpr fun x hx => by simp [hl' x hx]
        rw [hself l hall, hself (l ++ [a]) (List.forall_mem_append.mpr ⟨hall, by simpa using h⟩),
          hnil]
        rfl
      · rw [takeWhile_concat (.inl (by simp [hs])), hs, List.modifyLast_concat]
        exact (List.modifyLast_concat (fun s : β × List α => (s.1, s.2 ++ [a])) s
          ((d, _) :: front)).symm
    | none => rw [blocks_cons_body hc, blocks_cons_body hc, ih]

/-- **What was put together is cut apart again.** -/
theorem blocks_flatMap {top : γ → α} {key : γ → β} {body : γ → List α} {ps : List γ}
    (htop : ∀ p ∈ ps, head (top p) = some (key p))
    (hbody : ∀ p ∈ ps, ∀ x ∈ body p, head x = none) :
    blocks head (ps.flatMap fun p => top p :: body p) = ps.map fun p => (key p, body p) := by
  induction ps using List.reverseRecOn with
  | nil => rfl
  | append_singleton ps p ih =>
    have hp := htop p (by simp)
    have hnone := hbody p (by simp)
    rw [List.flatMap_append, List.map_append, ← ih (fun q hq => htop q (by simp [hq]))
      (fun q hq => hbody q (by simp [hq])), List.flatMap_singleton, List.map_singleton]
    -- line by line of the last block: its heading begins it, and all others join it
    generalize ps.flatMap (fun p => top p :: body p) = front
    generalize body p = l at hnone ⊢
    induction l using List.reverseRecOn with
    | nil => exact blocks_concat_heading hp front
    | append_singleton l x ih =>
      obtain ⟨hl, hx⟩ := List.forall_mem_append.mp hnone
      rw [← List.cons_append, ← List.append_assoc,
        blocks_concat_body (hx x List.mem_cons_self), ih hl, List.modifyLast_concat]

end Headings
