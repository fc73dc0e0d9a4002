import Mathlib

/-!
# Lists cut at their separators

The fields of a list are its longest stretches without a separator (`Fields.fields`).
Separators in front of a list do not count (`fields_seps`), and a stretch in front of a
separator is a field (`fields_append`).
-/

namespace Fields

variable {α : Type} {sep : α → Bool}

/-- The stretches of a list between the separators, the empty ones left out. -/
def fields (sep : α → Bool) (l : List α) : List (List α) :=
  (l.splitBy fun a b => sep a = sep b).filter fun w => w.all fun a => !sep a

@[simp] theorem fields_nil : fields sep [] = [] := rfl

/-- A stretch of one kind is in one piece. -/
theorem splitBy_stretch {b : Bool} {w : List α} (hne : w ≠ []) (hw : ∀ a ∈ w, sep a = b) :
    (w.splitBy fun a b => sep a = sep b) = [w] := by
  refine List.splitBy_of_isChain hne (List.Pairwise.isChain ?_)
  refine List.pairwise_of_forall_mem_list fun a ha a' ha' => ?_
  simp [hw a ha, hw a' ha']

/-- Where the kind changes, the list is cut. -/
theorem splitBy_boundary {b : Bool} {w l : List α} (hw : ∀ a ∈ w, sep a = b)
    (hl : ∀ a ∈ l.head?, sep a = !b) : ((w ++ l).splitBy fun a b => sep a = sep b) =
      (w.splitBy fun a b => sep a = sep b) ++ l.splitBy fun a b => sep a = sep b := by
  refine List.splitBy_append fun a ha a' ha' => ?_
  rw [hw a (List.mem_of_getLast? ha), hl a' ha']
  cases b <;> rfl

/-- A stretch in front of a separator is a field of its own. -/
theorem fields_append {w l : List α} (hne : w ≠ []) (hw : ∀ a ∈ w, sep a = false)
    (hl : ∀ a ∈ l.head?, sep a = true) : fields sep (w ++ l) = w :: fields sep l := by
  have hall : (w.all fun a => !sep a) = true := List.all_eq_true.mpr fun a ha => by simp [hw a ha]
  rw [fields, splitBy_boundary hw hl, splitBy_stretch hne hw, List.singleton_append]
  exact List.filter_cons_of_pos (p := fun w : List α => w.all fun a => !sep a) hall

theorem fields_seps {w : List α} (hw : ∀ a ∈ w, sep a = true) (l : List α) :
    fields sep (w ++ l) = fields sep l := by
  -- first in front of a list that does not begin with a separator
  have hfront : ∀ w l : List α, (∀ a ∈ w, sep a = true) → (∀ a ∈ l.head?, sep a = false) →
      fields sep (w ++ l) = fields sep l := by
    intro w l hw hl
    rcases eq_or_ne w [] with rfl | hne
    · rfl
    · have hnot : ¬ (w.all fun a => !sep a) = true := by
        obtain ⟨a, ha⟩ := List.exists_mem_of_ne_nil w hne
        exact fun hall => by simpa [hw a ha] using List.all_eq_true.mp hall a ha
      rw [fields, splitBy_boundary hw hl, splitBy_stretch hne hw, List.singleton_append]
      exact List.filter_cons_of_neg (p := fun w : List α => w.all fun a => !sep a) hnot
  have hhead : ∀ a ∈ (l.dropWhile sep).head?, sep a = false := fun a ha => by
    have h := List.head?_dropWhile_not sep l
    rw [ha] at h
    exact h
  have hseps : ∀ a ∈ l.takeWhile sep, sep a = true := fun a ha => List.mem_takeWhile_imp ha
  calc fields sep (w ++ l)
      = fields sep ((w ++ l.takeWhile sep) ++ l.dropWhile sep) := by
        rw [List.append_assoc, List.takeWhile_append_dropWhile]
    _ = fields sep (l.dropWhile sep) := hfront _ _ (List.forall_mem_append.mpr ⟨hw, hseps⟩) hhead
    _ = fields sep (l.takeWhile sep ++ l.dropWhile sep) := (hfront _ _ hseps hhead).symm
    _ = fields sep l := by rw [List.takeWhile_append_dropWhile]

/-- Fields that have a separator in front of each. -/
theorem fields_flatMap {s : α} (hs : sep s = true) {ws : List (List α)}
    (hws : ∀ w ∈ ws, w ≠ [] ∧ ∀ a ∈ w, sep a = false) {l : List α}
    (hl : ∀ a ∈ l.head?, sep a = true) :
    fields sep (ws.flatMap (s :: ·) ++ l) = ws ++ fields sep l := by
  induction ws with
  | nil => rfl
  | cons w ws ih =>
    obtain ⟨⟨hne, hw⟩, hws⟩ := List.forall_mem_cons.mp hws
    -- behind a stretch comes the separator of the next one, or of the rest
    have hnext : ∀ a ∈ (ws.flatMap (s :: ·) ++ l).head?, sep a = true := by
      cases ws with
      | nil => exact hl
      | cons => exact fun a ha => Option.some.inj ha ▸ hs
    calc fields sep ((w :: ws).flatMap (s :: ·) ++ l)
        = fields sep ([s] ++ (w ++ (ws.flatMap (s :: ·) ++ l))) := by simp
      _ = w :: fields sep (ws.flatMap (s :: ·) ++ l) := by
          rw [fields_seps (List.forall_mem_singleton.mpr hs), fields_append hne hw hnext]
      _ = w :: (ws ++ fields sep l) := by rw [ih hws]

end Fields
