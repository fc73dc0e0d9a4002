import Mathlib

/-!
# The longest suffix with a property

A buffer that drops its oldest entries until a bound holds keeps a suffix of what was put
into it. It drops too little when that suffix breaks the bound, and too much when a longer
suffix meets it. `LongestSuffix` excludes both, and it determines what is kept
(`LongestSuffix.unique`).

The rules follow a loop that drops entries at the front: it may stop where the property
holds (`LongestSuffix.whole`), and it may drop an entry where the property fails
(`LongestSuffix.cons`). An entry that is put at the end afterwards is what
`LongestSuffix.snoc` is about.
-/

variable {α : Type} {p : List α → Prop} {l s : List α}

/-- `s` is the longest suffix of `l` that has the property `p`. -/
structure LongestSuffix (p : List α → Prop) (l s : List α) : Prop where
  suffix : s <:+ l
  holds : p s
  longest : ∀ t, t <:+ l → p t → t <:+ s

namespace LongestSuffix

/-- A list that meets the condition is its own longest suffix that does. -/
theorem whole (h : p l) : LongestSuffix p l l where
  suffix := List.suffix_refl l
  holds := h
  longest := fun _ ht _ => ht

/-- An entry may be dropped where the property fails with it. -/
theorem cons {a : α} (h : LongestSuffix p l s) (ha : ¬ p (a :: l)) :
    LongestSuffix p (a :: l) s where
  suffix := h.suffix.trans (List.suffix_cons a l)
  holds := h.holds
  longest := by
    intro t ht hp
    rcases List.suffix_cons_iff.mp ht with rfl | ht
    · exact absurd hp ha
    · exact h.longest t ht hp

theorem unique {s' : List α} (h : LongestSuffix p l s) (h' : LongestSuffix p l s') : s = s' :=
  (h'.longest s h.suffix h.holds).sublist.antisymm (h.longest s' h'.suffix h'.holds).sublist

/-- **An entry behind the rest.** What is kept of the list, with the entry behind it, is the
longest of the suffixes that end with the entry. -/
theorem snoc {q : List α → Prop} {b : α} (h : LongestSuffix p l s)
    (hq : ∀ t, q (t ++ [b]) ↔ p t) :
    LongestSuffix (fun t => q t ∧ [b] <:+ t) (l ++ [b]) (s ++ [b]) where
  suffix := by
    obtain ⟨u, rfl⟩ := h.suffix
    exact ⟨u, (List.append_assoc u s [b]).symm⟩
  holds := ⟨(hq s).mpr h.holds, List.suffix_append s [b]⟩
  longest := by
    rintro t ht ⟨hqt, u, rfl⟩
    -- both end with the entry, so what is before it is a suffix as well
    obtain ⟨v, hv⟩ := ht
    have hu : u <:+ l := ⟨v, List.append_cancel_right (by rw [List.append_assoc, hv])⟩
    obtain ⟨w, hw⟩ := h.longest u hu ((hq u).mp hqt)
    exact ⟨w, by rw [← hw, List.append_assoc]⟩

end LongestSuffix
