import Mathlib

/-!
# Finite maps kept in key order

A finite map is a list of entries in strictly increasing key order, so that two
maps with the same lookups are equal (`OrdMap.ext_find`) and the values come out
in the order of their keys.

The operations are given twice. `Entries` has them on bare lists of entries, for
types that nest a map inside themselves and cannot carry a proof about it.
`OrdMap` bundles the list with its order, so that an unordered map cannot be
built; its operations are the ones of `Entries`, and its lemmas are what users of
the map need: the lookup after each operation, and what an insertion or a removal
does to the list of values (`OrdMap.values_insert_fresh`,
`OrdMap.entries_perm_erase`).
-/

variable {κ ν : Type} [LinearOrder κ]

namespace Entries

/-- The value stored under a key. -/
def find (k : κ) : List (κ × ν) → Option ν
  | [] => none
  | (k', v) :: l => if k = k' then some v else find k l

/-- Store a value under a key, replacing the value that is there. -/
def insert (k : κ) (v : ν) : List (κ × ν) → List (κ × ν)
  | [] => [(k, v)]
  | (k', v') :: l =>
    if k < k' then (k, v) :: (k', v') :: l
    else if k = k' then (k, v) :: l
    else (k', v') :: insert k v l

/-- Drop the entry of a key. -/
def erase (k : κ) (l : List (κ × ν)) : List (κ × ν) :=
  l.filter fun e => e.1 ≠ k

/-- A list with an entry put into it is not empty. -/
theorem insert_ne_nil (k : κ) (v : ν) (l : List (κ × ν)) : insert k v l ≠ [] := by
  cases l with
  | nil => simp [insert]
  | cons e l =>
    unfold insert
    split_ifs <;> simp

/-- The keys are strictly increasing. -/
def Sorted (l : List (κ × ν)) : Prop :=
  l.Pairwise fun a b => a.1 < b.1

@[simp] theorem find_nil (k : κ) : find k ([] : List (κ × ν)) = none := rfl

theorem find_cons (k k' : κ) (v : ν) (l : List (κ × ν)) :
    find k ((k', v) :: l) = if k = k' then some v else find k l := rfl

theorem find_append (k : κ) (l l' : List (κ × ν)) :
    find k (l ++ l') = (find k l).or (find k l') := by
  induction l with
  | nil => rfl
  | cons e l ih =>
    obtain ⟨k', v⟩ := e
    rw [List.cons_append, find_cons, find_cons, ih]
    split <;> rfl

/-- An insertion changes its own key and no other. -/
theorem find_insert (k k' : κ) (v : ν) (l : List (κ × ν)) :
    find k' (insert k v l) = if k' = k then some v else find k' l := by
  induction l with
  | nil => rfl
  | cons e l ih =>
    obtain ⟨k₀, v₀⟩ := e
    by_cases hlt : k < k₀
    · rw [insert, if_pos hlt, find_cons]
    · rw [insert, if_neg hlt]
      -- the key is here, or further on
      by_cases heq : k = k₀
      · subst heq
        rw [if_pos rfl, find_cons, find_cons]
        split <;> rfl
      · rw [if_neg heq, find_cons, find_cons, ih]
        by_cases h₀ : k' = k₀
        · subst h₀
          rw [if_pos rfl, if_neg (Ne.symm heq), if_pos rfl]
        · rw [if_neg h₀, if_neg h₀]

/-- Values that are changed one by one stay under their keys. -/
theorem find_map {ω : Type} (f : ν → ω) (k : κ) (l : List (κ × ν)) :
    find k (l.map fun e => (e.1, f e.2)) = (find k l).map f := by
  induction l with
  | nil => rfl
  | cons e l ih =>
    rw [List.map_cons, find_cons, find_cons, ih]
    split <;> rfl

/-- An erasure changes its own key and no other. -/
theorem find_erase (k k' : κ) (l : List (κ × ν)) :
    find k' (erase k l) = if k' = k then none else find k' l := by
  induction l with
  | nil => simp [erase]
  | cons e l ih =>
    obtain ⟨k₀, v₀⟩ := e
    -- entries of the key are left out, wherever they stand
    by_cases h₀ : k₀ = k
    · subst h₀
      rw [erase, List.filter_cons_of_neg (by simp), ← erase, ih, find_cons]
      split <;> rfl
    · rw [erase, List.filter_cons_of_pos (by simpa using h₀), ← erase, find_cons, find_cons, ih]
      by_cases h : k' = k₀
      · subst h
        rw [if_pos rfl, if_neg h₀, if_pos rfl]
      · rw [if_neg h, if_neg h]

theorem mem_of_find {k : κ} {v : ν} {l : List (κ × ν)} (h : find k l = some v) : (k, v) ∈ l := by
  induction l with
  | nil => simp at h
  | cons e l ih =>
    obtain ⟨k₀, v₀⟩ := e
    rw [find_cons] at h
    by_cases hk : k = k₀
    · subst hk
      rw [if_pos rfl] at h
      obtain rfl := Option.some.inj h
      exact List.mem_cons_self
    · rw [if_neg hk] at h
      exact List.mem_cons_of_mem _ (ih h)

/-- In a sorted list every entry is found, since no key comes twice. -/
theorem Sorted.find_of_mem {k : κ} {v : ν} {l : List (κ × ν)} (hs : Sorted l)
    (h : (k, v) ∈ l) : find k l = some v := by
  induction l with
  | nil => simp at h
  | cons e l ih =>
    obtain ⟨k₀, v₀⟩ := e
    obtain ⟨hlt, hs⟩ := List.pairwise_cons.mp hs
    rcases List.mem_cons.mp h with he | hm
    · obtain ⟨rfl, rfl⟩ := Prod.mk.inj he
      rw [find_cons, if_pos rfl]
    · -- the keys behind the first are greater
      have hne : k ≠ k₀ := (hlt _ hm).ne'
      rw [find_cons, if_neg hne]
      exact ih hs hm

/-- An entry is the new one or was there. -/
theorem mem_insert {k : κ} {v : ν} {l : List (κ × ν)} {e : κ × ν} (h : e ∈ insert k v l) :
    e = (k, v) ∨ e ∈ l := by
  induction l with
  | nil => exact Or.inl (List.mem_singleton.mp h)
  | cons e₀ l ih =>
    obtain ⟨k₀, v₀⟩ := e₀
    rw [insert] at h
    split_ifs at h
    · exact List.mem_cons.mp h
    · exact (List.mem_cons.mp h).imp id (List.mem_cons_of_mem _)
    · rcases List.mem_cons.mp h with rfl | h
      · exact Or.inr List.mem_cons_self
      · exact (ih h).imp id (List.mem_cons_of_mem _)

theorem Sorted.insert {l : List (κ × ν)} (hs : Sorted l) (k : κ) (v : ν) :
    Sorted (insert k v l) := by
  induction l with
  | nil => exact List.pairwise_singleton _ _
  | cons e l ih =>
    obtain ⟨k₀, v₀⟩ := e
    have hl := (List.pairwise_cons.mp hs).1
    have hs' := (List.pairwise_cons.mp hs).2
    rw [Entries.insert]
    split_ifs with hlt heq
    · -- in front of a greater key
      refine List.pairwise_cons.mpr ⟨fun e he => ?_, hs⟩
      rcases List.mem_cons.mp he with rfl | he
      · exact hlt
      · exact hlt.trans (hl e he)
    · -- in place of the same key
      subst heq
      exact List.pairwise_cons.mpr ⟨hl, hs'⟩
    · -- behind a smaller key
      refine List.pairwise_cons.mpr ⟨fun e he => ?_, ih hs'⟩
      rcases mem_insert he with rfl | he
      · exact lt_of_le_of_ne (not_lt.mp hlt) (Ne.symm heq)
      · exact hl e he

theorem Sorted.erase {l : List (κ × ν)} (hs : Sorted l) (k : κ) : Sorted (erase k l) :=
  List.Pairwise.filter _ hs

/-- Other values under the same keys keep the order. -/
theorem Sorted.map {ω : Type} {l : List (κ × ν)} (hs : Sorted l) (f : ν → ω) :
    Sorted (l.map fun e => (e.1, f e.2)) := by
  unfold Sorted
  rw [List.pairwise_map]
  exact hs

/-- A key above all others is stored at the end. -/
theorem insert_of_forall_lt {k : κ} {v : ν} {l : List (κ × ν)} (h : ∀ e ∈ l, e.1 < k) :
    insert k v l = l ++ [(k, v)] := by
  induction l with
  | nil => rfl
  | cons e l ih =>
    obtain ⟨k₀, v₀⟩ := e
    have h₀ : k₀ < k := h _ List.mem_cons_self
    rw [insert, if_neg h₀.not_gt, if_neg h₀.ne', ih fun e he => h e (List.mem_cons_of_mem _ he)]
    rfl

/-- Removing a stored entry takes exactly that entry out of the list. -/
theorem Sorted.perm_erase {k : κ} {v : ν} {l : List (κ × ν)} (hs : Sorted l)
    (h : find k l = some v) : l.Perm ((k, v) :: Entries.erase k l) := by
  induction l with
  | nil => simp at h
  | cons e l ih =>
    obtain ⟨k₀, v₀⟩ := e
    obtain ⟨hlt, hs⟩ := List.pairwise_cons.mp hs
    rw [find_cons] at h
    by_cases hk : k = k₀
    · subst hk
      rw [if_pos rfl] at h
      obtain rfl := Option.some.inj h
      -- no other entry has the key
      have hid : Entries.erase k l = l :=
        List.filter_eq_self.mpr fun e he => by simpa using (hlt e he).ne'
      rw [Entries.erase, List.filter_cons_of_neg (by simp), ← Entries.erase, hid]
    · rw [if_neg hk] at h
      rw [Entries.erase, List.filter_cons_of_pos (by simpa using Ne.symm hk), ← Entries.erase]
      exact ((ih hs h).cons _).trans (List.Perm.swap _ _ _)

/-- A sorted list of entries is determined by its lookups. -/
theorem Sorted.ext_find {l l' : List (κ × ν)} (hs : Sorted l) (hs' : Sorted l')
    (h : ∀ k, find k l = find k l') : l = l' := by
  have hmem : ∀ {l l' : List (κ × ν)}, Sorted l → (∀ k, find k l = find k l') →
      ∀ e ∈ l, e ∈ l' := fun hs h e he =>
    mem_of_find ((h e.1).symm.trans (hs.find_of_mem he))
  have hnodup : ∀ {l : List (κ × ν)}, Sorted l → l.Nodup := fun hs =>
    hs.imp fun hab heq => absurd (congrArg Prod.fst heq) hab.ne
  have hanti : ∀ a b : κ × ν, a ∈ l → b ∈ l' → a.1 < b.1 → b.1 < a.1 → a = b :=
    fun _ _ _ _ hab hba => absurd hab hba.not_gt
  -- both lists have the same entries, and only one order is sorted
  exact List.Perm.eq_of_pairwise hanti hs hs'
    ((List.perm_ext_iff_of_nodup (hnodup hs) (hnodup hs')).mpr fun e =>
      ⟨hmem hs h e, hmem hs' (fun k => (h k).symm) e⟩)

/-! ### The map of a list of entries -/

theorem Sorted.nodup_keys {l : List (κ × ν)} (hs : Sorted l) : (l.map Prod.fst).Nodup := by
  rw [List.Nodup, List.pairwise_map]
  exact hs.imp fun hlt => hlt.ne

/-- The map of a list of entries: a later entry replaces an earlier one under its key. -/
def ofList (entries : List (κ × ν)) : List (κ × ν) :=
  entries.foldl (fun m e => insert e.1 e.2 m) []

/-- The last entry of a list is the last one that is put into the map. -/
theorem ofList_concat (entries : List (κ × ν)) (e : κ × ν) :
    ofList (entries ++ [e]) = insert e.1 e.2 (ofList entries) := by
  rw [ofList, List.foldl_append]
  rfl

/-- A map that is built from a list is sorted, whatever the list. -/
theorem sorted_ofList (entries : List (κ × ν)) : Sorted (ofList entries) := by
  induction entries using List.reverseRecOn with
  | nil => exact List.Pairwise.nil
  | append_singleton entries e ih =>
    rw [ofList_concat]
    exact ih.insert e.1 e.2

theorem mem_keys_insert {k k' : κ} {v : ν} {l : List (κ × ν)} :
    k' ∈ (insert k v l).map Prod.fst ↔ k' = k ∨ k' ∈ l.map Prod.fst := by
  induction l with
  | nil => simp [insert]
  | cons e l ih =>
    obtain ⟨k₀, v₀⟩ := e
    rw [insert]
    split_ifs with hlt heq
    · rw [List.map_cons, List.mem_cons]
    · subst heq
      simp only [List.map_cons, List.mem_cons]
      tauto
    · simp only [List.map_cons, List.mem_cons, ih]
      tauto

/-- The keys of the map are those of the list. -/
theorem mem_keys_ofList {k : κ} {entries : List (κ × ν)} :
    k ∈ (ofList entries).map Prod.fst ↔ k ∈ entries.map Prod.fst := by
  induction entries using List.reverseRecOn with
  | nil => rfl
  | append_singleton entries e ih =>
    rw [ofList_concat, mem_keys_insert, ih, List.map_append, List.mem_append, List.map_singleton,
      List.mem_singleton]
    exact or_comm

/-- **No key is lost** from a list of entries without a repeated one. -/
theorem keys_ofList_perm {entries : List (κ × ν)} (h : (entries.map Prod.fst).Nodup) :
    ((ofList entries).map Prod.fst).Perm (entries.map Prod.fst) :=
  (List.perm_ext_iff_of_nodup (sorted_ofList entries).nodup_keys h).mpr fun _ => mem_keys_ofList

/-- **Every repeated key loses an entry.** -/
theorem length_ofList_eq_iff {entries : List (κ × ν)} :
    (ofList entries).length = entries.length ↔ (entries.map Prod.fst).Nodup := by
  constructor
  · intro h
    have hsub := (List.subperm_of_subset (sorted_ofList entries).nodup_keys fun k =>
      mem_keys_ofList.mp).perm_of_length_le (by rw [List.length_map, List.length_map, h])
    exact hsub.nodup_iff.mp (sorted_ofList entries).nodup_keys
  · intro h
    simpa using (keys_ofList_perm h).length_eq

end Entries

/-- A finite map: entries in strictly increasing key order. -/
structure OrdMap (κ ν : Type) [LinearOrder κ] where
  entries : List (κ × ν)
  sorted : Entries.Sorted entries

namespace OrdMap

/-- The map with no entry. -/
def empty : OrdMap κ ν := ⟨[], List.Pairwise.nil⟩

/-- The value under a key. -/
def find (m : OrdMap κ ν) (k : κ) : Option ν := Entries.find k m.entries

/-- `BTreeMap::insert`: a value in place of the one that the key had. -/
def insert (m : OrdMap κ ν) (k : κ) (v : ν) : OrdMap κ ν :=
  ⟨Entries.insert k v m.entries, m.sorted.insert k v⟩

/-- `BTreeMap::remove`. -/
def erase (m : OrdMap κ ν) (k : κ) : OrdMap κ ν :=
  ⟨Entries.erase k m.entries, m.sorted.erase k⟩

/-- The values in key order. -/
def values (m : OrdMap κ ν) : List ν := m.entries.map Prod.snd

/-- Apply a function to every value. -/
def mapValues {ω : Type} (m : OrdMap κ ν) (f : ν → ω) : OrdMap κ ω :=
  ⟨m.entries.map fun e => (e.1, f e.2), m.sorted.map f⟩

/-- **Maps with the same values are equal**, because their entries are sorted. -/
@[ext] theorem ext_find {m m' : OrdMap κ ν} (h : ∀ k, m.find k = m'.find k) : m = m' := by
  obtain ⟨l, hs⟩ := m
  obtain ⟨l', hs'⟩ := m'
  congr 1
  exact hs.ext_find hs' h

@[simp] theorem find_empty (k : κ) : (empty : OrdMap κ ν).find k = none := rfl

@[simp] theorem values_empty : (empty : OrdMap κ ν).values = [] := rfl

/-- A map that is written at a key is changed there and nowhere else. -/
theorem find_insert (m : OrdMap κ ν) (k k' : κ) (v : ν) :
    (m.insert k v).find k' = if k' = k then some v else m.find k' :=
  Entries.find_insert k k' v m.entries

/-- A map that is erased at a key is changed there and nowhere else. -/
theorem find_erase (m : OrdMap κ ν) (k k' : κ) :
    (m.erase k).find k' = if k' = k then none else m.find k' :=
  Entries.find_erase k k' m.entries

@[simp] theorem find_insert_self (m : OrdMap κ ν) (k : κ) (v : ν) :
    (m.insert k v).find k = some v := by
  rw [find_insert, if_pos rfl]

@[simp] theorem find_erase_self (m : OrdMap κ ν) (k : κ) : (m.erase k).find k = none := by
  rw [find_erase, if_pos rfl]

theorem find_insert_of_ne (m : OrdMap κ ν) {k k' : κ} (v : ν) (h : k' ≠ k) :
    (m.insert k v).find k' = m.find k' := by
  rw [find_insert, if_neg h]

theorem find_erase_of_ne (m : OrdMap κ ν) {k k' : κ} (h : k' ≠ k) :
    (m.erase k).find k' = m.find k' := by
  rw [find_erase, if_neg h]

/-- A value is found behind the map exactly where it was. -/
theorem find_mapValues {ω : Type} (m : OrdMap κ ν) (f : ν → ω) (k : κ) :
    (m.mapValues f).find k = (m.find k).map f :=
  Entries.find_map f k m.entries

theorem mem_entries_iff (m : OrdMap κ ν) {k : κ} {v : ν} :
    (k, v) ∈ m.entries ↔ m.find k = some v :=
  ⟨m.sorted.find_of_mem, Entries.mem_of_find⟩

theorem mem_values_iff (m : OrdMap κ ν) {v : ν} : v ∈ m.values ↔ ∃ k, m.find k = some v := by
  simp only [values, List.mem_map, Prod.exists, exists_eq_right, mem_entries_iff]

/-- Storing under a key above all others appends the entry. -/
theorem entries_insert_fresh (m : OrdMap κ ν) {k : κ} {v : ν}
    (h : ∀ k' v', m.find k' = some v' → k' < k) :
    (m.insert k v).entries = m.entries ++ [(k, v)] :=
  Entries.insert_of_forall_lt fun e he => h e.1 e.2 (m.mem_entries_iff.mp he)

/-- A key above all others is put at the end. -/
theorem values_insert_fresh (m : OrdMap κ ν) {k : κ} {v : ν}
    (h : ∀ k' v', m.find k' = some v' → k' < k) : (m.insert k v).values = m.values ++ [v] := by
  rw [values, m.entries_insert_fresh h, List.map_append, List.map_singleton, values]

/-- Removing a stored key takes its entry out. -/
theorem entries_perm_erase (m : OrdMap κ ν) {k : κ} {v : ν} (h : m.find k = some v) :
    m.entries.Perm ((k, v) :: (m.erase k).entries) :=
  m.sorted.perm_erase h

theorem values_perm_erase (m : OrdMap κ ν) {k : κ} {v : ν} (h : m.find k = some v) :
    m.values.Perm (v :: (m.erase k).values) :=
  (m.entries_perm_erase h).map Prod.snd

end OrdMap
