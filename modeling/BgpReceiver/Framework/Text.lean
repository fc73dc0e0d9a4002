import Mathlib

/-!
# Texts

What it takes to read a rendered text back: numerals determine their number, in
any base up to sixteen (`Text.toDigits_injective`), a numeral holds nothing but
digits (`Text.not_mem_toDigits`), and words joined by a separator that none of
them contains can be told apart again (`Text.intercalate_inj`).

The other definitions are the string operations of the standard library that a
decoder of rendered texts needs, on the characters of the text: `Text.startsWith`,
`Text.endsWith`, `Text.stripSuffix`, `Text.splitOnce`, `Text.trim` and `Text.parseU8`.
-/

namespace Text

/-! ### Numerals -/

/-- Every character of a numeral is the character of a digit. -/
theorem exists_digitChar_of_mem_toDigits {b : ℕ} (hb : 1 < b) {c : Char} :
    ∀ {n : ℕ}, c ∈ Nat.toDigits b n → ∃ d, Nat.digitChar d = c := by
  intro n
  induction n using Nat.strongRecOn with
  | ind n ih =>
    intro h
    rw [Nat.toDigits_eq_if hb] at h
    split_ifs at h with hlt
    · exact ⟨n, (List.mem_singleton.mp h).symm⟩
    · rcases List.mem_append.mp h with h | h
      · exact ih (n / b) (Nat.div_lt_self (by omega) hb) h
      · exact ⟨n % b, (List.mem_singleton.mp h).symm⟩

/-- A character that is no digit is in no numeral. -/
theorem not_mem_toDigits {b : ℕ} (hb : 1 < b) {c : Char} (hc : ∀ d, Nat.digitChar d ≠ c) (n : ℕ) :
    c ∉ Nat.toDigits b n := fun h => by
  obtain ⟨d, hd⟩ := exists_digitChar_of_mem_toDigits hb h
  exact hc d hd

/-- The sixteen digits are different characters. -/
theorem digitChar_inj :
    ∀ m < 16, ∀ n < 16, Nat.digitChar m = Nat.digitChar n → m = n := by
  decide

/-- **Numerals determine their number.** The last digit is the remainder, what is
before it the numeral of the quotient. -/
theorem toDigits_injective {b : ℕ} (hb : 1 < b) (hb' : b ≤ 16) :
    Function.Injective (Nat.toDigits b) := by
  intro m
  induction m using Nat.strongRecOn with
  | ind m ih =>
    intro n h
    rw [Nat.toDigits_eq_if hb, Nat.toDigits_eq_if (n := n) hb] at h
    have hpos : ∀ k, 0 < (Nat.toDigits b k).length := fun k => Nat.length_toDigits_pos
    have hmb : m % b < b := Nat.mod_lt _ (by omega)
    have hnb : n % b < b := Nat.mod_lt _ (by omega)
    -- one digit against several differs in length
    split_ifs at h with h₁ h₂ h₂
    · exact digitChar_inj _ (by omega) _ (by omega) (List.singleton_inj.mp h)
    · have := congrArg List.length h
      have := hpos (n / b)
      simp at *
    · have := congrArg List.length h
      have := hpos (m / b)
      simp at *
    · obtain ⟨hq, hr⟩ := List.append_inj' h rfl
      -- the last digit is the remainder, and the others are those of the quotient
      have hr : m % b = n % b := digitChar_inj _ (by omega) _ (by omega) (List.singleton_inj.mp hr)
      have hq : m / b = n / b := ih (m / b) (Nat.div_lt_self (by omega) hb) hq
      rw [← Nat.div_add_mod m b, ← Nat.div_add_mod n b, hq, hr]

/-- The lower-case hexadecimal numeral of a number. -/
def hex (n : ℕ) : String := String.ofList (Nat.toDigits 16 n)

/-- A numeral in lower case hexadecimal digits. -/
@[simp] theorem toList_hex (n : ℕ) : (hex n).toList = Nat.toDigits 16 n :=
  String.toList_ofList

theorem hex_injective : Function.Injective hex := fun m n h =>
  toDigits_injective (by decide) (Nat.le_refl 16) (by simpa using congrArg String.toList h)

/-! ### Words between separators -/

/-- A character of joined words is one of the separator or of a word. -/
theorem mem_intercalate {c : Char} {s : String} {ws : List String}
    (h : c ∈ (s.intercalate ws).toList) : c ∈ s.toList ∨ ∃ w ∈ ws, c ∈ w.toList := by
  induction ws with
  | nil => simp at h
  | cons w ws ih =>
    by_cases hws : ws = []
    · subst hws
      rw [String.intercalate_singleton] at h
      exact Or.inr ⟨w, List.mem_cons_self, h⟩
    · rw [String.intercalate_cons_of_ne_nil hws, String.toList_append, String.toList_append,
        List.mem_append, List.mem_append] at h
      -- in the first text, in the separator, or further on
      rcases h with (h | h) | h
      · exact Or.inr ⟨w, List.mem_cons_self, h⟩
      · exact Or.inl h
      · refine (ih h).imp id ?_
        rintro ⟨u, hu, hc⟩
        exact ⟨u, List.mem_cons_of_mem _ hu, hc⟩

/-- **Joined words can be told apart** when the separator occurs in none of them. -/
theorem intercalate_inj {c : Char} {s : String} (hs : s.toList = [c]) {ws ws' : List String}
    (hw : ∀ w ∈ ws, c ∉ w.toList) (hw' : ∀ w ∈ ws', c ∉ w.toList) (hne : ws ≠ [])
    (hne' : ws' ≠ []) (h : s.intercalate ws = s.intercalate ws') : ws = ws' := by
  have h := congrArg String.toList h
  rw [String.toList_intercalate, String.toList_intercalate, hs] at h
  have hsplit : ∀ {us : List String}, (∀ w ∈ us, c ∉ w.toList) → us ≠ [] →
      List.splitOn c ([c].intercalate (us.map String.toList)) = us.map String.toList := by
    intro us hus hne
    refine List.splitOn_intercalate c ?_ (by simpa using hne)
    intro l hl
    obtain ⟨w, hw, rfl⟩ := List.mem_map.mp hl
    exact hus w hw
  have hmap : ws.map String.toList = ws'.map String.toList := by
    rw [← hsplit hw hne, h, hsplit hw' hne']
  exact List.map_injective_iff.mpr (fun _ _ => String.toList_inj.mp) hmap

/-- **A text with a marked end can be told apart from what follows**: every character
of it has a property that the next character lacks. -/
theorem span_inj {p : Char → Bool} {a a' s s' : String} (ha : ∀ c ∈ a.toList, p c = true)
    (ha' : ∀ c ∈ a'.toList, p c = true) (hs : ∀ c ∈ s.toList.head?, p c = false)
    (hs' : ∀ c ∈ s'.toList.head?, p c = false) (h : a ++ s = a' ++ s') : a = a' ∧ s = s' := by
  have hspan : ∀ {a s : List Char}, (∀ c ∈ a, p c = true) → (∀ c ∈ s.head?, p c = false) →
      (a ++ s).takeWhile p = a := by
    intro a s ha hs
    rw [List.takeWhile_append_of_pos ha]
    cases s with
    | nil => simp
    | cons c s => rw [List.takeWhile_cons_of_neg (by simpa using hs c rfl), List.append_nil]
  have h := congrArg String.toList h
  rw [String.toList_append, String.toList_append] at h
  have hl : a.toList = a'.toList := by rw [← hspan ha hs, h, hspan ha' hs']
  rw [hl] at h
  exact ⟨String.toList_inj.mp hl, String.toList_inj.mp (List.append_cancel_left h)⟩

/-- A character that is in neither front marks the end of both. -/
theorem append_inj {c : Char} {a a' s s' : String} (ha : c ∉ a.toList) (ha' : c ∉ a'.toList)
    (hs : s.toList.head? = some c) (hs' : s'.toList.head? = some c) (h : a ++ s = a' ++ s') :
    a = a' ∧ s = s' := by
  have hne : ∀ {l : List Char}, c ∉ l → ∀ d ∈ l, decide (d ≠ c) = true := by
    intro l hl d hd
    exact decide_eq_true fun he => hl (he ▸ hd)
  refine span_inj (p := fun d => decide (d ≠ c)) (hne ha) (hne ha') ?_ ?_ h
  · rw [hs]
    simp
  · rw [hs']
    simp

/-! ### String operations -/

/-- `str::starts_with`. -/
def startsWith (s pre : String) : Bool := pre.toList.isPrefixOf s.toList

/-- `str::ends_with`. -/
def endsWith (s suf : String) : Bool := suf.toList.isSuffixOf s.toList

/-- What is before the suffix, when the text ends with it. -/
def stripSuffix (s suf : String) : Option String :=
  if endsWith s suf then
    some (String.ofList (s.toList.take (s.toList.length - suf.toList.length)))
  else none

/-- What is before and after the first occurrence of a character. -/
def splitOnce (s : String) (c : Char) : Option (String × String) :=
  if c ∈ s.toList then
    some (String.ofList (s.toList.takeWhile (· ≠ c)),
      String.ofList ((s.toList.dropWhile (· ≠ c)).drop 1))
  else none

/-- The first character between two pieces splits them, when it is not in the first. -/
theorem splitOnce_append {c : Char} {a b sep : String} (hsep : sep.toList = [c])
    (ha : c ∉ a.toList) : splitOnce (a ++ sep ++ b) c = some (a, b) := by
  have hlist : (a ++ sep ++ b).toList = a.toList ++ c :: b.toList := by
    rw [String.toList_append, String.toList_append, hsep, List.append_assoc,
      List.singleton_append]
  have hfront : ∀ d ∈ a.toList, decide (d ≠ c) = true := fun d hd =>
    decide_eq_true fun he => ha (he ▸ hd)
  unfold splitOnce
  rw [hlist, if_pos (by simp), List.takeWhile_append_of_pos hfront,
    List.dropWhile_append_of_pos hfront, List.takeWhile_cons_of_neg (by simp),
    List.dropWhile_cons_of_neg (by simp), List.append_nil, List.drop_one, List.tail_cons,
    String.ofList_toList, String.ofList_toList]

/-- The characters with the property `White_Space`. -/
def isWhitespace (c : Char) : Bool :=
  (9 ≤ c.toNat && c.toNat ≤ 13) || (0x2000 ≤ c.toNat && c.toNat ≤ 0x200A) ||
    [0x20, 0x85, 0xA0, 0x1680, 0x2028, 0x2029, 0x202F, 0x205F, 0x3000].contains c.toNat

/-- A text without the white space at its ends. -/
def trim (s : String) : String :=
  String.ofList ((s.toList.dropWhile isWhitespace).rdropWhile isWhitespace)

/-- The number of a decimal numeral, which may have a plus sign, if it fits into an octet. -/
def parseU8 (s : String) : Option ℕ :=
  let digits := match s.toList with
    | '+' :: rest => rest
    | digits => digits
  if digits = [] ∨ digits.any fun c => !c.isDigit then none
  else
    let n := digits.foldl (fun n c => n * 10 + (c.toNat - 48)) 0
    if n ≤ 255 then some n else none

/-- A number below 256 is read back from its numeral. -/
theorem parseU8_repr : ∀ n < 256, parseU8 (Nat.repr n) = some n := by
  decide +kernel

end Text
