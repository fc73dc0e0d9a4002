import BgpReceiver.Json

/-!
# The text of a JSON value

The compact text of a value determines the value (`Json.text_injective`), so a
digest of the text names the value as well as the digest names the text.

The argument reads texts from the front. What a value starts with tells which kind
of value it is (`Json.tag`), and a value's text ends where the next character
cannot continue it: numerals before anything that is no digit, strings at the first
quotation mark that is not escaped (`unescape_escape`), arrays and objects at the
bracket that closes them.
-/

namespace Json

/-! ### Strings -/

/-- The first character behind a quotation mark, with its escape sequence undone. -/
def unescape : List Char → Option (Char × List Char)
  | '\\' :: 'u' :: _ :: _ :: h :: l :: rest =>
    ((List.range 32).find? fun n =>
        Nat.digitChar (n / 16) = h ∧ Nat.digitChar (n % 16) = l).map fun n => (Char.ofNat n, rest)
  | '\\' :: e :: rest =>
    some (if e = 'b' then Char.ofNat 8 else if e = 't' then Char.ofNat 9
      else if e = 'n' then Char.ofNat 10 else if e = 'f' then Char.ofNat 12
      else if e = 'r' then Char.ofNat 13 else e, rest)
  | c :: rest => some (c, rest)
  | [] => none

/-- A control character is the one that its two hexadecimal digits say. -/
theorem find_control (n : ℕ) (hn : n < 32) :
    ((List.range 32).find? fun m => Nat.digitChar (m / 16) = Nat.digitChar (n / 16) ∧
      Nat.digitChar (m % 16) = Nat.digitChar (n % 16)) = some n := by
  revert n
  decide

/-- An escaped character is read back, and nothing behind it is touched. -/
theorem unescape_escape (c : Char) (rest : List Char) :
    unescape (escape c ++ rest) = some (c, rest) := by
  unfold escape
  -- the seven characters with an escape of their own
  split_ifs with h₁ h₂ h₃ h₄ h₅ h₆ h₇ h₈
  · rw [h₁]; rfl
  · rw [h₂]; rfl
  · rw [h₃]; rfl
  · rw [h₄]; rfl
  · rw [h₅]; rfl
  · rw [h₆]; rfl
  · rw [h₇]; rfl
  · -- a control character is written with its number
    change ((List.range 32).find? _).map _ = _
    rw [find_control _ h₈, Option.map_some, Char.ofNat_toNat]
    rfl
  · -- all others are written as they are
    change unescape (c :: rest) = _
    unfold unescape
    split
    · rename_i heq
      exact absurd (List.cons.inj heq).1 h₂
    · rename_i heq
      exact absurd (List.cons.inj heq).1 h₂
    · rename_i heq
      obtain ⟨rfl, rfl⟩ := List.cons.inj heq
      rfl
    · rename_i heq
      exact absurd heq (by simp)

/-- No escape sequence starts with a quotation mark. -/
theorem head_escape (c : Char) : ∃ d rest, escape c = d :: rest ∧ d ≠ '"' := by
  unfold escape
  split_ifs with h₁
  all_goals first
    | exact ⟨'\\', _, rfl, by decide⟩
    | exact ⟨c, [], rfl, h₁⟩

/-- Two escaped texts that end with a quotation mark are the same up to it: no escape has one in it
that is not behind a backslash. -/
theorem flatMap_escape_append_inj {cs ds r s : List Char}
    (h : cs.flatMap escape ++ '"' :: r = ds.flatMap escape ++ '"' :: s) : cs = ds ∧ r = s := by
  -- on the first text: a quote ends it, and no character is written with one in front
  induction cs generalizing ds with
  | nil =>
    cases ds with
    | nil => exact ⟨rfl, (List.cons.inj h).2⟩
    | cons d ds =>
      obtain ⟨e, rest, he, hne⟩ := head_escape d
      rw [List.flatMap_cons, he] at h
      exact absurd (List.cons.inj h).1.symm hne
  | cons c cs ih =>
    cases ds with
    | nil =>
      obtain ⟨e, rest, he, hne⟩ := head_escape c
      rw [List.flatMap_cons, he] at h
      exact absurd (List.cons.inj h).1 hne
    | cons d ds =>
      rw [List.flatMap_cons, List.flatMap_cons, List.append_assoc, List.append_assoc] at h
      have hu := congrArg unescape h
      rw [unescape_escape, unescape_escape] at hu
      obtain ⟨rfl, hrest⟩ := Prod.mk.inj (Option.some.inj hu)
      obtain ⟨rfl, hr⟩ := ih hrest
      exact ⟨rfl, hr⟩

theorem toList_quote (s : String) (rest : List Char) :
    (quote s).toList ++ rest = '"' :: (s.toList.flatMap escape ++ '"' :: rest) := by
  unfold quote
  rw [String.toList_ofList]
  simp

/-- A quoted text ends by itself, whatever is behind it. -/
theorem quote_append_inj {s t : String} {r r' : List Char}
    (h : (quote s).toList ++ r = (quote t).toList ++ r') : s = t ∧ r = r' := by
  rw [toList_quote, toList_quote] at h
  obtain ⟨hl, hr⟩ := flatMap_escape_append_inj (List.cons.inj h).2
  exact ⟨String.toList_inj.mp hl, hr⟩

/-! ### What a value starts with -/

/-- The kind of value that a character starts, if any. -/
def startTag (c : Char) : ℕ :=
  if c = 'n' then 0 else if c = 't' then 1 else if c = 'f' then 2 else if c.isDigit then 3
  else if c = '"' then 4 else if c = '[' then 5 else if c = '\x7b' then 6 else 7

/-- Which of the kinds a value is, `true` and `false` being two. -/
def tag : Json → ℕ
  | .null => 0
  | .bool b => if b then 1 else 2
  | .num _ => 3
  | .str _ => 4
  | .arr _ => 5
  | .obj _ => 6

/-- What follows a value does not continue a numeral. -/
def Stops (rest : List Char) : Prop := ∀ c ∈ rest.head?, c.isDigit = false

/-- A numeral has digits in it and nothing else. -/
theorem isDigit_of_mem_repr {n : ℕ} {c : Char} (h : c ∈ (Nat.repr n).toList) :
    c.isDigit = true := by
  rw [Nat.toList_repr] at h
  exact Nat.isDigit_of_mem_toDigits (by decide) (by decide) h

/-- **The first character tells the kind** of a value. -/
theorem head_text (v : Json) : ∃ c rest, v.text.toList = c :: rest ∧ startTag c = v.tag := by
  cases v with
  | null => exact ⟨'n', _, rfl, by decide⟩
  | bool b =>
    cases b with
    | true => exact ⟨'t', _, rfl, by decide⟩
    | false => exact ⟨'f', _, rfl, by decide⟩
  | num n =>
    cases hl : (Nat.repr n).toList with
    | nil => exact absurd hl (by rw [Nat.toList_repr]; exact Nat.toDigits_ne_nil)
    | cons c rest =>
      refine ⟨c, rest, by simp only [text, hl], ?_⟩
      -- a digit is none of the signs that other values begin with
      have hd : c.isDigit = true := isDigit_of_mem_repr (by rw [hl]; exact List.mem_cons_self)
      unfold startTag tag
      split_ifs with h₁ h₂ h₃
      · rw [h₁] at hd; exact absurd hd (by decide)
      · rw [h₂] at hd; exact absurd hd (by decide)
      · rw [h₃] at hd; exact absurd hd (by decide)
      · rfl
  | str s =>
    have h := toList_quote s []
    rw [List.append_nil] at h
    exact ⟨'"', _, by simpa only [text] using h, rfl⟩
  | arr elems => exact ⟨'[', _, by simp only [text, String.toList_append]; rfl, rfl⟩
  | obj fields => exact ⟨'\x7b', _, by simp only [text, String.toList_append]; rfl, rfl⟩

/-- Texts that begin alike are of values of one kind. -/
theorem tag_eq_of_text_append {a b : Json} {r s : List Char}
    (h : a.text.toList ++ r = b.text.toList ++ s) : a.tag = b.tag := by
  obtain ⟨c, rest, hc, ha⟩ := head_text a
  obtain ⟨d, rest', hd, hb⟩ := head_text b
  rw [hc, hd] at h
  rw [← ha, ← hb, (List.cons.inj h).1]

theorem tag_lt (v : Json) : v.tag < 7 := by
  cases v with
  | bool b => cases b <;> decide
  | _ => simp only [tag]; decide

/-- No value starts with a closing bracket. -/
theorem text_append_ne {a : Json} {c : Char} {r s : List Char} (hc : startTag c = 7) :
    a.text.toList ++ r ≠ c :: s := by
  intro h
  obtain ⟨d, rest, hd, ha⟩ := head_text a
  rw [hd] at h
  rw [(List.cons.inj h).1, hc] at ha
  exact absurd ha.symm (tag_lt a).ne

/-! ### Texts between commas -/

/-- The texts of the elements, one by one. -/
theorem elemTexts_eq (vs : List Json) : elemTexts vs = vs.map text := by
  induction vs with
  | nil => rfl
  | cons v vs ih => rw [elemTexts, ih, List.map_cons]

/-- The texts of the members, each with its key. -/
theorem fieldTexts_eq (fields : List (String × Json)) :
    fieldTexts fields = fields.map fun e => quote e.1 ++ ":" ++ text e.2 := by
  induction fields with
  | nil => rfl
  | cons e fields ih =>
    obtain ⟨k, v⟩ := e
    rw [fieldTexts, ih, List.map_cons]

/-- The words behind the first, each with the comma before it. -/
def commaTail (ws : List String) : List Char := ws.flatMap fun w => ',' :: w.toList

/-- A list of texts is the first of them and the others with their commas. -/
theorem toList_intercalate_cons (w : String) (ws : List String) :
    (String.intercalate "," (w :: ws)).toList = w.toList ++ commaTail ws := by
  induction ws generalizing w with
  | nil => simp [commaTail]
  | cons u ws ih =>
    rw [String.intercalate_cons_cons, String.toList_append, String.toList_append, ih]
    simp [commaTail]

/-- A comma or the bracket at the end is no digit. -/
theorem stops_commaTail (ws : List String) {c : Char} (hc : c.isDigit = false) (rest : List Char) :
    Stops (commaTail ws ++ c :: rest) := by
  intro d hd
  cases ws with
  | nil =>
    obtain rfl := Option.some.inj hd
    exact hc
  | cons w ws =>
    obtain rfl := Option.some.inj hd
    decide

/-- Two closed lists of words are equal when the words are read back one by one. -/
theorem commaTail_append_inj {α : Type} {f : α → String} {c : Char} (hc : c ≠ ',')
    (hc' : c.isDigit = false) {as bs : List α} {r s : List Char}
    (hread : ∀ a ∈ as, ∀ b r s, Stops r → Stops s →
      (f a).toList ++ r = (f b).toList ++ s → a = b ∧ r = s)
    (h : commaTail (as.map f) ++ c :: r = commaTail (bs.map f) ++ c :: s) : as = bs ∧ r = s := by
  -- each text is read up to the comma or the bracket behind it
  induction as generalizing bs with
  | nil =>
    cases bs with
    | nil => exact ⟨rfl, (List.cons.inj h).2⟩
    | cons b bs => exact absurd (List.cons.inj h).1 hc
  | cons a as ih =>
    cases bs with
    | nil => exact absurd (List.cons.inj h).1.symm hc
    | cons b bs =>
      have hsplit : ∀ (x : α) (xs : List α) (t : List Char),
          commaTail ((x :: xs).map f) ++ c :: t
            = ',' :: ((f x).toList ++ (commaTail (xs.map f) ++ c :: t)) := by
        intro x xs t
        simp [commaTail]
      rw [hsplit, hsplit] at h
      obtain ⟨rfl, hrest⟩ := hread a List.mem_cons_self b _ _ (stops_commaTail _ hc' _)
        (stops_commaTail _ hc' _) (List.cons.inj h).2
      obtain ⟨rfl, hr⟩ := ih (fun a ha => hread a (List.mem_cons_of_mem _ ha)) hrest
      exact ⟨rfl, hr⟩

/-- The same for all words of a list, the first of which has no comma before it. -/
theorem intercalate_append_inj {α : Type} {f : α → String} {c : Char} (hc : c ≠ ',')
    (hc' : c.isDigit = false) {as bs : List α} {r s : List Char}
    (hstart : ∀ a r s, (f a).toList ++ r ≠ c :: s)
    (hread : ∀ a ∈ as, ∀ b r s, Stops r → Stops s →
      (f a).toList ++ r = (f b).toList ++ s → a = b ∧ r = s)
    (h : (String.intercalate "," (as.map f)).toList ++ c :: r
      = (String.intercalate "," (bs.map f)).toList ++ c :: s) : as = bs ∧ r = s := by
  have hnil : (String.intercalate "," ([] : List String)).toList = [] := by simp
  cases as with
  | nil =>
    cases bs with
    | nil =>
      rw [List.map_nil, hnil] at h
      exact ⟨rfl, (List.cons.inj h).2⟩
    -- an empty list ends at once, where a text would begin
    | cons b bs =>
      rw [List.map_nil, hnil, List.map_cons, toList_intercalate_cons, List.append_assoc] at h
      exact absurd h.symm (hstart b _ _)
  | cons a as =>
    cases bs with
    | nil =>
      rw [List.map_nil, hnil, List.map_cons, toList_intercalate_cons, List.append_assoc] at h
      exact absurd h (hstart a _ _)
    | cons b bs =>
      rw [List.map_cons, List.map_cons, toList_intercalate_cons, toList_intercalate_cons,
        List.append_assoc, List.append_assoc] at h
      obtain ⟨rfl, hrest⟩ := hread a List.mem_cons_self b _ _ (stops_commaTail _ hc' _)
        (stops_commaTail _ hc' _) h
      obtain ⟨rfl, hr⟩ := commaTail_append_inj hc hc'
        (fun a ha => hread a (List.mem_cons_of_mem _ ha)) hrest
      exact ⟨rfl, hr⟩

/-! ### Values -/

/-- A numeral ends where no digit follows. -/
theorem repr_append_inj {m n : ℕ} {r s : List Char} (hr : Stops r) (hs : Stops s)
    (h : (Nat.repr m).toList ++ r = (Nat.repr n).toList ++ s) : m = n ∧ r = s := by
  have h' : Nat.repr m ++ String.ofList r = Nat.repr n ++ String.ofList s := by
    apply String.toList_inj.mp
    rw [String.toList_append, String.toList_append, String.toList_ofList, String.toList_ofList, h]
  obtain ⟨hmn, hrs⟩ := Text.span_inj (p := Char.isDigit) (fun _ => isDigit_of_mem_repr)
    (fun _ => isDigit_of_mem_repr) (by rw [String.toList_ofList]; exact hr)
    (by rw [String.toList_ofList]; exact hs) h'
  refine ⟨Nat.repr_inj.mp hmn, ?_⟩
  rw [← String.toList_ofList (l := r), hrs, String.toList_ofList]

/-- The value is read back from the front of any text that goes on with something
that does not continue it. -/
def Reads (a : Json) : Prop :=
  ∀ (b : Json) (r s : List Char), Stops r → Stops s →
    a.text.toList ++ r = b.text.toList ++ s → a = b ∧ r = s

theorem reads_null : Reads .null := by
  intro b r s _ _ h
  have ht := tag_eq_of_text_append h
  cases b with
  | null => exact ⟨rfl, List.append_cancel_left h⟩
  | bool b => cases b <;> exact absurd ht (by decide)
  | _ => exact absurd ht (by simp [tag])

theorem reads_bool (a : Bool) : Reads (.bool a) := by
  intro b r s _ _ h
  have ht := tag_eq_of_text_append h
  cases b with
  | bool b =>
    obtain rfl : a = b := by cases a <;> cases b <;> first | rfl | exact absurd ht (by decide)
    exact ⟨rfl, List.append_cancel_left h⟩
  | _ => cases a <;> exact absurd ht (by simp [tag])

/-- A number ends where no digit follows. -/
theorem reads_num (m : ℕ) : Reads (.num m) := by
  intro b r s hr hs h
  have ht := tag_eq_of_text_append h
  cases b with
  | num n =>
    simp only [text] at h
    obtain ⟨rfl, hrs⟩ := repr_append_inj hr hs h
    exact ⟨rfl, hrs⟩
  | bool b => cases b <;> exact absurd ht (by simp [tag])
  | _ => exact absurd ht (by simp [tag])

theorem reads_str (x : String) : Reads (.str x) := by
  intro b r s _ _ h
  have ht := tag_eq_of_text_append h
  cases b with
  | str y =>
    simp only [text] at h
    obtain ⟨rfl, hrs⟩ := quote_append_inj h
    exact ⟨rfl, hrs⟩
  | bool b => cases b <;> exact absurd ht (by simp [tag])
  | _ => exact absurd ht (by simp [tag])

/-- An array ends with its bracket, once its elements end by themselves. -/
theorem reads_arr {as : List Json} (has : ∀ a ∈ as, Reads a) : Reads (.arr as) := by
  intro b r s _ _ h
  have ht := tag_eq_of_text_append h
  cases b with
  | arr bs =>
    have h' : (String.intercalate "," (as.map text)).toList ++ ']' :: r
        = (String.intercalate "," (bs.map text)).toList ++ ']' :: s := by
      simpa [text, elemTexts_eq] using h
    obtain ⟨rfl, hrs⟩ := intercalate_append_inj (by decide) (by decide)
      (fun a r s => text_append_ne (by decide)) has h'
    exact ⟨rfl, hrs⟩
  | bool b => cases b <;> exact absurd ht (by simp [tag])
  | _ => exact absurd ht (by simp [tag])

/-- The text of a member of an object. -/
def memberText (e : String × Json) : String := quote e.1 ++ ":" ++ text e.2

/-- A member is its key in quotation marks, a colon and its value. -/
theorem toList_memberText (e : String × Json) (t : List Char) :
    (memberText e).toList ++ t = (quote e.1).toList ++ (':' :: (e.2.text.toList ++ t)) := by
  unfold memberText
  simp

/-- An object ends with its bracket, once its values end by themselves. -/
theorem reads_obj {as : List (String × Json)} (has : ∀ e ∈ as, Reads e.2) : Reads (.obj as) := by
  intro b r s _ _ h
  have ht := tag_eq_of_text_append h
  cases b with
  | obj bs =>
    have h' : (String.intercalate "," (as.map memberText)).toList ++ '\x7d' :: r
        = (String.intercalate "," (bs.map memberText)).toList ++ '\x7d' :: s := by
      have htext : ∀ fields, (Json.obj fields).text
          = "\x7b" ++ String.intercalate "," (fields.map memberText) ++ "\x7d" := by
        intro fields
        rw [text, fieldTexts_eq]
        rfl
      simpa [htext] using h
    -- the name ends at its quote, and the value is read by induction
    have hread : ∀ a ∈ as, ∀ (b : String × Json) (r s : List Char), Stops r → Stops s →
        (memberText a).toList ++ r = (memberText b).toList ++ s → a = b ∧ r = s := by
      rintro ⟨k, v⟩ hmem ⟨l, w⟩ r s hr hs h
      rw [toList_memberText, toList_memberText] at h
      obtain ⟨rfl, hv⟩ := quote_append_inj h
      obtain ⟨rfl, hrs⟩ := has _ hmem w r s hr hs (List.cons.inj hv).2
      exact ⟨rfl, hrs⟩
    -- a member begins with a quote, and not with the closing brace
    have hstart : ∀ (e : String × Json) (r s : List Char),
        (memberText e).toList ++ r ≠ '\x7d' :: s := by
      intro e r s h
      rw [toList_memberText, toList_quote] at h
      exact absurd (List.cons.inj h).1 (by decide)
    obtain ⟨rfl, hrs⟩ := intercalate_append_inj (by decide) (by decide) hstart hread h'
    exact ⟨rfl, hrs⟩
  | bool b => cases b <;> exact absurd ht (by simp [tag])
  | _ => exact absurd ht (by simp [tag])

mutual

/-- **Every value is read back**, by recursion on the value. -/
theorem reads : ∀ a : Json, Reads a
  | .null => reads_null
  | .bool a => reads_bool a
  | .num m => reads_num m
  | .str x => reads_str x
  | .arr as => reads_arr (reads_elems as)
  | .obj as => reads_obj (reads_fields as)

/-- Every element of an array ends by itself. -/
theorem reads_elems : ∀ as : List Json, ∀ a ∈ as, Reads a
  | [] => by simp
  | a :: as => List.forall_mem_cons.mpr ⟨reads a, reads_elems as⟩

/-- Every member of an object ends by itself. -/
theorem reads_fields : ∀ as : List (String × Json), ∀ e ∈ as, Reads e.2
  | [] => by simp
  | (_, v) :: as => List.forall_mem_cons.mpr ⟨reads v, reads_fields as⟩

end

/-- **A JSON text determines its value.** -/
theorem text_injective : Function.Injective text := by
  intro a b h
  refine (reads a b [] [] ?_ ?_ (by rw [h])).1
  · intro c hc
    exact absurd hc (by simp)
  · intro c hc
    exact absurd hc (by simp)

end Json
