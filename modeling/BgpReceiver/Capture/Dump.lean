import BgpReceiver.Capture.Task
import BgpReceiver.Wire.Helpers

/-!
# Packets that are dumped

From a packet to its report (`dump_reported`). `tcpdump` prints a packet as a line that begins
it and a dump of its octets: lines with sixteen of them at most, each with an offset, the
octets as words of four digits, and the octets again as text, where what cannot be shown is
a dot.

The reader does not know how many words there are, and takes the text for one more word when
the line has room for it and the text looks like one. So a dump is read as the octets of
the packet, and as more when the last line has two octets or four that are all digits in
ASCII (`lineOctets_dumpFrom`). A message that is in the octets is found all the same.

No line of a dump is taken for the beginning of a packet, whatever the octets are: that
would need a direction with white space behind it, and the letters of a direction are only in
the text, which has no white space (`captures_dumpLine`).
-/

namespace Capture

open Wire (hexEncode hex4)

/-! ### A dump -/

/-- How an octet is shown as text. -/
def shown (b : UInt8) : Char := if 0x20 < b ∧ b < 0x7F then Char.ofNat b.toNat else '.'

/-- The words of some octets: two in each, and a last one by itself. -/
def words : Bytes → List (List Char)
  | a :: b :: rest => (hexEncode [a, b]).toList :: words rest
  | [a] => [(hexEncode [a]).toList]
  | [] => []

/-- A line that shows at most sixteen octets, as words and as text. -/
def dumpLine (offset : ℕ) (octets : Bytes) : String :=
  let hex := (words octets).flatMap (' ' :: ·)
  "\t0x" ++ hex4 offset ++ ":" ++ String.ofList
    (' ' :: hex ++ List.replicate (40 - hex.length) ' ' ++ ' ' :: ' ' :: octets.map shown)

/-- The lines that show some octets. -/
def dumpFrom (offset : ℕ) (octets : Bytes) : List String :=
  if h : octets = [] then []
  else dumpLine offset (octets.take 16) :: dumpFrom (offset + 16) (octets.drop 16)
  termination_by octets.length
  decreasing_by simp [List.length_pos_iff.mpr h]

/-! ### The digits -/

/-- A hexadecimal digit is a letter of a word, is read back as what it stands for, and separates no
words. There are sixteen of them. -/
theorem digitChar_facts : ∀ d < 16, isHexDigit (Nat.digitChar d) = true ∧
    hexValue (Nat.digitChar d) = d ∧ Text.isWhitespace (Nat.digitChar d) = false := by
  decide

/-- The octets are shown with hexadecimal digits and nothing else. -/
theorem exists_digit_of_mem_hexEncode {c : Char} {bs : Bytes} (h : c ∈ (hexEncode bs).toList) :
    ∃ d < 16, c = Nat.digitChar d := by
  rw [hexEncode, String.toList_ofList, List.mem_flatMap] at h
  obtain ⟨b, -, hb⟩ := h
  have hlt := b.toNat_lt
  rcases List.mem_pair.mp hb with rfl | rfl
  · exact ⟨_, by omega, rfl⟩
  · exact ⟨_, by omega, rfl⟩

/-- **Octets that are written as digits are read again.** -/
theorem wordOctets_hexEncode (bs : Bytes) : wordOctets (hexEncode bs).toList = bs := by
  rw [hexEncode, String.toList_ofList]
  induction bs with
  | nil => rfl
  | cons b bs ih =>
    have hlt := b.toNat_lt
    have hvalue : UInt8.ofNat (b.toNat / 16 * 16 + b.toNat % 16) = b := by
      rw [Nat.div_add_mod', UInt8.ofNat_toNat]
    rw [List.flatMap_cons, List.cons_append, List.cons_append, List.nil_append, wordOctets,
      (digitChar_facts _ (by omega)).2.1, (digitChar_facts _ (by omega)).2.1, hvalue, ih]

theorem length_hexEncode (bs : Bytes) : (hexEncode bs).toList.length = 2 * bs.length := by
  rw [hexEncode, String.toList_ofList, List.length_flatMap]
  simp [Nat.mul_comm]

/-- One octet or two make a word that the task takes. -/
theorem isWord_hexEncode {bs : Bytes} (h : bs.length = 1 ∨ bs.length = 2) :
    isWord (hexEncode bs).toList = true := by
  have hdigits : (hexEncode bs).toList.all isHexDigit = true := List.all_eq_true.mpr fun c hc => by
    obtain ⟨d, hd, rfl⟩ := exists_digit_of_mem_hexEncode hc
    exact (digitChar_facts d hd).1
  rw [isWord, hdigits, length_hexEncode]
  rcases h with h | h <;> simp [h]

/-! ### The words -/

/-- A word is made of one octet or of two. -/
theorem exists_of_mem_words {bs : Bytes} {w : List Char} (h : w ∈ words bs) :
    ∃ part : Bytes, (part.length = 1 ∨ part.length = 2) ∧ w = (hexEncode part).toList := by
  induction bs using words.induct with
  | case1 a b rest ih =>
    rcases List.mem_cons.mp h with rfl | h
    · exact ⟨[a, b], .inr rfl, rfl⟩
    · exact ih h
  | case2 a => exact ⟨[a], .inl rfl, List.mem_singleton.mp h⟩
  | case3 => cases h

/-- **The words of a line give back its octets.** -/
theorem words_octets (bs : Bytes) : (words bs).flatMap wordOctets = bs := by
  induction bs using words.induct with
  | case1 a b rest ih => rw [words, List.flatMap_cons, wordOctets_hexEncode, ih]; rfl
  | case2 a => rw [words, List.flatMap_singleton, wordOctets_hexEncode]
  | case3 => rfl

/-- Two octets to a word, and a last one of its own. -/
theorem length_words (bs : Bytes) : (words bs).length = (bs.length + 1) / 2 := by
  induction bs using words.induct with
  | case1 a b rest ih =>
    rw [words, List.length_cons, ih, List.length_cons, List.length_cons]
    omega
  | case2 | case3 => simp [words]

/-- Every word of a line is one that the task takes, so none of them ends the octets early. -/
theorem words_word {bs : Bytes} : ∀ w ∈ words bs, isWord w = true := fun w hw => by
  obtain ⟨part, hpart, rfl⟩ := exists_of_mem_words hw
  exact isWord_hexEncode hpart

/-- No word is empty, and all its letters are digits. -/
theorem words_digits {bs : Bytes} : ∀ w ∈ words bs, w ≠ [] ∧ ∀ c ∈ w, ∃ d < 16,
    c = Nat.digitChar d := fun w hw => by
  obtain ⟨part, hpart, rfl⟩ := exists_of_mem_words hw
  refine ⟨fun hnil => ?_, fun c hc => exists_digit_of_mem_hexEncode hc⟩
  have hlen := length_hexEncode part
  rw [hnil, List.length_nil] at hlen
  omega

/-! ### The text -/

/-- No character of the text column is white space: a space is shown as a full stop, as what cannot
be printed is. -/
theorem isWhitespace_shown (b : UInt8) : Text.isWhitespace (shown b) = false := by
  unfold shown
  split_ifs with h
  · have hvalid : b.toNat.isValidChar := .inl (by have := b.toNat_lt; omega)
    have hnat : (Char.ofNat b.toNat).toNat = b.toNat := by
      rw [Char.ofNat, dif_pos hvalid]
      exact Char.toNat_ofNatAux hvalid
    obtain ⟨hlow, hhigh⟩ := h
    rw [UInt8.lt_iff_toNat_lt] at hlow hhigh
    change 32 < b.toNat at hlow
    change b.toNat < 127 at hhigh
    rw [Text.isWhitespace, hnat]
    simp
    omega
  · rfl

/-! ### Reading a line -/

/-- What is read of the text that shows some octets, as if it was a word. -/
def stray (octets : Bytes) : Bytes :=
  if isWord (octets.map shown) then wordOctets (octets.map shown) else []

/-- What is behind the offset is split into the words and the text. -/
theorem splitWhitespace_dump {octets : Bytes} (h : octets ≠ []) (k : ℕ) :
    splitWhitespace (String.ofList (' ' :: (words octets).flatMap (' ' :: ·) ++
      List.replicate k ' ' ++ ' ' :: ' ' :: octets.map shown)) =
      words octets ++ [octets.map shown] := by
  have hspace : Text.isWhitespace ' ' = true := rfl
  -- neither the words nor the text have white space in them
  have hws : ∀ w ∈ words octets, w ≠ [] ∧ ∀ c ∈ w, Text.isWhitespace c = false := fun w hw => by
    obtain ⟨hne, hall⟩ := words_digits w hw
    refine ⟨hne, fun c hc => ?_⟩
    obtain ⟨d, hd, rfl⟩ := hall c hc
    exact (digitChar_facts d hd).2.2
  have htext : ∀ c ∈ octets.map shown, Text.isWhitespace c = false := fun c hc => by
    obtain ⟨b, -, rfl⟩ := List.mem_map.mp hc
    exact isWhitespace_shown b
  -- what pads the words is white space, and the text is behind it
  have hgap : ∀ c ∈ List.replicate k ' ' ++ [' ', ' '], Text.isWhitespace c = true := by
    intro c hc
    obtain hc | hc := List.mem_append.mp hc
    · rw [List.eq_of_mem_replicate hc, hspace]
    · rcases List.mem_pair.mp hc with rfl | rfl <;> exact hspace
  have hhead : ∀ c ∈ ((List.replicate k ' ' ++ [' ', ' ']) ++ octets.map shown).head?,
      Text.isWhitespace c = true := by
    cases k with
    | zero => exact fun c hc => Option.some.inj hc ▸ hspace
    | succ k => exact fun c hc => Option.some.inj hc ▸ hspace
  -- the space in front, the words, the gap and the text are split off one after the other
  calc splitWhitespace _
      = Fields.fields Text.isWhitespace ([' '] ++ ((words octets).flatMap (' ' :: ·) ++
          ((List.replicate k ' ' ++ [' ', ' ']) ++ octets.map shown))) := by
        rw [splitWhitespace, String.toList_ofList]
        simp
    _ = words octets ++ Fields.fields Text.isWhitespace
          ((List.replicate k ' ' ++ [' ', ' ']) ++ (octets.map shown ++ [])) := by
        rw [Fields.fields_seps (List.forall_mem_singleton.mpr hspace),
          Fields.fields_flatMap hspace hws hhead, List.append_nil]
    _ = words octets ++ [octets.map shown] := by
        rw [Fields.fields_seps hgap, Fields.fields_append (by simpa using h) htext (by simp),
          Fields.fields_nil]

/-- The first eight words are octets, and the text may be taken for one of them. -/
theorem takeWhile_words {octets : Bytes} (hlen : octets.length ≤ 16) :
    (((words octets ++ [octets.map shown]).take 8).takeWhile isWord).flatMap wordOctets =
      octets ++ stray octets := by
  have hwords := length_words octets
  have hall : ∀ ws : List (List Char), (words octets ++ ws).takeWhile isWord =
      words octets ++ ws.takeWhile isWord := fun ws =>
    List.takeWhile_append_of_pos words_word
  by_cases hfull : (words octets).length = 8
  · -- there is no place for the text
    have hnot : isWord (octets.map shown) = false := by
      simp only [isWord, List.length_map, Bool.and_eq_false_imp, Bool.or_eq_true, decide_eq_true_eq]
      omega
    rw [List.take_append_of_le_length hfull.ge, List.take_of_length_le hfull.le,
      ← List.append_nil (words octets), hall, List.takeWhile_nil, List.append_nil, words_octets,
      stray, hnot]
    exact (List.append_nil octets).symm
  · have hle : (words octets ++ [octets.map shown]).length ≤ 8 := by
      rw [List.length_append, List.length_singleton]
      omega
    rw [List.take_of_length_le hle, hall, List.flatMap_append, words_octets, stray]
    split_ifs with hword
    · rw [List.takeWhile_cons_of_pos hword, List.takeWhile_nil, List.flatMap_singleton]
    · rw [List.takeWhile_cons_of_neg hword, List.flatMap_nil]

/-- **A line of a dump is read as its octets**, and as what its text looks like. -/
theorem lineOctets_dumpLine {octets : Bytes} (h : octets ≠ []) (hlen : octets.length ≤ 16)
    (offset : ℕ) : lineOctets (dumpLine offset octets) = octets ++ stray octets := by
  -- the first colon is the one behind the offset
  have hcolon : ':' ∉ ("\t0x" ++ hex4 offset).toList := by
    rw [String.toList_append, List.mem_append, not_or]
    refine ⟨by decide, fun hmem => ?_⟩
    obtain ⟨d, hd, heq⟩ := exists_digit_of_mem_hexEncode hmem
    exact (show ∀ d < 16, ':' ≠ Nat.digitChar d by decide) d hd heq
  -- behind its tabulator the line begins with the mark of a dump
  have hstarts : Text.startsWith (String.ofList
      ((dumpLine offset octets).toList.dropWhile Text.isWhitespace)) "0x" = true := by
    have hlist : ∃ rest, (dumpLine offset octets).toList = '\t' :: '0' :: 'x' :: rest :=
      ⟨_, by rw [dumpLine, String.toList_append, String.toList_append, String.toList_append]; rfl⟩
    obtain ⟨rest, hrest⟩ := hlist
    have htrim : ('\t' :: '0' :: 'x' :: rest).dropWhile Text.isWhitespace = '0' :: 'x' :: rest :=
      rfl
    have hzero : "0x".toList = ['0', 'x'] := rfl
    simp [hrest, htrim, hzero, Text.startsWith]
  rw [lineOctets, if_pos hstarts, dumpLine,
    Text.splitOnce_append (show ":".toList = [':'] from rfl) hcolon]
  simp only [splitWhitespace_dump h, takeWhile_words hlen]

/-! ### A line of a dump begins no packet -/

/-- What is in front of the text has no letter that a direction begins with. -/
theorem not_mem_front {x : Char} (hx : x = 'I' ∨ x = 'O') (offset : ℕ) (octets : Bytes) (k : ℕ) :
    x ∉ ("\t0x" ++ hex4 offset ++ ":").toList ++ (' ' :: (words octets).flatMap (' ' :: ·) ++
      List.replicate k ' ' ++ [' ', ' ']) := by
  have hdigit : ∀ d < 16, x ≠ Nat.digitChar d := by
    rcases hx with rfl | rfl <;> decide
  have hspace : x ≠ ' ' := by rcases hx with rfl | rfl <;> decide
  -- the offset and the words have digits in them, and no digit is such a letter
  have hoffset : x ∉ ("\t0x" ++ hex4 offset ++ ":").toList := by
    rw [String.toList_append, String.toList_append, List.mem_append, List.mem_append]
    rintro ((h | h) | h)
    · rcases hx with rfl | rfl <;> revert h <;> decide
    · obtain ⟨d, hd, heq⟩ := exists_digit_of_mem_hexEncode h
      exact hdigit d hd heq
    · rcases hx with rfl | rfl <;> revert h <;> decide
  have hwords : x ∉ (words octets).flatMap (' ' :: ·) := fun h => by
    obtain ⟨w, hw, hmem⟩ := List.mem_flatMap.mp h
    rcases List.mem_cons.mp hmem with rfl | hmem
    · exact hspace rfl
    · obtain ⟨d, hd, heq⟩ := (words_digits w hw).2 x hmem
      exact hdigit d hd heq
  have hgap : x ∉ List.replicate k ' ' := fun h => hspace (List.eq_of_mem_replicate h)
  -- neither is there one in what pads the words
  simp only [List.cons_append, List.mem_append, List.mem_cons, List.not_mem_nil, not_or]
  exact ⟨hoffset, hspace, ⟨hwords, hgap⟩, hspace, hspace, id⟩

/-- **No line of a dump begins a packet**: white space is only in front of its text, and the
letters of a direction are only in it. -/
theorem captures_dumpLine {digit : Char → Bool} (offset : ℕ) (octets : Bytes) :
    captures digit (dumpLine offset octets) = none := by
  refine Pattern.search_eq_none_iff.mpr fun v g hm hin => ?_
  obtain ⟨time, x, more, rfl, hx, s, hs, hwhite⟩ := direction_of_matches hm
  obtain ⟨front, back, hinfix⟩ := hin
  obtain ⟨rest, hline, hs⟩ : ∃ rest, (dumpLine offset octets).toList =
      (front ++ time) ++ x :: rest ∧ s ∈ rest :=
    ⟨more ++ back, by rw [← hinfix]; simp, List.mem_append_left _ hs⟩
  have hnot := not_mem_front hx offset octets (40 - ((words octets).flatMap (' ' :: ·)).length)
  have hsplit : (dumpLine offset octets).toList =
      (("\t0x" ++ hex4 offset ++ ":").toList ++ (' ' :: (words octets).flatMap (' ' :: ·) ++
        List.replicate (40 - ((words octets).flatMap (' ' :: ·)).length) ' ' ++ [' ', ' '])) ++
        octets.map shown := by
    rw [dumpLine, String.toList_append, String.toList_ofList]
    simp
  have htext : s ∈ octets.map shown := by
    rw [hline] at hsplit
    rcases List.append_eq_append_iff.mp hsplit with ⟨more, hfront, hrest⟩ | ⟨more, -, htext⟩
    · -- the letter would be in front of the text
      cases more with
      | nil =>
        rw [List.nil_append] at hrest
        rw [← hrest]
        exact List.mem_cons_of_mem _ hs
      | cons y more =>
        obtain ⟨rfl, -⟩ := List.cons.inj hrest
        exact absurd (by rw [hfront]; simp) hnot
    · rw [htext]
      exact List.mem_append_right _ (List.mem_cons_of_mem _ hs)
  obtain ⟨b, -, rfl⟩ := List.mem_map.mp htext
  exact absurd ((isWhitespace_shown b).symm.trans hwhite) nofun

/-! ### A packet -/

/-- No line of a whole dump begins a packet, whatever the offset that it starts from. -/
theorem captures_of_mem_dumpFrom {digit : Char → Bool} (offset : ℕ) (octets : Bytes) :
    ∀ line ∈ dumpFrom offset octets, captures digit line = none := by
  induction offset, octets using dumpFrom.induct with
  | case1 offset =>
    rw [dumpFrom, dif_pos rfl]
    exact nofun
  | case2 offset octets h ih =>
    rw [dumpFrom, dif_neg h]
    exact List.forall_mem_cons.mpr ⟨captures_dumpLine _ _, ih⟩

/-- What is read of a packet beyond its octets, which is of its last line. -/
def leftover (octets : Bytes) : Bytes := stray (octets.drop (octets.length / 16 * 16))

/-- A text of another length than two or four is no word, so nothing is read of it. -/
theorem stray_eq_nil {octets : Bytes} (h : octets.length ≠ 2) (h' : octets.length ≠ 4) :
    stray octets = [] := by
  rw [stray, isWord, List.length_map, decide_eq_false h, decide_eq_false h']
  rfl

/-- **A dump is read as its octets.** -/
theorem lineOctets_dumpFrom (offset : ℕ) (octets : Bytes) :
    (dumpFrom offset octets).flatMap lineOctets = octets ++ leftover octets := by
  induction offset, octets using dumpFrom.induct with
  | case1 offset => rw [dumpFrom, dif_pos rfl]; rfl
  | case2 offset octets h ih =>
    rw [dumpFrom, dif_neg h, List.flatMap_cons, ih,
      lineOctets_dumpLine (by simpa using h) (List.length_take_le 16 octets)]
    rcases Nat.lt_or_ge octets.length 16 with hlt | hge
    · -- there is one line
      have hlast : octets.length / 16 * 16 = 0 := by omega
      rw [List.take_of_length_le hlt.le, List.drop_of_length_le hlt.le, leftover, leftover, hlast]
      exact List.append_nil _
    · have hlen : (octets.take 16).length = 16 := List.length_take_of_le hge
      have hlast : 16 + (octets.drop 16).length / 16 * 16 = octets.length / 16 * 16 := by
        rw [List.length_drop]
        omega
      rw [stray_eq_nil (by omega) (by omega), List.append_nil, ← List.append_assoc,
        List.take_append_drop, leftover, leftover, List.drop_drop, hlast]

/-! ### The kind of a message -/

/-- The windows of some octets are the first one and those of the octets behind the first. -/
theorem windows_cons {n : ℕ} {a : UInt8} {bs : Bytes} (h : n ≤ bs.length + 1) :
    windows n (a :: bs) = (a :: bs).take n :: windows n bs := by
  have hcount : (a :: bs).length + 1 - n = bs.length + 1 - n + 1 := by
    rw [List.length_cons]
    omega
  rw [windows, hcount, List.range_succ_eq_map, List.map_cons, List.map_map]
  rfl

/-- A message that is found is found when there are more octets. -/
theorem bgpKind_append {bytes : Bytes} {name : String} (h : bgpKind bytes = some name)
    (more : Bytes) : bgpKind (bytes ++ more) = some name := by
  -- by induction on the octets, window by window
  induction bytes with
  | nil => cases h
  | cons a bytes ih =>
    by_cases hlen : 19 ≤ bytes.length + 1
    · have hlen' : 19 ≤ (bytes ++ more).length + 1 := by
        rw [List.length_append]
        omega
      -- the first window ends in front of what is added, so it is the same one
      rw [bgpKind, windows_cons hlen, List.findSome?_cons] at h
      rw [List.cons_append, bgpKind, windows_cons hlen', List.findSome?_cons, ← List.cons_append,
        List.take_append_of_le_length (by simpa using hlen)]
      cases hw : windowKind ((a :: bytes).take 19) with
      | some found =>
        rw [hw] at h
        exact h
      | none =>
        rw [hw] at h
        exact ih h
    · -- fewer octets than a header have no window, and no kind
      have hnone : windows 19 (a :: bytes) = [] := by
        rw [windows, show (a :: bytes).length + 1 - 19 = 0 by rw [List.length_cons]; omega]
        rfl
      rw [bgpKind, hnone] at h
      cases h

/-- No marker begins in some octets that are in front of one. -/
def Unmarked (front : Bytes) : Prop :=
  ∀ i < front.length, ((front ++ List.replicate 16 255).drop i).take 16 ≠ List.replicate 16 255

/-- **The first message is found** behind the headers of the packet. -/
theorem bgpKind_message {front : Bytes} (hfront : Unmarked front) {kind : UInt8} {name : String}
    (hname : kindName kind = some name) (body rest : Bytes) :
    bgpKind (front ++ (Wire.message kind body ++ rest)) = some name := by
  -- a message begins with its marker
  have hmessage : Wire.message kind body ++ rest =
      List.replicate 16 255 ++
        (Wire.u16ToBeBytes (body.length + 19) ++ [kind] ++ body ++ rest) := by
    rw [Wire.message]
    simp
  have hlen : 19 ≤ (Wire.message kind body ++ rest).length := by
    rw [hmessage]
    simp [Wire.u16ToBeBytes]
  -- by induction on the headers: the message is at the first window, or the window is no header
  induction front with
  | nil =>
    obtain ⟨a, more, hcons⟩ : ∃ a more, Wire.message kind body ++ rest = a :: more :=
      List.exists_cons_of_length_pos (by omega)
    have hkind : windowKind ((Wire.message kind body ++ rest).take 19) = some name := by
      rw [← hname]
      rfl
    rw [List.nil_append, bgpKind, hcons, windows_cons (by rw [hcons] at hlen; exact hlen), ← hcons,
      List.findSome?_cons, hkind]
  | cons a front ih =>
    have hfar : 19 ≤ (front ++ (Wire.message kind body ++ rest)).length + 1 := by
      rw [List.length_append]
      omega
    -- no marker begins here, by the condition on the headers
    have hother : windowKind ((a :: (front ++ (Wire.message kind body ++ rest))).take 19) =
        none := by
      have hfirst := hfront 0 (Nat.succ_pos _)
      rw [windowKind, if_neg]
      rw [List.take_take, show min 16 19 = 16 from rfl, hmessage, ← List.append_assoc,
        ← List.cons_append, List.take_append_of_le_length (by simp)]
      exact hfirst
    rw [List.cons_append, bgpKind, windows_cons hfar, List.findSome?_cons, hother]
    exact ih fun i hi => hfront (i + 1) (Nat.succ_lt_succ hi)

/-! ### What is reported of a dump -/

/-- A packet that is printed: a line that begins one, and the dump of its octets. -/
structure Dumped (digit : Char → Bool) where
  header : String
  way : Pattern.Way Char
  captured : captures digit header = some way
  octets : Bytes

variable {digit : Char → Bool} {peer : String}

/-- The lines that `tcpdump` prints for the packet. -/
def Dumped.lines (p : Dumped digit) : List String := p.header :: dumpFrom 0 p.octets

/-- What the task should report of it: its octets, with what the text of the last line looks
like. -/
def Dumped.report (p : Dumped digit) (peer : String) : Emission :=
  Capture.report (packet peer p.way) (p.octets ++ leftover p.octets)

/-- What has been reported when the lines are those of some packets. -/
structure DumpReported (peer : String) (ps : List (Dumped digit)) (t : Task) : Prop where
  /-- every packet, but for one in hand -/
  reports : t.reports = (if t.capturing then ps.dropLast else ps).map (·.report peer)
  /-- with the kind of the message that is first behind its headers -/
  kinds : ∀ p ∈ ps, ∀ front kind body rest name,
    p.octets = front ++ (Wire.message kind body ++ rest) → Unmarked front →
    kindName kind = some name → (p.report peer).extra.index "bgp_type" = .str name
  /-- and of its octets only, unless the last line has two of them or four -/
  exact : ∀ p ∈ ps, p.octets.length % 16 ≠ 2 → p.octets.length % 16 ≠ 4 →
    p.report peer = Capture.report (packet peer p.way) p.octets

/-- **From a packet to its report.** -/
theorem dump_reported {ps : List (Dumped digit)} {es : List Event} {t : Task}
    (h : (captureTask digit peer).Run .new es t) (hlines : linesOf es = ps.flatMap Dumped.lines) :
    DumpReported peer ps t := by
  -- the lines of a packet are a group, since none of its dump begins another one
  have hgroups : groups digit (linesOf es) = ps.map fun p => (p.way, dumpFrom 0 p.octets) := by
    rw [hlines]
    exact Headings.blocks_flatMap (fun p _ => p.captured) fun p _ => captures_of_mem_dumpFrom 0 _
  -- what is read of a group is what should be reported of its packet
  have hreport : ∀ p : Dumped digit,
      groupReport peer (p.way, dumpFrom 0 p.octets) = p.report peer := fun p => by
    rw [groupReport, lineOctets_dumpFrom]
    rfl
  refine ⟨?_, ?_, ?_⟩
  · rw [(captureTask_reading h).packets, hgroups]
    split_ifs
    · rw [← List.map_dropLast, List.map_map]
      exact List.map_congr_left fun p _ => hreport p
    · rw [List.map_map]
      exact List.map_congr_left fun p _ => hreport p
  · intro p _ front kind body rest name hoctets hfront hname
    have hkind := bgpKind_append (bgpKind_message hfront hname body rest) (leftover p.octets)
    rw [← hoctets] at hkind
    rw [Dumped.report, index_bgpType_report, hkind]
    rfl
  · intro p _ h2 h4
    rw [Dumped.report, leftover, stray_eq_nil, List.append_nil]
    · rw [List.length_drop]; omega
    · rw [List.length_drop]; omega

/-- The task can read any lines. -/
theorem exists_lines (digit : Char → Bool) (peer : String) (lines : List String) : ∃ t,
    (captureTask digit peer).Run .new (lines.map .line) t ∧ t.capturing = true := by
  induction lines using List.reverseRecOn with
  | nil => exact ⟨.new, .nil, rfl⟩
  | append_singleton lines line ih =>
    obtain ⟨t, h, hcap⟩ := ih
    have hs := @Step.line digit peer t line hcap
    rw [List.map_append]
    exact ⟨_, h.snoc hs, hcap⟩

/-- A run that takes some lines and nothing else has read these lines. -/
theorem linesOf_lines (lines : List String) : linesOf (lines.map .line) = lines := by
  rw [linesOf, List.filterMap_map]
  exact List.filterMap_some

/-- A KEEPALIVE behind forty octets of headers, in a dump of four lines. -/
theorem dump_reported_keepalive : ∃ (p : Dumped Char.isDigit) (t : Task), t.reports ≠ [] ∧
    (p.report "192.0.2.1").extra.index "bgp_type" = .str "KEEPALIVE" ∧
    DumpReported "192.0.2.1" [p] t := by
  obtain ⟨c, hc⟩ := exists_captures
  let p : Dumped Char.isDigit :=
    ⟨sampleHeader, c, hc, List.replicate 40 0 ++ (Wire.message 4 [] ++ [])⟩
  obtain ⟨t, hrun, hcap⟩ := exists_lines Char.isDigit "192.0.2.1" p.lines
  -- the lines of the packet are read, and the task is told to stop
  have hend := hrun.snoc (Step.stop hcap)
  have hlines : linesOf (p.lines.map .line ++ [.stop]) = [p].flatMap Dumped.lines := by
    rw [linesOf_concat, linesOf_lines, List.flatMap_singleton]
    exact List.append_nil _
  have hfacts := dump_reported hend hlines
  refine ⟨p, _, ?_, ?_, hfacts⟩
  · rw [hfacts.reports]
    exact List.cons_ne_nil _ _
  · exact hfacts.kinds p List.mem_cons_self _ 4 [] [] _ rfl (by unfold Unmarked; decide) rfl

end Capture
