import BgpReceiver.Framework.Text
import Mathlib

/-!
# Textual addresses

The texts that `Ipv4Addr` and `Ipv6Addr` print, from the octets of the address.

An IPv4 address is its four octets in decimal. An IPv6 address is eight
sixteen-bit segments in lower-case hexadecimal; the first of the longest runs of
two or more zero segments is printed as `::`, and an IPv4-mapped address is
printed as `::ffff:` and the dotted address.

Both texts determine the address (`ipv4Text_injective`, `ipv6Text_injective`).
For IPv6 the argument does not depend on which run of zeros is compressed: the
pieces between the colons name the segments before and after the run, and the
segments that are missing are zeros (`expand_pieces`).
-/

/-- The octets of a message. -/
abbrev Bytes := List UInt8

namespace IpAddr

/-- `Ipv4Addr::to_string`. -/
def ipv4Text (octets : Bytes) : String :=
  String.intercalate "." (octets.map fun b => Nat.repr b.toNat)

/-- `Ipv6Addr::segments`. -/
def segments : Bytes → List ℕ
  | a :: b :: rest => (a.toNat * 256 + b.toNat) :: segments rest
  | _ => []

/-- A run of zero segments. -/
structure Span where
  start : ℕ
  len : ℕ

/-- The run that ends before position `i`, with position `i` added. -/
def Span.grow (current : Span) (i : ℕ) : Span where
  start := if current.len = 0 then i else current.start
  len := current.len + 1

/-- One segment of the search for the longest run: the longest run so far, and the
run that ends at this segment. -/
def Span.step (acc : Span × Span) (segment : ℕ × ℕ) : Span × Span :=
  if segment.1 = 0 then
    let current := acc.2.grow segment.2
    (if current.len > acc.1.len then current else acc.1, current)
  else (acc.1, ⟨0, 0⟩)

/-- The first of the longest runs of zero segments. -/
def zeroes (segs : List ℕ) : Span :=
  (segs.zipIdx.foldl Span.step (⟨0, 0⟩, ⟨0, 0⟩)).1

/-- `fmt_subslice`: segments between colons. -/
def fmtSubslice (segs : List ℕ) : String :=
  String.intercalate ":" (segs.map Text.hex)

/-- `Ipv6Addr::to_ipv4_mapped`. -/
def toIpv4Mapped (octets : Bytes) : Option Bytes :=
  if octets.take 12 = [0, 0, 0, 0, 0, 0, 0, 0, 0, 0, 255, 255] then some (octets.drop 12)
  else none

/-- The text of segments with the run `span` compressed. -/
def compressed (segs : List ℕ) (span : Span) : String :=
  if span.len > 1 then
    fmtSubslice (segs.take span.start) ++ "::" ++ fmtSubslice (segs.drop (span.start + span.len))
  else fmtSubslice segs

/-- `Ipv6Addr::to_string`. -/
def ipv6Text (octets : Bytes) : String :=
  match toIpv4Mapped octets with
  | some ipv4 => "::ffff:" ++ ipv4Text ipv4
  | none => compressed (segments octets) (zeroes (segments octets))

example : ipv6Text [32, 1, 13, 184, 0, 0, 0, 0, 0, 0, 0, 0, 0, 0, 0, 1] = "2001:db8::1" := by
  decide

/-! ### IPv4 -/

theorem repr_toNat_injective : Function.Injective fun b : UInt8 => Nat.repr b.toNat :=
  fun _ _ h => UInt8.toNat_inj.mp (Nat.repr_inj.mp h)

/-- A character that is no digit is in no decimal numeral. -/
theorem not_mem_repr {c : Char} (hc : ∀ d, Nat.digitChar d ≠ c) (n : ℕ) :
    c ∉ (Nat.repr n).toList := by
  rw [Nat.toList_repr]
  exact Text.not_mem_toDigits (by decide) hc n

theorem digitChar_ne_dot (d : ℕ) : Nat.digitChar d ≠ '.' := Nat.digitChar_ne '.' (by decide)

theorem digitChar_ne_colon (d : ℕ) : Nat.digitChar d ≠ ':' := Nat.digitChar_ne ':' (by decide)

/-- **A dotted text determines its address.** -/
theorem ipv4Text_injective {a b : Bytes} (ha : a ≠ []) (hb : b ≠ [])
    (h : ipv4Text a = ipv4Text b) : a = b := by
  have hfree : ∀ l : Bytes, ∀ w ∈ l.map fun b => Nat.repr b.toNat, '.' ∉ w.toList := by
    intro l w hw
    obtain ⟨x, -, rfl⟩ := List.mem_map.mp hw
    exact not_mem_repr digitChar_ne_dot x.toNat
  have hmap := Text.intercalate_inj (c := '.') rfl (hfree a) (hfree b) (by simpa using ha)
    (by simpa using hb) h
  exact List.map_injective_iff.mpr repr_toNat_injective hmap

/-- A dotted text of more than one octet has a dot in it. -/
theorem dot_mem_ipv4Text {a b : UInt8} {octets : Bytes} :
    '.' ∈ (ipv4Text (a :: b :: octets)).toList := by
  rw [ipv4Text, List.map_cons, List.map_cons, String.intercalate_cons_cons]
  simp

/-! ### The compressed run -/

/-- Every segment of the run is zero. -/
def IsZeroRun (segs : List ℕ) (span : Span) : Prop :=
  ∀ i, span.start ≤ i → i < span.start + span.len → segs[i]? = some 0

/-- The longest run and the run that ends here consist of zeros, and the latter
does end here. -/
theorem zeroes_spec (segs : List ℕ) :
    let acc := segs.zipIdx.foldl Span.step (⟨0, 0⟩, ⟨0, 0⟩)
    IsZeroRun segs acc.1 ∧ IsZeroRun segs acc.2 ∧
      (acc.2.len ≠ 0 → acc.2.start + acc.2.len = segs.length) := by
  -- by induction from the right, as the loop goes
  induction segs using List.reverseRecOn with
  | nil => exact ⟨fun _ _ h => absurd h (by simp), fun _ _ h => absurd h (by simp), by simp⟩
  | append_singleton segs x ih =>
    -- a run of zeros stays one when a segment is added
    have hgrow : ∀ {span}, IsZeroRun segs span → IsZeroRun (segs ++ [x]) span := by
      intro span h i hi hlt
      have h₀ := h i hi hlt
      have hlen := (List.getElem?_eq_some_iff.mp h₀).1
      rw [List.getElem?_append_left hlen]
      exact h₀
    rw [List.zipIdx_append, List.foldl_append]
    generalize segs.zipIdx.foldl Span.step (⟨0, 0⟩, ⟨0, 0⟩) = acc at ih
    obtain ⟨longest, current⟩ := acc
    obtain ⟨hl, hc, he⟩ := ih
    simp only at hl hc he
    simp only [List.zipIdx_singleton, List.foldl_cons, List.foldl_nil, Span.step, Nat.zero_add]
    by_cases hx : x = 0
    · subst hx
      -- the run that ends here is longer by this segment
      obtain ⟨hnew, hend⟩ : IsZeroRun (segs ++ [0]) (current.grow segs.length) ∧
          (current.grow segs.length).start + (current.grow segs.length).len
            = segs.length + 1 := by
        by_cases h₀ : current.len = 0
        · have hg : current.grow segs.length = ⟨segs.length, 1⟩ := by simp [Span.grow, h₀]
          rw [hg]
          refine ⟨fun i hi hlt => ?_, rfl⟩
          obtain rfl : i = segs.length := by simp only at hi hlt; omega
          simp
        · have hg : current.grow segs.length = ⟨current.start, current.len + 1⟩ := by
            simp [Span.grow, h₀]
          have he := he h₀
          rw [hg]
          refine ⟨fun i hi hlt => ?_, by simp only; omega⟩
          simp only at hi hlt
          by_cases hi' : i = segs.length
          · subst hi'
            simp
          · exact hgrow hc i hi (by omega)
      rw [if_pos rfl]
      refine ⟨?_, hnew, fun _ => by simpa using hend⟩
      simp only
      split_ifs
      · exact hnew
      · exact hgrow hl
    · rw [if_neg hx]
      exact ⟨hgrow hl, fun _ _ h => absurd h (by simp), by simp⟩

/-- What the scan finds is a run of zeros. -/
theorem zeroes_isZeroRun (segs : List ℕ) : IsZeroRun segs (zeroes segs) :=
  (zeroes_spec segs).1

/-- Putting the zeros back where the run was compressed. -/
theorem IsZeroRun.expand {segs : List ℕ} {span : Span} (h : IsZeroRun segs span)
    (hlen : 0 < span.len) :
    segs.take span.start ++ List.replicate span.len 0 ++ segs.drop (span.start + span.len)
        = segs ∧ span.start + span.len ≤ segs.length := by
  have hle : span.start + span.len ≤ segs.length := by
    have := (List.getElem?_eq_some_iff.mp
      (h (span.start + span.len - 1) (by omega) (by omega))).1
    omega
  refine ⟨?_, hle⟩
  -- the run is where the zeros are put back
  have hrun : (segs.drop span.start).take span.len = List.replicate span.len 0 := by
    refine List.eq_replicate_iff.mpr ⟨by rw [List.length_take, List.length_drop]; omega, ?_⟩
    intro x hx
    obtain ⟨i, hi⟩ := List.mem_iff_getElem?.mp hx
    have hlt : i < span.len := by
      have := (List.getElem?_eq_some_iff.mp hi).1
      rw [List.length_take] at this
      omega
    rw [List.getElem?_take_of_lt hlt, List.getElem?_drop, h _ (by omega) (by omega)] at hi
    exact (Option.some.inj hi).symm
  rw [← hrun, ← List.drop_drop, List.append_assoc, List.take_append_drop, List.take_append_drop]

/-! ### Pieces between colons -/

/-- The pieces of one side of the compressed run; a side without segments is an
empty piece. -/
def sidePieces (segs : List ℕ) : List String :=
  if segs = [] then [""] else segs.map Text.hex

/-- The pieces that the colons of an IPv6 text separate. -/
def pieces (octets : Bytes) : List String :=
  match toIpv4Mapped octets with
  | some ipv4 => ["", "", "ffff", ipv4Text ipv4]
  | none =>
    let segs := segments octets
    let span := zeroes segs
    if span.len > 1 then
      sidePieces (segs.take span.start) ++ [""] ++ sidePieces (segs.drop (span.start + span.len))
    else segs.map Text.hex

/-- Fill the gap between the pieces before the first empty one and the pieces after
the last empty one with zeros. -/
def expand (ps : List String) : List String :=
  let left := ps.takeWhile (· ≠ "")
  let right := (ps.reverse.takeWhile (· ≠ "")).reverse
  if left.length = ps.length then ps
  else left ++ List.replicate (8 - left.length - right.length) (Text.hex 0) ++ right

/-- The pieces of a side, with colons between them, are its text. -/
theorem intercalate_sidePieces (segs : List ℕ) :
    String.intercalate ":" (sidePieces segs) = fmtSubslice segs := by
  unfold sidePieces fmtSubslice
  split_ifs with h
  · subst h
    simp
  · rfl

/-- A side has a piece, be it an empty one. -/
theorem sidePieces_ne_nil (segs : List ℕ) : sidePieces segs ≠ [] := by
  unfold sidePieces
  split_ifs with h
  · simp
  · simpa using h

/-- **The text of an address is its pieces**, with colons between them. -/
theorem intercalate_pieces (octets : Bytes) :
    String.intercalate ":" (pieces octets) = ipv6Text octets := by
  unfold pieces ipv6Text
  cases toIpv4Mapped octets with
  | some ipv4 =>
    -- the IPv4 address is behind the two pieces of the mapping
    simp only [String.intercalate_cons_cons, String.intercalate_singleton]
    simp only [← String.append_assoc]
    rfl
  | none =>
    simp only [compressed]
    -- a run that is long enough is shown as a gap, between two sides
    split_ifs with h
    · rw [List.append_assoc,
        String.intercalate_append_of_ne_nil (sidePieces_ne_nil _) (by simp),
        String.intercalate_append_of_ne_nil (by simp) (sidePieces_ne_nil _),
        intercalate_sidePieces, intercalate_sidePieces, String.intercalate_singleton,
        String.empty_append, ← String.append_assoc]
      congr 1
      rw [String.append_assoc]
      rfl
    · rfl

/-- A numeral is not empty, so it cannot be taken for the gap of a text. -/
theorem hex_ne_empty (n : ℕ) : Text.hex n ≠ "" := fun h => by
  have := congrArg String.toList h
  rw [Text.toList_hex] at this
  exact Nat.toDigits_ne_nil this

/-- A character that is no digit is in no hexadecimal numeral. -/
theorem not_mem_hex {c : Char} (hc : ∀ d, Nat.digitChar d ≠ c) (n : ℕ) :
    c ∉ (Text.hex n).toList := by
  rw [Text.toList_hex]
  exact Text.not_mem_toDigits (by decide) hc n

/-- A piece of an address that is not IPv4-mapped is empty or a numeral. -/
theorem mem_pieces {octets : Bytes} (h : toIpv4Mapped octets = none) {w : String}
    (hw : w ∈ pieces octets) : w = "" ∨ ∃ n, w = Text.hex n := by
  -- a side of `::` is the empty piece or its segments
  have hside : ∀ {segs : List ℕ}, w ∈ sidePieces segs → w = "" ∨ ∃ n, w = Text.hex n := by
    intro segs hw
    unfold sidePieces at hw
    split_ifs at hw
    · exact Or.inl (List.mem_singleton.mp hw)
    · obtain ⟨n, -, rfl⟩ := List.mem_map.mp hw
      exact Or.inr ⟨n, rfl⟩
  unfold pieces at hw
  simp only [h] at hw
  split_ifs at hw
  · rcases List.mem_append.mp hw with hw | hw
    · rcases List.mem_append.mp hw with hw | hw
      · exact hside hw
      · exact Or.inl (List.mem_singleton.mp hw)
    · exact hside hw
  · obtain ⟨n, -, rfl⟩ := List.mem_map.mp hw
    exact Or.inr ⟨n, rfl⟩

/-- No piece has a colon in it, so the text can be cut at its colons again. -/
theorem colon_not_mem_pieces (octets : Bytes) : ∀ w ∈ pieces octets, ':' ∉ w.toList := by
  intro w hw
  cases h : toIpv4Mapped octets with
  | none =>
    rcases mem_pieces h hw with rfl | ⟨n, rfl⟩
    · simp
    · exact not_mem_hex digitChar_ne_colon n
  | some ipv4 =>
    simp only [pieces, h, List.mem_cons, List.not_mem_nil, or_false] at hw
    rcases hw with rfl | rfl | rfl | rfl
    · simp
    · simp
    · decide
    · intro hc
      -- the last piece is an IPv4 address, with full stops between its numerals
      rcases Text.mem_intercalate hc with h | ⟨w, hw, hc⟩
      · exact absurd h (by decide)
      · obtain ⟨b, -, rfl⟩ := List.mem_map.mp hw
        exact not_mem_repr digitChar_ne_colon b.toNat hc

/-- The numerals in front of a gap are those of the left side. -/
theorem takeWhile_sidePieces (segs : List ℕ) (rest : List String) :
    (sidePieces segs ++ [""] ++ rest).takeWhile (· ≠ "") = segs.map Text.hex := by
  unfold sidePieces
  split_ifs with h
  · subst h
    simp
  · rw [List.append_assoc, List.takeWhile_append_of_pos]
    · simp
    · intro w hw
      obtain ⟨n, -, rfl⟩ := List.mem_map.mp hw
      simpa using hex_ne_empty n

/-- Read from behind, a side has the pieces of its segments from behind. -/
theorem reverse_sidePieces (segs : List ℕ) :
    (sidePieces segs).reverse = sidePieces segs.reverse := by
  unfold sidePieces
  split_ifs with h h' h'
  · rfl
  · exact absurd (by rw [h]; rfl) h'
  · exact absurd (List.reverse_eq_nil_iff.mp h') h
  · rw [List.map_reverse]

/-- **The pieces name the segments.** Whatever run of zeros was compressed, filling
the gap gives back the numerals of all eight segments. -/
theorem expand_pieces {octets : Bytes} (h : toIpv4Mapped octets = none)
    (hlen : (segments octets).length = 8) :
    expand (pieces octets) = (segments octets).map Text.hex := by
  unfold pieces
  simp only [h]
  split_ifs with hspan
  · obtain ⟨hexp, hle⟩ := (zeroes_isZeroRun (segments octets)).expand (by omega)
    generalize hs : zeroes (segments octets) = span at *
    set left := (segments octets).take span.start with hl
    set right := (segments octets).drop (span.start + span.len) with hr
    -- what stands before the first empty piece, and after the last one
    have hleft : (sidePieces left ++ [""] ++ sidePieces right).takeWhile (· ≠ "")
        = left.map Text.hex := takeWhile_sidePieces left _
    have hright : (sidePieces left ++ [""] ++ sidePieces right).reverse.takeWhile (· ≠ "")
        = (right.map Text.hex).reverse := by
      rw [List.reverse_append, List.reverse_append, reverse_sidePieces, reverse_sidePieces,
        List.reverse_singleton, ← List.append_assoc, takeWhile_sidePieces, List.map_reverse]
    have hll : left.length = span.start := by
      rw [hl, List.length_take]
      omega
    have hrl : right.length = 8 - (span.start + span.len) := by
      rw [hr, List.length_drop, hlen]
    -- an elided address has at most eight pieces, so it is told from a whole one
    have hpos : 0 < (sidePieces right).length :=
      List.length_pos_iff.mpr (sidePieces_ne_nil right)
    have hlp : left.length ≤ (sidePieces left).length := by
      unfold sidePieces
      split_ifs with h₀ <;> simp [h₀]
    unfold expand
    rw [hleft, hright, List.reverse_reverse, if_neg, ← hexp, List.map_append, List.map_append,
      List.map_replicate, List.length_map, List.length_map, hll, hrl]
    · congr 3
      omega
    · simp only [List.length_append, List.length_map, List.length_singleton]
      omega
  · unfold expand
    rw [if_pos]
    rw [List.takeWhile_eq_self_iff.mpr]
    intro w hw
    obtain ⟨n, -, rfl⟩ := List.mem_map.mp hw
    simpa using hex_ne_empty n

/-- Segments of two octets each tell these octets. -/
theorem segments_inj : ∀ {a b : Bytes}, a.length = b.length → Even a.length →
    segments a = segments b → a = b
  | [], [], _, _, _ => rfl
  | [_], _, _, h, _ => absurd h (by simp)
  | a₁ :: a₂ :: a, b₁ :: b₂ :: b, hlen, heven, h => by
    simp only [segments, List.cons.injEq] at h
    have h₁ := a₁.toNat_lt
    have h₂ := a₂.toNat_lt
    have h₃ := b₁.toNat_lt
    have h₄ := b₂.toNat_lt
    have hrest : a = b :=
      segments_inj (by simpa using hlen) (by simpa [Nat.even_add_one] using heven) h.2
    have hb₁ : a₁ = b₁ := UInt8.toNat_inj.mp (by omega)
    have hb₂ : a₂ = b₂ := UInt8.toNat_inj.mp (by omega)
    rw [hrest, hb₁, hb₂]

theorem length_segments : ∀ {octets : Bytes} {n : ℕ}, octets.length = 2 * n →
    (segments octets).length = n
  | [], n, h => by simp [segments] at *; omega
  | [_], n, h => by simp at h; omega
  | _ :: _ :: octets, n, h => by
    have : octets.length = 2 * (n - 1) := by simp at h; omega
    rw [segments, List.length_cons, length_segments this]
    simp at h
    omega

/-- An address that is shown with its IPv4 address in it begins with the octets of the mapping. -/
theorem toIpv4Mapped_eq_some {octets ipv4 : Bytes} (h : toIpv4Mapped octets = some ipv4) :
    octets = [0, 0, 0, 0, 0, 0, 0, 0, 0, 0, 255, 255] ++ ipv4 := by
  unfold toIpv4Mapped at h
  split_ifs at h with hp
  rw [← Option.some.inj h, ← hp, List.take_append_drop]

/-- **An IPv6 text determines its address.** -/
theorem ipv6Text_injective {a b : Bytes} (ha : a.length = 16) (hb : b.length = 16)
    (h : ipv6Text a = ipv6Text b) : a = b := by
  have hne : ∀ {o : Bytes}, o.length = 16 → pieces o ≠ [] := by
    intro o ho hnil
    have hs := length_segments (show o.length = 2 * 8 from ho)
    unfold pieces at hnil
    split at hnil
    · simp at hnil
    · simp only at hnil
      split_ifs at hnil
      · simp at hnil
      · rw [List.map_eq_nil_iff.mp hnil] at hs
        simp at hs
  have hp : pieces a = pieces b := by
    rw [← intercalate_pieces, ← intercalate_pieces] at h
    exact Text.intercalate_inj (c := ':') rfl (colon_not_mem_pieces a) (colon_not_mem_pieces b)
      (hne ha) (hne hb) h
  -- a dot occurs in the last piece of a mapped address only
  have hdot : ∀ {o ipv4 : Bytes}, o.length = 16 → toIpv4Mapped o = some ipv4 →
      ∃ w ∈ pieces o, '.' ∈ w.toList := by
    intro o ipv4 ho hm
    have hl : ipv4.length = 4 := by
      have := congrArg List.length (toIpv4Mapped_eq_some hm)
      rw [ho] at this
      simp at this
      omega
    obtain ⟨x, y, rest, rfl⟩ : ∃ x y rest, ipv4 = x :: y :: rest := by
      match ipv4, hl with
      | [x, y, z, w], _ => exact ⟨x, y, [z, w], rfl⟩
    exact ⟨ipv4Text (x :: y :: rest), by simp [pieces, hm], dot_mem_ipv4Text⟩
  have hnodot : ∀ {o : Bytes}, toIpv4Mapped o = none → ∀ w ∈ pieces o, '.' ∉ w.toList := by
    intro o ho w hw
    rcases mem_pieces ho hw with rfl | ⟨n, rfl⟩
    · simp
    · exact not_mem_hex digitChar_ne_dot n
  cases hma : toIpv4Mapped a with
  | none =>
    cases hmb : toIpv4Mapped b with
    | none =>
      have hsegs : (segments a).map Text.hex = (segments b).map Text.hex := by
        rw [← expand_pieces hma (length_segments ha), hp, expand_pieces hmb (length_segments hb)]
      exact segments_inj (ha.trans hb.symm) (by rw [ha]; decide)
        (List.map_injective_iff.mpr Text.hex_injective hsegs)
    | some _ =>
      obtain ⟨w, hw, hd⟩ := hdot hb hmb
      exact absurd hd (hnodot hma w (hp ▸ hw))
  | some ipa =>
    cases hmb : toIpv4Mapped b with
    | none =>
      obtain ⟨w, hw, hd⟩ := hdot ha hma
      exact absurd hd (hnodot hmb w (hp ▸ hw))
    | some ipb =>
      have hea := toIpv4Mapped_eq_some hma
      have heb := toIpv4Mapped_eq_some hmb
      have hip : ipv4Text ipa = ipv4Text ipb := by
        simpa [pieces, hma, hmb] using hp
      have hnil : ∀ {o ip : Bytes}, o.length = 16 →
          o = [0, 0, 0, 0, 0, 0, 0, 0, 0, 0, 255, 255] ++ ip → ip ≠ [] := by
        rintro o ip ho rfl rfl
        simp at ho
      rw [hea, heb, ipv4Text_injective (hnil ha hea) (hnil hb heb) hip]

end IpAddr
