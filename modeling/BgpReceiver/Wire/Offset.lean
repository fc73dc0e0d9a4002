import BgpReceiver.Wire.Network
import BgpReceiver.Wire.Rules

/-!
# IPv6 prefixes and the offset octet

The decoder reads a prefix component of an IPv6 rule as a type, a length and the octets of the
prefix. What is written so is reported, whatever components are behind it: the prefix under
the key of its type, and the others as they are by themselves (`prefix_decoded`).

RFC 8956 has an offset between the length and the pattern. The decoder has no place for it: it
takes as many octets behind the length as the length asks for, so it takes the offset for the
first octet of the prefix, and it leaves the last octet of the pattern for the type of a
component (`component_offset`).

An offset of zero does not make this right. Such a component by itself is refused, because
no component is in the one octet that is left (`components_offset_alone`), so of no prefix
can it be said that it is reported with every list of components behind it. With one list
behind it, it is right exactly when the prefix has no bit set and the octet that is left
makes no difference to the list (`offset_misread`). For an octet of zero it always does.
-/

namespace Wire

open Bits (bitAt)

variable {kind len : UInt8} {pattern : Bytes}

/-- A prefix component as the decoder has it: the octets of the prefix stand behind its length. -/
def plainOctets (kind len : UInt8) (pattern : Bytes) : Bytes := kind :: len :: pattern

/-- A prefix component with an offset of zero. -/
def offsetOctets (kind len : UInt8) (pattern : Bytes) : Bytes := kind :: len :: 0 :: pattern

/-- The component reports the prefix that it carries, and the components behind it are
reported as they are by themselves. -/
def DecodesPrefix (kind len : UInt8) (pattern rest : Bytes) (cs : List RawComponent) : Prop :=
  ∃ text, prefixString pattern len.toNat 2 true = some text ∧
    Reader.Items (component 2) (offsetOctets kind len pattern ++ rest)
      ((componentKey kind 2, .str text) :: cs.map (RawComponent.member 2))

/-- The octets are a list of components with types that RFC 8956 knows. -/
def KnownComponents (rest : Bytes) (cs : List RawComponent) : Prop :=
  rawRule rest 2 = .ok cs ∧ ∀ c ∈ cs, componentName c.kind 2 ≠ none

/-! ### What is read -/

/-- A prefix component is read up to its end, and its text is that of its octets. -/
theorem component_plain (hk : kind = 1 ∨ kind = 2) (hle : len.toNat ≤ 128)
    (hlen : pattern.length = divCeil8 len.toNat) :
    ∃ text, prefixString pattern len.toNat 2 false = some text ∧
      ∀ rest, component 2 (plainOctets kind len pattern ++ rest)
        = .ok ((componentKey kind 2, .str text), rest) :=
  ⟨_, rfl, fun _ => component_ok_iff.mpr ⟨kind, _, rfl, rfl,
    (componentValue_prefix_ok_iff hk).mpr ⟨len, _, _, rfl, hle, hlen, rfl, rfl⟩⟩⟩

/-- Octets that have no bit behind the prefix are shown as the prefix. -/
theorem prefixString_of_clear (hclear : ∀ i, len.toNat ≤ i → bitAt pattern i = false) :
    prefixString pattern len.toNat 2 false = prefixString pattern len.toNat 2 true := by
  have hmask : maskPrefix (padTo 16 pattern) len.toNat = padTo 16 pattern := by
    refine Bits.ext_bitAt (length_maskPrefix _ _) fun i _ => ?_
    rw [bitAt_maskPrefix, padTo, Bits.bitAt_append_zeros]
    by_cases hi : i < len.toNat
    · rw [decide_eq_true hi, Bool.true_and]
    · rw [hclear i (not_lt.mp hi), Bool.and_false]
  exact congrArg (fun a => some (IpAddr.ipv6Text a ++ "/" ++ Nat.repr len.toNat)) hmask.symm

/-- The octet that is left for a type: the last of the pattern, or the offset if there is no
pattern. -/
def leftOver (pattern : Bytes) : UInt8 := pattern.getLast?.getD 0

/-- With an offset in front, the last octet of the pattern is left over. -/
theorem dropLast_append_leftOver (pattern : Bytes) :
    0 :: pattern = (0 :: pattern).dropLast ++ [leftOver pattern] := by
  have hlast : (0 :: pattern).getLast (List.cons_ne_nil 0 pattern) = leftOver pattern := by
    cases pattern with
    | nil => rfl
    | cons b octets =>
      rw [List.getLast_cons_cons, leftOver, List.getLast?_eq_some_getLast, Option.getD_some]
  rw [← hlast, List.dropLast_append_getLast]

/-- It is one of the octets, or the offset itself when there is no pattern. -/
theorem leftOver_mem (pattern : Bytes) : leftOver pattern ∈ 0 :: pattern := by
  rw [dropLast_append_leftOver]
  exact List.mem_append_right _ (List.mem_singleton_self _)

/-- **The octets that are taken** are the offset and the pattern but for its last octet. -/
theorem component_offset (hk : kind = 1 ∨ kind = 2) (hle : len.toNat ≤ 128)
    (hlen : pattern.length = divCeil8 len.toNat) :
    ∃ text, prefixString (0 :: pattern).dropLast len.toNat 2 false = some text ∧
      ∀ rest, component 2 (offsetOctets kind len pattern ++ rest)
        = .ok ((componentKey kind 2, .str text), leftOver pattern :: rest) := by
  have hraw : (0 :: pattern).dropLast.length = divCeil8 len.toNat := by
    rw [List.length_dropLast, List.length_cons, hlen, Nat.add_sub_cancel]
  obtain ⟨text, htext, hread⟩ := component_plain hk hle hraw
  refine ⟨text, htext, fun rest => ?_⟩
  have hdata : 0 :: pattern ++ rest
      = (0 :: pattern).dropLast ++ (leftOver pattern :: rest) := by
    conv_lhs => rw [dropLast_append_leftOver, List.append_assoc, List.singleton_append]
  rw [← hread, plainOctets, List.cons_append, List.cons_append, ← hdata]
  rfl

/-- No component is in one octet. -/
theorem component_single (last : UInt8) (e : String × Json) (rest : Bytes) :
    component 2 [last] ≠ .ok (e, rest) := by
  intro h
  obtain ⟨key, value⟩ := e
  obtain ⟨kind, data, hdata, -, hv⟩ := component_ok_iff.mp h
  obtain ⟨rfl, rfl⟩ := List.cons.inj hdata
  by_cases hk : last = 1 ∨ last = 2
  · obtain ⟨len, raw, text, hnil, -⟩ := (componentValue_prefix_ok_iff hk).mp hv
    exact List.cons_ne_nil _ _ hnil.symm
  · obtain ⟨values, hu, -⟩ := (componentValue_terms_ok_iff hk).mp hv
    have hlt := hu.length_lt (componentTerm_consumes last)
    exact absurd hlt (Nat.not_lt_zero _)

/-- **By itself such a component is refused.** -/
theorem components_offset_alone (hk : kind = 1 ∨ kind = 2) (hle : len.toNat ≤ 128)
    (hlen : pattern.length = divCeil8 len.toNat) :
    ∃ e, components (offsetOctets kind len pattern) 2 = .error e := by
  cases hc : components (offsetOctets kind len pattern) 2 with
  | error e => exact ⟨e, rfl⟩
  | ok v =>
    exfalso
    obtain ⟨parsed, hi, -⟩ := components_ok_iff.mp hc
    -- the last octet of the pattern is left over, and begins no component
    obtain ⟨text, -, hread⟩ := component_offset hk hle hlen
    have hread := hread []
    rw [List.append_nil] at hread
    cases hi with
    | cons hr _ hi =>
      rw [hread] at hr
      obtain ⟨-, rfl⟩ := Prod.mk.inj (Except.ok.inj hr)
      cases hi with
      | cons hr _ _ => exact component_single (leftOver pattern) _ _ hr

/-! ### Another prefix -/

/-- A bit of the octets that are taken is the bit of the pattern one octet before. -/
theorem bitAt_shifted {i : ℕ} (hi : i < 8 * pattern.length) :
    bitAt (0 :: pattern).dropLast i = if i < 8 then false else bitAt pattern (i - 8) := by
  have hin : i < 8 * (0 :: pattern).dropLast.length := by
    rwa [List.length_dropLast, List.length_cons, Nat.add_sub_cancel]
  rw [← Bits.bitAt_append_left hin, ← dropLast_append_leftOver]
  unfold bitAt
  split_ifs with h8
  · rw [Nat.div_eq_of_lt h8]
    exact Nat.zero_testBit _
  · have hdiv : i / 8 = (i - 8) / 8 + 1 := by omega
    have hmod : i % 8 = (i - 8) % 8 := by omega
    rw [hdiv, hmod, List.getD_cons_succ]

/-- The prefix is the right one if the octets that are taken have the bits of the pattern that
count, and no others. -/
theorem shifted_text_iff (hle : len.toNat ≤ 128) (hlen : pattern.length = divCeil8 len.toNat) :
    prefixString (0 :: pattern).dropLast len.toNat 2 false
        = prefixString pattern len.toNat 2 true ↔
      ∀ i, bitAt (0 :: pattern).dropLast i = (decide (i < len.toNat) && bitAt pattern i) := by
  have hsize : pattern.length ≤ 16 := by
    rw [hlen, divCeil8]
    omega
  -- the pattern with the offset in front and its last octet off is as long
  have hraw : (padTo 16 (0 :: pattern).dropLast).length = 16 := by
    apply length_padTo
    rwa [List.length_dropLast, List.length_cons, Nat.add_sub_cancel]
  have hmasked : (maskPrefix (padTo 16 pattern) len.toNat).length = 16 := by
    rw [length_maskPrefix, length_padTo hsize]
  -- the texts are right when the addresses in them are
  have haddress : prefixString (0 :: pattern).dropLast len.toNat 2 false
        = prefixString pattern len.toNat 2 true ↔
      padTo 16 (0 :: pattern).dropLast = maskPrefix (padTo 16 pattern) len.toNat := by
    constructor
    · intro ht
      have htext : IpAddr.ipv6Text (padTo 16 (0 :: pattern).dropLast) ++ "/" ++ Nat.repr len.toNat
          = IpAddr.ipv6Text (maskPrefix (padTo 16 pattern) len.toNat) ++ "/"
            ++ Nat.repr len.toNat :=
        Option.some.inj ht
      exact IpAddr.ipv6Text_injective hraw hmasked
        ((String.append_left_inj _).mp ((String.append_left_inj _).mp htext))
    · intro he
      exact congrArg (fun a => some (IpAddr.ipv6Text a ++ "/" ++ Nat.repr len.toNat)) he
  rw [haddress]
  constructor
  · intro he i
    have h := congrArg (fun octets => bitAt octets i) he
    simpa only [bitAt_maskPrefix, padTo, Bits.bitAt_append_zeros] using h
  · intro h
    apply Bits.ext_bitAt (hraw.trans hmasked.symm)
    intro i _
    simpa only [bitAt_maskPrefix, padTo, Bits.bitAt_append_zeros] using h i

/-- **The prefix is the right one exactly when it has no bit set.** -/
theorem shifted_text_iff_clear (hle : len.toNat ≤ 128)
    (hlen : pattern.length = divCeil8 len.toNat) :
    prefixString (0 :: pattern).dropLast len.toNat 2 false
        = prefixString pattern len.toNat 2 true ↔
      ∀ i < len.toNat, bitAt pattern i = false := by
  -- the octets cover the prefix, and no whole octet is left
  have hcovers : len.toNat ≤ 8 * pattern.length ∧ 8 * pattern.length < len.toNat + 8 := by
    rw [hlen, divCeil8]
    omega
  rw [shifted_text_iff hle hlen]
  constructor
  · -- the first octet of the prefix is zero, and each other is the one before it
    intro hbit i
    induction i using Nat.strongRecOn with
    | ind i ih =>
      intro hi
      have hthis := hbit i
      rw [bitAt_shifted (by omega), decide_eq_true hi, Bool.true_and] at hthis
      rw [← hthis]
      split_ifs with h8
      · rfl
      · exact ih (i - 8) (by omega) (by omega)
  · intro hclear i
    have hright : (decide (i < len.toNat) && bitAt pattern i) = false := by
      by_cases hi : i < len.toNat
      · rw [hclear i hi, Bool.and_false]
      · rw [decide_eq_false hi, Bool.false_and]
    rw [hright]
    by_cases hin : i < 8 * pattern.length
    · rw [bitAt_shifted hin]
      split_ifs with h8
      · rfl
      · exact hclear (i - 8) (by omega)
    · apply Bits.bitAt_of_le
      rwa [List.length_dropLast, List.length_cons, Nat.add_sub_cancel, ← not_lt]

/-- Octets without a bit set are zeros. -/
theorem eq_zero_of_clear {octets : Bytes} (h : ∀ i, bitAt octets i = false) :
    ∀ b ∈ octets, b = 0 := by
  have hz : octets = List.replicate octets.length 0 := by
    refine Bits.ext_bitAt List.length_replicate.symm fun i _ => ?_
    rw [h i, ← List.nil_append (List.replicate _ _), Bits.bitAt_append_zeros]
    exact (Bits.bitAt_of_le (Nat.zero_le i)).symm
  intro b hb
  rw [hz] at hb
  exact List.eq_of_mem_replicate hb

/-! ### No continuation -/

/-- The list of the components behind the misread one. -/
theorem decodesPrefix_iff (hk : kind = 1 ∨ kind = 2) (hle : len.toNat ≤ 128)
    (hlen : pattern.length = divCeil8 len.toNat) {rest : Bytes} {cs : List RawComponent} :
    DecodesPrefix kind len pattern rest cs ↔
      (∀ i < len.toNat, bitAt pattern i = false) ∧
        Reader.Items (component 2) (leftOver pattern :: rest)
          (cs.map (RawComponent.member 2)) := by
  -- the first component is read with the offset as its first octet
  obtain ⟨text, htext, hread⟩ := component_offset hk hle hlen
  rw [← shifted_text_iff_clear hle hlen]
  constructor
  · rintro ⟨text', htext', hi⟩
    cases hi with
    | cons hr _ hi =>
      rw [hread] at hr
      obtain ⟨he, rfl⟩ := Prod.mk.inj (Except.ok.inj hr)
      rw [htext, htext', Json.str.inj (Prod.mk.inj he).2]
      exact ⟨rfl, hi⟩
  · rintro ⟨heq, hi⟩
    exact ⟨text, heq ▸ htext, .cons (hread rest) (List.cons_ne_nil _ _) hi⟩

/-- Known components do not begin with a type of zero. -/
theorem not_items_zero {rest : Bytes} {cs : List RawComponent} (hknown : KnownComponents rest cs) :
    ¬ Reader.Items (component 2) (0 :: rest) (cs.map (RawComponent.member 2)) := by
  intro hi
  obtain ⟨hrule, hnames⟩ := hknown
  cases cs with
  | nil => cases hi
  | cons c cs =>
    rw [List.map_cons] at hi
    cases hi with
    | cons hr _ _ =>
      obtain ⟨k, data, hdata, hkey, -⟩ := component_ok_iff.mp hr
      obtain ⟨rfl, -⟩ := List.cons.inj hdata
      -- a component of type 0 has no name
      have hzero : c.kind = 0 := componentKey_inj hkey
      exact hnames c List.mem_cons_self (by rw [hzero]; rfl)

/-- **An offset of zero is never read as such.** A prefix component with an offset of zero is
refused by itself, whatever prefix it carries, so no prefix is reported with every list of
components behind it. With one list behind it, the prefix and the list are right exactly when
the prefix has no bit set and the octet that is left does not change what the list is read as.
Where the bits behind the prefix are zero, that octet changes every list. -/
theorem offset_misread (hk : kind = 1 ∨ kind = 2) (hle : len.toNat ≤ 128)
    (hlen : pattern.length = divCeil8 len.toNat) :
    (∃ e, components (offsetOctets kind len pattern) 2 = .error e) ∧
      ¬ (∀ rest cs, KnownComponents rest cs → DecodesPrefix kind len pattern rest cs) ∧
      (∀ rest cs, DecodesPrefix kind len pattern rest cs ↔
        (∀ i < len.toNat, bitAt pattern i = false) ∧
          Reader.Items (component 2) (leftOver pattern :: rest)
            (cs.map (RawComponent.member 2))) ∧
      ((∀ i, len.toNat ≤ i → bitAt pattern i = false) →
        ∀ rest cs, KnownComponents rest cs → ¬ DecodesPrefix kind len pattern rest cs) := by
  obtain ⟨e, herror⟩ := components_offset_alone hk hle hlen
  refine ⟨⟨e, herror⟩, fun hall => ?_, fun rest cs => decodesPrefix_iff hk hle hlen,
    fun hpadding rest cs hknown hdec => ?_⟩
  · -- with nothing behind it there is nothing to report either
    obtain ⟨text, -, hi⟩ := hall [] [] ⟨rfl, by simp⟩
    rw [List.append_nil] at hi
    rw [components_ok_iff.mpr ⟨_, hi, rfl⟩] at herror
    cases herror
  · obtain ⟨hclear, hi⟩ := (decodesPrefix_iff hk hle hlen).mp hdec
    have hzeros : ∀ i, bitAt pattern i = false := fun i =>
      (Nat.lt_or_ge i len.toNat).elim (hclear i) (hpadding i)
    -- the octet that is left is a zero
    have hzero : leftOver pattern = 0 :=
      (List.mem_cons.mp (leftOver_mem pattern)).elim id fun hm => eq_zero_of_clear hzeros _ hm
    rw [hzero] at hi
    exact not_items_zero hknown hi

/-- 2001:db8::/32. -/
theorem offset_misread_documentation :
    ¬ ∀ rest cs, KnownComponents rest cs →
      DecodesPrefix 1 32 [0x20, 0x01, 0x0d, 0xb8] rest cs :=
  (offset_misread (Or.inl rfl) (by decide) rfl).2.1

-- The prefix ::/4 with the type of a DSCP component in the bits behind it: what is behind the
-- component is read one octet early, and its text is the same.
example : components (offsetOctets 1 4 [0x0b] ++ [0x0b, 0x13, 0xa1, 0x13, 0x91, 0, 0]) 2
    = .ok (.object [("dst-prefix", .str "::/4"), ("dscp", texts [">=19", "=0"])]) := rfl

example : components [0x0b, 0x13, 0xa1, 0x13, 0x91, 0, 0] 2
    = .ok (.object [("dscp", texts [">=19", "=0"])]) := rfl

end Wire
