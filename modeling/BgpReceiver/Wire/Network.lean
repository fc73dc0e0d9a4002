import BgpReceiver.Framework.Bits
import BgpReceiver.Wire.RoundTrip

/-!
# Networks

A unicast prefix on the wire is a length and the octets that hold its bits; the bits of
the last octet behind the length have no meaning. The network of a prefix is the set of
the addresses of its family that begin with its bits (`Net.Contains`).

`mask_prefix` clears exactly the bits behind the length (`bitAt_maskPrefix`), so the text
of a prefix is that of an address with the bits of the prefix and zeros behind them
(`Net.text_eq`). Two networks of one length that have an address in common have one text
(`Net.text_of_contains`).
-/

namespace Wire

open Bits (bitAt)

/-! ### Addresses -/

/-- An `IpAddr`. -/
inductive Ip where
  | v4 (octets : Vector UInt8 4)
  | v6 (octets : Vector UInt8 16)

namespace Ip

/-- The number of the address family. -/
def afi : Ip → ℕ
  | v4 _ => 1
  | v6 _ => 2

/-- The octets of an address. -/
def octets : Ip → Bytes
  | v4 octets => octets.toList
  | v6 octets => octets.toList

/-- `IpAddr::to_string`. -/
def text : Ip → String
  | v4 octets => IpAddr.ipv4Text octets.toList
  | v6 octets => IpAddr.ipv6Text octets.toList

/-- There is no slash in an address, so the length behind it can be found. -/
theorem slash_not_mem_text (ip : Ip) : '/' ∉ ip.text.toList := by
  cases ip with
  | v4 octets => exact slash_not_mem_ipv4Text _
  | v6 octets => exact slash_not_mem_ipv6Text _

/-- An address is its family and its octets. -/
theorem ext_octets {ip ip' : Ip} (hafi : ip.afi = ip'.afi) (h : ip.octets = ip'.octets) :
    ip = ip' := by
  cases ip with
  | v4 octets =>
    cases ip' with
    | v4 octets' => exact congrArg v4 (Vector.toList_inj.mp h)
    | v6 _ => exact absurd hafi (by simp [afi])
  | v6 octets =>
    cases ip' with
    | v4 _ => exact absurd hafi (by simp [afi])
    | v6 octets' => exact congrArg v6 (Vector.toList_inj.mp h)

/-- An address has the bits of its family. -/
theorem length_octets (ip : Ip) : 8 * ip.octets.length = maxBits ip.afi := by
  cases ip with
  | v4 a => exact congrArg (8 * ·) a.length_toList
  | v6 a => exact congrArg (8 * ·) a.length_toList

/-- There is no colon in an IPv4 address. -/
theorem colon_not_mem_ipv4Text (octets : Bytes) : ':' ∉ (IpAddr.ipv4Text octets).toList := by
  intro h
  rcases Text.mem_intercalate h with h | ⟨w, hw, h⟩
  · exact absurd h (by decide)
  · obtain ⟨b, -, rfl⟩ := List.mem_map.mp hw
    exact IpAddr.not_mem_repr IpAddr.digitChar_ne_colon b.toNat h

/-- There is one in an IPv6 address, so the text tells the family. -/
theorem colon_mem_ipv6Text {octets : Bytes} (h : octets.length = 16) :
    ':' ∈ (IpAddr.ipv6Text octets).toList := by
  unfold IpAddr.ipv6Text
  cases IpAddr.toIpv4Mapped octets with
  | some ipv4 => simp
  | none =>
    have hsegs := IpAddr.length_segments (show octets.length = 2 * 8 from h)
    simp only [IpAddr.compressed]
    split_ifs
    · simp
    · -- there are at least two segments
      rcases hs : IpAddr.segments octets with _ | ⟨a, _ | ⟨b, rest⟩⟩
      · simp [hs] at hsegs
      · simp [hs] at hsegs
      · rw [IpAddr.fmtSubslice, List.map_cons, List.map_cons, String.intercalate_cons_cons]
        simp

/-- **A text determines its address.** Only the texts of IPv6 addresses have colons. -/
theorem text_injective : Function.Injective text := by
  -- no text is of both families
  have hcolon : ∀ {a : Vector UInt8 4} {b : Vector UInt8 16},
      IpAddr.ipv4Text a.toList ≠ IpAddr.ipv6Text b.toList := by
    intro a b h
    exact colon_not_mem_ipv4Text a.toList (h ▸ colon_mem_ipv6Text b.length_toList)
  have hne : ∀ a : Vector UInt8 4, a.toList ≠ [] := fun a =>
    List.ne_nil_of_length_pos (by rw [a.length_toList]; decide)
  intro ip ip' h
  cases ip with
  | v4 a =>
    cases ip' with
    | v4 b => exact ext_octets rfl (IpAddr.ipv4Text_injective (hne a) (hne b) h)
    | v6 b => exact absurd h hcolon
  | v6 a =>
    cases ip' with
    | v4 b => exact absurd h.symm hcolon
    | v6 b => exact ext_octets rfl (IpAddr.ipv6Text_injective a.length_toList b.length_toList h)

end Ip

/-! ### Masking -/

/-- The octet that the mask keeps a part of. -/
theorem testBit_partial (b : UInt8) {r k : ℕ} (hr : r < 8) (hr₀ : r ≠ 0) (hk : k < 8) :
    (b &&& (255 <<< UInt8.ofNat (8 - r))).toNat.testBit (7 - k)
      = (decide (k < r) && b.toNat.testBit (7 - k)) := by
  have hmask : ∀ r < 8, r ≠ 0 → ∀ k < 8,
      ((255 : UInt8) <<< UInt8.ofNat (8 - r)).toNat.testBit (7 - k) = decide (k < r) := by
    decide
  rw [UInt8.toNat_and, Nat.testBit_and, hmask r hr hr₀ k hk, Bool.and_comm]

/-- **`mask_prefix` keeps the bits of the prefix** and clears all others. -/
theorem bitAt_maskPrefix (address : Bytes) (len i : ℕ) :
    bitAt (maskPrefix address len) i = (decide (i < len) && bitAt address i) := by
  unfold maskPrefix
  simp only [Bits.bitAt_append_zeros, Bits.bitAt_take]
  by_cases hr : len % 8 = 0
  · -- the prefix ends with an octet
    simp only [hr, ne_eq, not_true, false_and, if_false, Nat.add_zero]
    congr 2
    exact propext ⟨fun _ => by omega, fun _ => by omega⟩
  simp only [ne_eq, hr, not_false_eq_true, true_and, if_true]
  by_cases hlen : len / 8 < address.length
  · rw [if_pos hlen, Bits.bitAt_set _ hlen]
    by_cases hi : i / 8 = len / 8
    -- in the octet where the prefix ends, the bits in front of the end stay
    · have hbit : address[len / 8]!.toNat.testBit (7 - i % 8) = bitAt address i := by
        rw [bitAt, hi, List.getD_eq_getElem _ _ hlen, getElem!_pos address _ hlen]
      have hin : i < 8 * (len / 8 + 1) := by omega
      have hlt : i % 8 < len % 8 ↔ i < len := ⟨fun _ => by omega, fun _ => by omega⟩
      rw [if_pos hi, testBit_partial _ (Nat.mod_lt _ (by decide)) hr (Nat.mod_lt _ (by decide)),
        hbit]
      simp only [hin, decide_true, Bool.true_and, hlt]
    · have hlt : i < 8 * (len / 8 + 1) ↔ i < len := ⟨fun _ => by omega, fun _ => by omega⟩
      rw [if_neg hi]
      simp only [hlt]
  · -- the prefix is longer than the address
    rw [if_neg hlen]
    by_cases hi : i / 8 < address.length
    · have hin : i < 8 * (len / 8 + 1) := by omega
      have hlt : i < len := by omega
      simp only [hin, hlt]
    · have hzero : bitAt address i = false := Bits.bitAt_of_le (by omega)
      rw [hzero, Bool.and_false, Bool.and_false]

theorem length_maskPrefix (address : Bytes) (len : ℕ) :
    (maskPrefix address len).length = address.length := by
  unfold maskPrefix
  simp only [List.length_append, List.length_take, List.length_replicate,
    apply_ite List.length, List.length_set, ite_self]
  omega

/-! ### Networks -/

/-- A unicast prefix and its family. -/
structure Net where
  family : Family
  safi : family.safi = 1
  pfx : RawPrefix family.afi

namespace Net

/-- The length of a prefix. -/
def bits (n : Net) : ℕ := n.pfx.bits

/-- The text that the prefix is reported as. -/
def text (n : Net) : String := n.pfx.text

/-- The addresses of the family that begin with the bits of the prefix. -/
def Contains (n : Net) (ip : Ip) : Prop :=
  ip.afi = n.family.afi ∧ ∀ i < n.bits, bitAt ip.octets i = bitAt n.pfx.raw i

/-- **The text of a network** is that of the address with its bits and zeros behind them. -/
theorem text_eq (n : Net) : ∃ base : Ip, n.text = base.text ++ "/" ++ Nat.repr n.bits ∧
    base.afi = n.family.afi ∧
    ∀ i, bitAt base.octets i = (decide (i < n.bits) && bitAt n.pfx.raw i) := by
  -- masking clears the bits past the length, and padding adds clear ones
  have hbits : ∀ {size : ℕ} {raw : Bytes} {len : ℕ}, ∀ i,
      bitAt (maskPrefix (padTo size raw) len) i = (decide (i < len) && bitAt raw i) := by
    intro size raw len i
    rw [bitAt_maskPrefix, padTo, Bits.bitAt_append_zeros]
  obtain ⟨family, hsafi, bits, raw, hle, hraw⟩ := n
  cases family with
  | ipv4Flowspec => exact absurd hsafi (by decide)
  | ipv6Flowspec => exact absurd hsafi (by decide)
  | ipv4Unicast =>
    have hle : bits ≤ 32 := hle
    have hlen : (maskPrefix (padTo 4 raw) bits).toArray.size = 4 := by
      rw [List.size_toArray, length_maskPrefix, length_padTo]
      rw [hraw]
      unfold divCeil8
      omega
    exact ⟨.v4 ⟨(maskPrefix (padTo 4 raw) bits).toArray, hlen⟩, rfl, rfl, hbits⟩
  | ipv6Unicast =>
    have hle : bits ≤ 128 := hle
    have hlen : (maskPrefix (padTo 16 raw) bits).toArray.size = 16 := by
      rw [List.size_toArray, length_maskPrefix, length_padTo]
      rw [hraw]
      unfold divCeil8
      omega
    exact ⟨.v6 ⟨(maskPrefix (padTo 16 raw) bits).toArray, hlen⟩, rfl, rfl, hbits⟩

/-- The family of a network is that of its addresses. -/
theorem family_inj {n n' : Net} (h : n.family.afi = n'.family.afi) : n.family = n'.family := by
  have hinj : ∀ {f f' : Family}, f.safi = 1 → f'.safi = 1 → f.afi = f'.afi → f = f' := by
    intro f f'
    cases f <;> cases f' <;> decide
  exact hinj n.safi n'.safi h

/-- **Networks of one length with a common address** have one text. -/
theorem text_of_contains {n n' : Net} {ip : Ip} (h : n.Contains ip) (h' : n'.Contains ip)
    (hbits : n.bits = n'.bits) : n.text = n'.text := by
  obtain ⟨base, ht, hafi, hb⟩ := n.text_eq
  obtain ⟨base', ht', hafi', hb'⟩ := n'.text_eq
  have hsame : base.afi = base'.afi := by rw [hafi, hafi', ← h.1, ← h'.1]
  have hlen : base.octets.length = base'.octets.length := by
    have := base.length_octets
    have := base'.length_octets
    rw [hsame] at *
    omega
  -- the bits behind the length are clear in both bases
  have heq : base = base' := by
    refine Ip.ext_octets hsame (Bits.ext_bitAt hlen fun i _ => ?_)
    rw [hb, hb', ← hbits]
    by_cases hi : i < n.bits
    · rw [← h.2 i hi, ← h'.2 i (hbits ▸ hi)]
    · simp [hi]
  rw [ht, ht', heq, hbits]

/-- **A text determines the prefix** up to the bits behind its length. -/
theorem bits_of_text {n n' : Net} (h : n.text = n'.text) :
    n.family = n'.family ∧ n.bits = n'.bits ∧
      ∀ i < n.bits, bitAt n.pfx.raw i = bitAt n'.pfx.raw i := by
  obtain ⟨base, ht, hafi, hb⟩ := n.text_eq
  obtain ⟨base', ht', hafi', hb'⟩ := n'.text_eq
  rw [ht, ht', String.append_assoc, String.append_assoc] at h
  -- the text splits at the slash into the base address and the length
  have hslash : ∀ m : ℕ, ("/" ++ Nat.repr m).toList.head? = some '/' := fun m => by
    rw [String.toList_append]
    rfl
  obtain ⟨hbase, hlen⟩ := Text.append_inj base.slash_not_mem_text base'.slash_not_mem_text
    (hslash n.bits) (hslash n'.bits) h
  have hlen := congrArg String.toList hlen
  rw [String.toList_append, String.toList_append] at hlen
  have hbits : n.bits = n'.bits :=
    Nat.repr_inj.mp (String.toList_inj.mp (List.append_cancel_left hlen))
  obtain rfl := Ip.text_injective hbase
  refine ⟨family_inj (hafi.symm.trans hafi'), hbits, fun i hi => ?_⟩
  have hbit := (hb i).symm.trans (hb' i)
  simpa only [hi, hbits ▸ hi, decide_true, Bool.true_and] using hbit

/-- **A text determines the network.** -/
theorem contains_of_text {n n' : Net} (h : n.text = n'.text) :
    n.bits = n'.bits ∧ ∀ ip, n.Contains ip ↔ n'.Contains ip := by
  obtain ⟨hfamily, hbits, hraw⟩ := bits_of_text h
  refine ⟨hbits, fun ip => and_congr (by rw [hfamily]) ?_⟩
  rw [← hbits]
  exact forall₂_congr fun i hi => by rw [hraw i hi]

/-- **When prefixes have one text**: when they have one family, one length, and the same bits
up to there. -/
theorem text_eq_iff {n n' : Net} : n.text = n'.text ↔ n.family = n'.family ∧ n.bits = n'.bits ∧
    ∀ i < n.bits, bitAt n.pfx.raw i = bitAt n'.pfx.raw i := by
  refine ⟨bits_of_text, fun ⟨hfamily, hbits, hraw⟩ => ?_⟩
  -- the address with the bits and zeros behind them is in both
  obtain ⟨base, -, hafi, hb⟩ := n.text_eq
  have hbase : ∀ i < n.bits, bitAt base.octets i = bitAt n.pfx.raw i := by
    intro i hi
    rw [hb, decide_eq_true hi, Bool.true_and]
  exact text_of_contains ⟨hafi, hbase⟩
    ⟨hfamily ▸ hafi, fun i hi => (hbase i (hbits ▸ hi)).trans (hraw i (hbits ▸ hi))⟩ hbits

end Net

end Wire
