import BgpReceiver.Framework.Reader
import BgpReceiver.IpAddr
import BgpReceiver.Json

/-!
# Messages and the OPEN

The first part of `wire.rs`: taking octets off the input, the message header, and
the OPEN in both directions.

Every decoder of the file works on a slice that shrinks from the front, which is
`Reader` here; the `while` loops that run until the slice is empty are
`Reader.drain`. The OPEN nests two of them, both over the same shape of a type
octet, a length octet and a value (`tlv`): the optional parameters, and inside a
parameter of type 2 the capabilities.
-/

namespace Wire

/-- `take`: the first `n` octets, or an error when there are fewer. -/
def take (n : ℕ) : Reader String UInt8 Bytes := fun data =>
  if data.length < n then .error "Truncated BGP data"
  else .ok (data.take n, data.drop n)

/-- `take(&mut data, 1)?[0]`. -/
def byteAt : Reader String UInt8 UInt8 := fun data => do
  let (head, data) ← take 1 data
  return (head[0]!, data)

/-- `from_be_bytes`. -/
def fromBeBytes (octets : Bytes) : ℕ :=
  octets.foldl (fun n b => n * 256 + b.toNat) 0

/-- `u16::to_be_bytes`. -/
def u16ToBeBytes (n : ℕ) : Bytes := [UInt8.ofNat (n / 256), UInt8.ofNat n]

/-- `u32::to_be_bytes`. -/
def u32ToBeBytes (n : ℕ) : Bytes := u16ToBeBytes (n / 65536) ++ u16ToBeBytes n

/-- `u16_at`. -/
def u16At : Reader String UInt8 ℕ := fun data => do
  let (head, data) ← take 2 data
  return (fromBeBytes head, data)

/-- `header`: the kind of a message and the length of its body. -/
def header (data : Bytes) : Except String (UInt8 × ℕ) := do
  if data.length ≠ 19 ∨ data.take 16 ≠ List.replicate 16 255 then
    throw "Invalid BGP header"
  let length := fromBeBytes [data[16]!, data[17]!]
  if ¬ (19 ≤ length ∧ length ≤ 4096) then
    throw "Invalid BGP message length"
  return (data[18]!, length - 19)

/-- `message`: a body behind its header. -/
def message (kind : UInt8) (body : Bytes) : Bytes :=
  List.replicate 16 255 ++ u16ToBeBytes (body.length + 19) ++ [kind] ++ body

/-- `build_open`: multiprotocol capabilities for both families of both protocols, and
the four-octet ASN. -/
def buildOpen (asn hold : ℕ) (router : Bytes) : Bytes :=
  let caps := ([1, 2].flatMap fun afi => [1, 133].flatMap fun safi =>
      [1, 4] ++ u16ToBeBytes afi ++ [0, safi]) ++ [65, 4] ++ u32ToBeBytes asn
  message 1 ([4] ++ u16ToBeBytes (if asn > 65535 then 23456 else asn) ++ u16ToBeBytes hold
    ++ router ++ [UInt8.ofNat (caps.length + 2), 2, UInt8.ofNat caps.length] ++ caps)

/-- A type octet, a length octet and a value of that length. -/
def tlv : Reader String UInt8 (UInt8 × Bytes) := fun data => do
  let (h, data) ← take 2 data
  let (value, data) ← take h[1]!.toNat data
  return ((h[0]!, value), data)

/-- What the loops over the optional parameters keep. -/
structure PeerAsn where
  asn : ℕ
  as4 : Bool

/-- One capability: the last four-octet ASN wins. -/
def capabilityStep (acc : PeerAsn) (cap : UInt8 × Bytes) : Except String PeerAsn :=
  if cap.1 = 65 ∧ cap.2.length = 4 then .ok ⟨fromBeBytes cap.2, true⟩ else .ok acc

/-- One optional parameter: capabilities if its type is 2, otherwise skipped. -/
def parameterStep (acc : PeerAsn) (param : UInt8 × Bytes) : Except String PeerAsn :=
  if param.1 ≠ 2 then .ok acc else Reader.drain tlv capabilityStep acc param.2

/-- What `open` returns. -/
structure OpenInfo where
  peerAs : ℕ
  holdTime : ℕ
  routerId : Bytes
  supports4ByteAsn : Bool

/-- What an OPEN is reported as. -/
def OpenInfo.toJson (info : OpenInfo) : Json :=
  .object [("version", .num 4), ("peer_as", .num info.peerAs),
    ("hold_time", .num info.holdTime), ("router_id", .str (IpAddr.ipv4Text info.routerId)),
    ("supports_4byte_asn", .bool info.supports4ByteAsn)]

/-- `open`, before its result is turned into JSON. -/
def parseOpen (body : Bytes) : Except String OpenInfo := do
  let (base, body) ← take 10 body
  let asn := fromBeBytes [base[1]!, base[2]!]
  let hold := fromBeBytes [base[3]!, base[4]!]
  if base[0]! ≠ 4 ∨ (hold ≠ 0 ∧ hold < 3) then
    throw "Invalid BGP OPEN"
  let (params, _) ← take base[9]!.toNat body
  let peer ← Reader.drain tlv parameterStep ⟨asn, false⟩ params
  return ⟨peer.asn, hold, [base[5]!, base[6]!, base[7]!, base[8]!], peer.as4⟩

/-- `open`. -/
def openMessage (body : Bytes) : Except String Json :=
  (parseOpen body).map OpenInfo.toJson

example : (openMessage ((buildOpen 4200000000 90 [192, 0, 2, 1]).drop 19)).toOption =
    some (OpenInfo.toJson ⟨4200000000, 90, [192, 0, 2, 1], true⟩) := by decide

/-! ### Numbers in octets -/

theorem fromBeBytes_append_singleton (octets : Bytes) (b : UInt8) :
    fromBeBytes (octets ++ [b]) = fromBeBytes octets * 256 + b.toNat := by
  rw [fromBeBytes, List.foldl_append, ← fromBeBytes]
  rfl

/-- A number is below the bound of its octets. -/
theorem fromBeBytes_lt (octets : Bytes) : fromBeBytes octets < 256 ^ octets.length := by
  induction octets using List.reverseRecOn with
  | nil => exact Nat.one_pos
  | append_singleton octets b ih =>
    have hb := b.toNat_lt
    rw [fromBeBytes_append_singleton, List.length_append, List.length_singleton, Nat.pow_succ]
    omega

/-- The octets of a number, as many as the width says. -/
def toBeBytes : ℕ → ℕ → Bytes
  | 0, _ => []
  | width + 1, n => toBeBytes width (n / 256) ++ [UInt8.ofNat n]

/-- A number is written with as many octets as are asked for. -/
theorem length_toBeBytes (width n : ℕ) : (toBeBytes width n).length = width := by
  induction width generalizing n with
  | zero => rfl
  | succ width ih => rw [toBeBytes, List.length_append, ih, List.length_singleton]

theorem fromBeBytes_toBeBytes {width n : ℕ} (h : n < 256 ^ width) :
    fromBeBytes (toBeBytes width n) = n := by
  induction width generalizing n with
  | zero =>
    rw [Nat.pow_zero, Nat.lt_one_iff] at h
    rw [h]
    rfl
  | succ width ih =>
    -- the octets in front are those of the quotient, and the last one is the remainder
    have hquot : n / 256 < 256 ^ width :=
      Nat.div_lt_of_lt_mul (by rwa [Nat.mul_comm, ← Nat.pow_succ])
    rw [toBeBytes, fromBeBytes_append_singleton, ih hquot, UInt8.toNat_ofNat']
    omega

/-- Octets are those of the number that they are read as. -/
theorem toBeBytes_fromBeBytes (octets : Bytes) :
    toBeBytes octets.length (fromBeBytes octets) = octets := by
  induction octets using List.reverseRecOn with
  | nil => rfl
  | append_singleton octets b ih =>
    have hb := b.toNat_lt
    have hquot : (fromBeBytes octets * 256 + b.toNat) / 256 = fromBeBytes octets := by omega
    have hlast : UInt8.ofNat (fromBeBytes octets * 256 + b.toNat) = b := by
      apply UInt8.toNat_inj.mp
      rw [UInt8.toNat_ofNat']
      omega
    rw [List.length_append, List.length_singleton, toBeBytes, fromBeBytes_append_singleton, hquot,
      hlast, ih]

/-- Octets are determined by their number and how many they are. -/
theorem fromBeBytes_inj {octets octets' : Bytes} (hlen : octets.length = octets'.length)
    (h : fromBeBytes octets = fromBeBytes octets') : octets = octets' := by
  rw [← toBeBytes_fromBeBytes octets, ← toBeBytes_fromBeBytes octets', hlen, h]

theorem toBeBytes_four (n : ℕ) : toBeBytes 4 n = u32ToBeBytes n := by
  simp only [toBeBytes, u32ToBeBytes, u16ToBeBytes, Nat.div_div_eq_div_mul, List.nil_append,
    List.cons_append]

/-! ### What the readers accept -/

theorem take_ok_iff {n : ℕ} {data head rest : Bytes} :
    take n data = .ok (head, rest) ↔ data = head ++ rest ∧ head.length = n := by
  unfold take
  split_ifs with h
  · constructor
    · intro h'
      exact absurd h' (by simp)
    · rintro ⟨rfl, rfl⟩
      rw [List.length_append] at h
      omega
  · simp only [Except.ok.injEq, Prod.mk.injEq]
    constructor
    · rintro ⟨rfl, rfl⟩
      exact ⟨(List.take_append_drop n data).symm, by rw [List.length_take]; omega⟩
    · rintro ⟨rfl, rfl⟩
      exact ⟨List.take_left, List.drop_left⟩

theorem byteAt_ok_iff {data rest : Bytes} {b : UInt8} :
    byteAt data = .ok (b, rest) ↔ data = b :: rest := by
  unfold byteAt
  simp only [Reader.bind_eq_ok_iff]
  constructor
  · rintro ⟨⟨head, rest'⟩, h, hr⟩
    obtain ⟨rfl, hlen⟩ := take_ok_iff.mp h
    obtain ⟨x, rfl⟩ := List.length_eq_one_iff.mp hlen
    obtain ⟨rfl, rfl⟩ := Prod.mk.inj (Except.ok.inj hr)
    rfl
  · rintro rfl
    exact ⟨([b], rest), take_ok_iff.mpr ⟨rfl, rfl⟩, rfl⟩

/-- `u16_at` gives the number of the first two octets. -/
theorem u16At_ok_iff {data rest : Bytes} {n : ℕ} :
    u16At data = .ok (n, rest) ↔
      ∃ hi lo, data = hi :: lo :: rest ∧ n = hi.toNat * 256 + lo.toNat := by
  unfold u16At
  simp only [Reader.bind_eq_ok_iff]
  constructor
  · rintro ⟨⟨head, rest'⟩, h, hr⟩
    obtain ⟨rfl, hlen⟩ := take_ok_iff.mp h
    obtain ⟨hi, lo, rfl⟩ := List.length_eq_two.mp hlen
    obtain ⟨rfl, rfl⟩ := Prod.mk.inj (Except.ok.inj hr)
    exact ⟨hi, lo, rfl, by simp [fromBeBytes]⟩
  · rintro ⟨hi, lo, rfl, rfl⟩
    exact ⟨([hi, lo], rest), take_ok_iff.mpr ⟨rfl, rfl⟩, by simp [fromBeBytes, pure, Except.pure]⟩

/-- The octets of a type-length-value item. -/
def TlvEnc (item : UInt8 × Bytes) (octets : Bytes) : Prop :=
  item.2.length < 256 ∧ octets = item.1 :: UInt8.ofNat item.2.length :: item.2

/-- **A type-length-value field is read exactly.** -/
theorem tlv_exact : Reader.Exact tlv TlvEnc := by
  rintro data ⟨typ, value⟩ rest
  unfold tlv
  simp only [Reader.bind_eq_ok_iff]
  constructor
  · rintro ⟨⟨head, rest₁⟩, h₁, ⟨value', rest₂⟩, h₂, hr⟩
    obtain ⟨rfl, hlen⟩ := take_ok_iff.mp h₁
    -- a type octet and a length octet, then as many as that says
    obtain ⟨t, n, rfl⟩ := List.length_eq_two.mp hlen
    obtain ⟨rfl, hn⟩ := take_ok_iff.mp h₂
    obtain ⟨he, rfl⟩ := Prod.mk.inj (Except.ok.inj hr)
    obtain ⟨rfl, rfl⟩ := Prod.mk.inj he
    have hn : value'.length = n.toNat := hn
    refine ⟨t :: n :: value', ⟨?_, ?_⟩, rfl⟩
    · have := n.toNat_lt
      simp only
      omega
    · simp [hn]
  · rintro ⟨b, ⟨hlt, rfl⟩, rfl⟩
    refine ⟨([typ, UInt8.ofNat value.length], value ++ rest), take_ok_iff.mpr ⟨rfl, rfl⟩,
      (value, rest), take_ok_iff.mpr ⟨rfl, ?_⟩, rfl⟩
    simp only at hlt
    simp [Nat.mod_eq_of_lt hlt]

/-- A field has its type and its length at least. -/
theorem TlvEnc.ne_nil (item : UInt8 × Bytes) (octets : Bytes) (h : TlvEnc item octets) :
    octets ≠ [] := by
  rw [h.2]
  simp

theorem tlv_consumes : Reader.Consumes tlv := tlv_exact.consumes TlvEnc.ne_nil

end Wire
