import BgpReceiver.Wire.Basic

/-!
# FlowSpec and community helpers

The functions of `wire_helpers.rs`: prefixes, operator octets and their operands,
and the extended communities. They only render, so their results are texts.

Traffic rates are IEEE single-precision numbers. Such a number is read into its
sign, exponent and fraction (`Binary32`); multiplying it by eight is exact up to
the overflow to infinity, and printing it without a fraction rounds halves to the
even neighbour.
-/

namespace Wire

/-- The address family of IPv4. -/
def AFI_IPV4 : ℕ := 1

/-- The address family of IPv6. -/
def AFI_IPV6 : ℕ := 2

/-! ### Component names and prefixes -/

/-- The name of a component by its type. Some types have another name, or none, in the other
family. -/
def componentName (ftype : UInt8) (afi : ℕ) : Option String :=
  -- the flow label is a type of IPv6 only
  if afi = AFI_IPV6 ∧ ftype = 13 then some "flow-label"
  else
    match ftype with
    | 1 => some "dst-prefix"
    | 2 => some "src-prefix"
    | 3 => some "ip-proto"
    | 4 => some "port"
    | 5 => some "dst-port"
    | 6 => some "src-port"
    | 7 => some "icmp-type"
    | 8 => some "icmp-code"
    | 9 => some "tcp-flags"
    | 10 => some "pkt-len"
    | 11 => some "dscp"
    | 12 => some "fragment"
    | _ => none

/-- `prefix_len.div_ceil(8)`. -/
def divCeil8 (prefixLen : ℕ) : ℕ := (prefixLen + 7) / 8

/-- `mask_prefix`: clear the bits behind the prefix. -/
def maskPrefix (address : Bytes) (prefixLen : ℕ) : Bytes :=
  let fullBytes := prefixLen / 8
  let remainingBits := prefixLen % 8
  -- the octet that the prefix ends in keeps its upper bits
  let address :=
    if remainingBits ≠ 0 ∧ fullBytes < address.length then
      address.set fullBytes (address[fullBytes]! &&& (255 <<< UInt8.ofNat (8 - remainingBits)))
    else address
  -- all octets behind it are cleared
  let zeroFrom := fullBytes + (if remainingBits ≠ 0 then 1 else 0)
  address.take zeroFrom ++ List.replicate (address.length - zeroFrom) 0

/-- The octets at the front of a zeroed buffer of the given size. -/
def padTo (size : ℕ) (raw : Bytes) : Bytes := raw ++ List.replicate (size - raw.length) 0

/-- `prefix_string`. -/
def prefixString (raw : Bytes) (prefixLen afi : ℕ) (mask : Bool) : Option String :=
  if afi = AFI_IPV6 then
    let buf := padTo 16 raw
    let buf := if mask then maskPrefix buf prefixLen else buf
    some (IpAddr.ipv6Text buf ++ "/" ++ Nat.repr prefixLen)
  else if afi = AFI_IPV4 then
    let buf := padTo 4 raw
    let buf := if mask then maskPrefix buf prefixLen else buf
    some (IpAddr.ipv4Text buf ++ "/" ++ Nat.repr prefixLen)
  else none

/-- The longest prefix of an address family. -/
def maxBits (afi : ℕ) : ℕ := if afi = AFI_IPV6 then 128 else 32

/-- `parse_prefix` at offset 0, the only offset it is called with: the prefix at the
front of the data and the number of octets it takes. -/
def parsePrefix (data : Bytes) (afi : ℕ) : Option (String × ℕ) :=
  match data with
  | [] => none
  | len :: data =>
    let prefixLen := len.toNat
    let numBytes := divCeil8 prefixLen
    -- the error has no text of its own
    if prefixLen > maxBits afi then none
    else if numBytes > data.length then none
    -- the bits behind the length are not cleared here, unlike in `unicastRoute`
    else (prefixString (data.take numBytes) prefixLen afi false).map fun s => (s, 1 + numBytes)

/-- `hex_encode`. -/
def hexEncode (data : Bytes) : String :=
  String.ofList (data.flatMap fun b => [Nat.digitChar (b.toNat / 16), Nat.digitChar (b.toNat % 16)])

/-- `next_hop_string`. -/
def nextHopString (data : Bytes) : String :=
  if data.length = 0 then ""
  else if data.length = 4 then IpAddr.ipv4Text data
  else if data.length = 16 then IpAddr.ipv6Text data
  -- a global address and a link-local one
  else if data.length = 32 then
    IpAddr.ipv6Text (data.take 16) ++ "," ++ IpAddr.ipv6Text (data.drop 16)
  else hexEncode data

/-! ### Operators and operands -/

/-- What an operator octet says: whether its term is the last, how many octets the
operand has, and the text of the comparison. -/
structure DecodedOp where
  last : Bool
  len : ℕ
  symbol : String

/-- The bit of the last term. -/
def opEnd (op : UInt8) : Bool := op &&& 0x80 ≠ 0

/-- `1 << ((op >> 4) & 0x03)`. -/
def opLen (op : UInt8) : ℕ := 2 ^ ((op >>> 4) &&& 0x03).toNat

/-- `decode_op`. -/
def decodeOp (op : UInt8) : DecodedOp where
  last := opEnd op
  len := opLen op
  symbol :=
    -- the bits for less, greater and equal
    match decide (op &&& 0x04 ≠ 0), decide (op &&& 0x02 ≠ 0), decide (op &&& 0x01 ≠ 0) with
    | true, true, true => "<>="
    | true, true, false => "<>"
    | true, false, true => "<="
    | true, false, false => "<"
    | false, true, true => ">="
    | false, true, false => ">"
    | false, false, true => "="
    | false, false, false => "?"

/-- `decode_bitmask_op`. -/
def decodeBitmaskOp (op : UInt8) : DecodedOp where
  last := opEnd op
  len := opLen op
  symbol :=
    -- the match bit asks for all of the flags, and the other one negates
    if op &&& 0x01 ≠ 0 then (if op &&& 0x02 ≠ 0 then "not-all" else "all")
    else if op &&& 0x02 ≠ 0 then "none"
    else "any"

/-- `read_be_int`: the octets as a big-endian number in 64 bits. -/
def readBeInt (data : Bytes) : ℕ :=
  data.foldl (fun val b => (val * 256 + b.toNat) % 2 ^ 64) 0

/-- The name that an IP protocol number is shown with. -/
def protocolName (value : ℕ) : Option String :=
  match value with
  | 1 => some "icmp"
  | 2 => some "igmp"
  | 6 => some "tcp"
  | 17 => some "udp"
  | 41 => some "ipv6"
  | 47 => some "gre"
  | 50 => some "esp"
  | 51 => some "ah"
  | 58 => some "icmpv6"
  | 89 => some "ospf"
  | 132 => some "sctp"
  | _ => none

/-- `format_numeric_value`. -/
def formatNumericValue (ftype : UInt8) (value : ℕ) : String :=
  match (if ftype = 3 then protocolName value else none) with
  | some name => name ++ "(" ++ Nat.repr value ++ ")"
  -- a DSCP has six bits
  | none => if ftype = 11 then Nat.repr (value &&& 0x3F) else Nat.repr value

/-- The names of the bits that are set. -/
def flagNames (table : List (ℕ × String)) (value : ℕ) : List String :=
  (table.filter fun e => value &&& e.1 ≠ 0).map Prod.snd

/-- The names of the flags of TCP, in the order in which they are shown. -/
def tcpFlags : List (ℕ × String) :=
  [(0x001, "fin"), (0x002, "syn"), (0x004, "rst"), (0x008, "psh"), (0x010, "ack"),
    (0x020, "urg"), (0x040, "ece"), (0x080, "cwr"), (0x100, "ns")]

/-- The names of the flags of fragments, in their order. -/
def fragmentFlags : List (ℕ × String) :=
  [(0x01, "df"), (0x02, "is-fragment"), (0x04, "first-fragment"), (0x08, "last-fragment")]

/-- `tcp_flag_names`. -/
def tcpFlagNames (value : ℕ) : List String := flagNames tcpFlags value

/-- `fragment_flag_names`. -/
def fragmentFlagNames (value : ℕ) : List String := flagNames fragmentFlags value

/-- `format_bitmask_value`. -/
def formatBitmaskValue (ftype : UInt8) (opname : String) (value : ℕ) : String :=
  let names := if ftype = 9 then tcpFlagNames value else fragmentFlagNames value
  -- no known bit is set
  if names = [] then opname ++ "(0x" ++ Text.hex value ++ ")"
  else opname ++ "(" ++ String.intercalate "," names ++ ")"

/-! ### Traffic rates -/

/-- The fields of an IEEE single-precision number. -/
structure Binary32 where
  negative : Bool
  exponent : ℕ
  fraction : ℕ

/-- `f32::from_be_bytes`. -/
def readF32 (octets : Bytes) : Binary32 :=
  let bits := fromBeBytes octets
  ⟨bits / 2 ^ 31 = 1, bits / 2 ^ 23 % 256, bits % 2 ^ 23⟩

namespace Binary32

/-- `rate <= 0.0`: not a number is not below zero. -/
def nonPositive (x : Binary32) : Bool :=
  -- a comparison with a number that is none is false
  if x.exponent = 255 ∧ x.fraction ≠ 0 then false
  else x.negative || (x.exponent = 0 && x.fraction = 0)

/-- A number without its fraction, halves to the even neighbour, from a significand
and a power of two that is biased by 149. -/
def roundedText (significand biased : ℕ) : String :=
  if 149 ≤ biased then Nat.repr (significand * 2 ^ (biased - 149))
  else
    let unit := 2 ^ (149 - biased)
    let whole := significand / unit
    let twice := 2 * (significand % unit)
    Nat.repr (if twice > unit ∨ (twice = unit ∧ whole % 2 = 1) then whole + 1 else whole)

/-- `format!("{:.0}")` of a positive number after `shift` doublings. A doubling is
exact until the exponent reaches that of infinity. -/
def scaledText (x : Binary32) (shift : ℕ) : String :=
  if x.exponent = 255 then (if x.fraction ≠ 0 then "NaN" else "inf")
  else if x.exponent = 0 then roundedText x.fraction shift
  else if x.exponent + shift ≥ 255 then "inf"
  else roundedText (2 ^ 23 + x.fraction) (x.exponent - 1 + shift)

end Binary32

/-! ### Extended communities -/

/-- `chunks_exact` and `as_chunks`: the full chunks of the given size. -/
def chunksExact (size : ℕ) (data : Bytes) : List Bytes :=
  (List.range (data.length / size)).map fun i => (data.drop (i * size)).take size

/-- `{:04x}` of a sixteen-bit number. -/
def hex4 (n : ℕ) : String :=
  hexEncode (u16ToBeBytes n)

/-- `redirect_to_ip_action`. -/
def redirectToIpAction (family addr : String) (flags : ℕ) : String :=
  let verb := if flags % 2 = 1 then "copy-to" else "redirect-to"
  -- the lowest bit is told by the verb
  let extra := if flags = 0 ∨ flags = 1 then "" else "(flags=0x" ++ hex4 flags ++ ")"
  -- an address of zeros stands for the next hop of the route
  if addr = "0.0.0.0" ∨ addr = "::" then verb ++ "-next-hop" ++ extra
  else verb ++ "-" ++ family ++ "=" ++ addr ++ extra

/-- A truth value as Python shows it. -/
def boolName (b : Bool) : String := if b then "True" else "False"

/-- The action of one extended community. -/
def extCommunity (ec : Bytes) : String :=
  let t := ec[0]!
  let s := ec[1]!
  let u16 := fun i => Nat.repr (fromBeBytes ((ec.drop i).take 2))
  let u32 := fun i => Nat.repr (fromBeBytes ((ec.drop i).take 4))
  let rate := readF32 ((ec.drop 4).take 4)
  let v4 := IpAddr.ipv4Text ((ec.drop 2).take 4)
  -- octets a second, shown in bits
  if (t, s) = (0x80, 0x06) then
    if rate.nonPositive then "discard" else "rate-limit=" ++ rate.scaledText 3 ++ "bps"
  -- packets a second
  else if (t, s) = (0x80, 0x0C) then
    if rate.nonPositive then "discard-packets" else "rate-limit=" ++ rate.scaledText 0 ++ "pps"
  else if (t, s) = (0x80, 0x07) then
    "traffic-action(sample=" ++ boolName (ec[7]! &&& 0x02 ≠ 0) ++ ",terminal="
      ++ boolName (ec[7]! &&& 0x01 ≠ 0) ++ ")"
  -- a route target of three kinds: two-octet AS, IPv4 address, four-octet AS
  else if (t, s) = (0x80, 0x08) then "rt-redirect=" ++ u16 2 ++ ":" ++ u32 4
  else if (t, s) = (0x81, 0x08) then "rt-redirect=" ++ v4 ++ ":" ++ u16 6
  else if (t, s) = (0x82, 0x08) then "rt-redirect=" ++ u32 2 ++ ":" ++ u16 6
  else if (t, s) = (0x80, 0x09) then "mark-dscp=" ++ Nat.repr (ec[7]! &&& 0x3F).toNat
  else if (t, s) = (0x01, 0x0C) then
    redirectToIpAction "ipv4" v4 (fromBeBytes ((ec.drop 6).take 2))
  -- whatever its subtype
  else if t = 0x08 then "redirect-to-next-hop"
  else if (t, s) = (0x80, 0x0b) then "ec=" ++ hexEncode ec ++ "(juniper-redirect-to-next-hop)"
  -- a subtype of FlowSpec that is not known
  else if t = 0x80 ∨ t = 0x81 ∨ t = 0x82 then "unknown-flowspec-ec=" ++ hexEncode ec
  else "ec=" ++ hexEncode ec

/-- `parse_ext_communities`. -/
def parseExtCommunities (data : Bytes) : List String :=
  (chunksExact 8 data).map extCommunity

/-- The action of one IPv6-specific extended community. -/
def ipv6ExtCommunity (ec : Bytes) : String :=
  let etype := fromBeBytes (ec.take 2)
  let ip := IpAddr.ipv6Text ((ec.drop 2).take 16)
  let val := fromBeBytes ((ec.drop 18).take 2)
  if etype = 0x000C then redirectToIpAction "ipv6" ip val
  else if etype = 0x000D then "rt-redirect=[" ++ ip ++ "]:" ++ Nat.repr val
  else if 0x000C ≤ etype ∧ etype < 0x0010 then "unknown-flowspec-ipv6-ec=" ++ hexEncode ec
  else "ipv6-ec=" ++ hexEncode ec

/-- `parse_ipv6_ext_communities`. -/
def parseIpv6ExtCommunities (data : Bytes) : List String :=
  (chunksExact 20 data).map ipv6ExtCommunity

/-! The unit tests of the source file: 9600.0 as bytes and as packets per second,
and -1.0. -/

example : parseExtCommunities [0x80, 0x06, 0, 0, 0x46, 0x16, 0, 0] = ["rate-limit=76800bps"] := by
  decide

example : parseExtCommunities
    [0x80, 0x0c, 0, 0, 0x46, 0x16, 0, 0, 0x80, 0x0c, 0, 0, 0xbf, 0x80, 0, 0]
    = ["rate-limit=9600pps", "discard-packets"] := by decide

end Wire
