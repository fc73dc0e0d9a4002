import BgpReceiver.Wire.Helpers

/-!
# The UPDATE

The second part of `wire.rs`: prefixes and FlowSpec rules in NLRI fields, the path
attributes, and `update`, which puts them together.

`update` walks the attributes once. What it keeps while doing so is `UpdateAcc`,
and `attrStep` is one turn of the loop. After the loop `replaceNextHop` rewrites
the actions that refer to the FlowSpec next hop, and the two classic NLRI fields
are decoded. `update` fails as a whole when a length leaves its field, when an
NLRI field does not decode, and for nothing else: an attribute that does not
decode is kept as its octets.
-/

namespace Wire

/-! ### NLRI -/

/-- One prefix of a unicast NLRI field, as the route it stands for. -/
def unicastRoute (afi : ℕ) (nextHop : Option String) : Reader String UInt8 Json := fun data => do
  let (bits, data) ← byteAt data
  -- the length is checked before the octets are taken
  if bits.toNat > maxBits afi then
    throw "Invalid prefix length"
  let (raw, data) ← take (divCeil8 bits.toNat) data
  match prefixString raw bits.toNat afi true with
  | none => throw "Invalid prefix"
  | some text =>
    let route := Json.object [("prefix", .str text)]
    -- a withdrawn route has no `next_hop` member
    match nextHop with
    | some nh => return (route.set "next_hop" (.str nh), data)
    | none => return (route, data)

/-- `unicast`. -/
def unicast (data : Bytes) (afi : ℕ) (nextHop : Option String) : Except String (List Json) :=
  Reader.collect (unicastRoute afi nextHop) data

/-- One term of a numeric or bitmask component: its text, and whether it is the last. -/
def componentTerm (kind : UInt8) : Reader String UInt8 (String × Bool) := fun data => do
  let (op, data) ← byteAt data
  -- TCP flags and fragments
  let bitmask := kind = 9 ∨ kind = 12
  let decoded := if bitmask then decodeBitmaskOp op else decodeOp op
  let (operand, data) ← take decoded.len data
  -- at most eight octets, which fit in the 64 bits
  let value := readBeInt operand
  let text :=
    if bitmask then formatBitmaskValue kind decoded.symbol value
    else decoded.symbol ++ formatNumericValue kind value
  return ((text, decoded.last), data)

/-- The name a component is stored under. -/
def componentKey (kind : UInt8) (afi : ℕ) : String :=
  (componentName kind afi).getD ("type" ++ Nat.repr kind.toNat)

/-- The value of a component: a prefix for types 1 and 2, a list of terms otherwise. -/
def componentValue (kind : UInt8) (afi : ℕ) : Reader String UInt8 Json := fun data => do
  if kind = 1 ∨ kind = 2 then
    match parsePrefix data afi with
    | none => throw "Invalid FlowSpec prefix"
    | some (text, used) =>
      -- `used` has the length octet in it
      let (_, data) ← take used data
      return (.str text, data)
  else
    -- the loop ends with the term whose end bit is set, or fails with the octets
    let (values, data) ← Reader.untilLast (componentTerm kind) data
    return (.arr (values.map Json.str), data)

/-- One component of a FlowSpec rule. -/
def component (afi : ℕ) : Reader String UInt8 (String × Json) := fun data => do
  let (kind, data) ← byteAt data
  let (value, data) ← componentValue kind afi data
  return ((componentKey kind afi, value), data)

/-- `components`: a rule as an object with one member for each component name. -/
def components (data : Bytes) (afi : ℕ) : Except String Json := do
  -- `Map::insert`: a later component of a type takes the place of an earlier one
  let result ← Reader.drain (component afi) (fun m e => .ok (Entries.insert e.1 e.2 m)) [] data
  return .obj result

/-- The length of a FlowSpec rule: one octet below 240, otherwise twelve bits. -/
def ruleLength : Reader String UInt8 ℕ := fun data => do
  let (first, data) ← byteAt data
  if first.toNat < 240 then
    return (first.toNat, data)
  else
    -- the low four bits of the first octet are the upper ones of the length
    let (second, data) ← byteAt data
    return (first.toNat % 16 * 256 + second.toNat, data)

/-- One rule of a FlowSpec NLRI field, behind its length. -/
def flowspecRule (afi : ℕ) : Reader String UInt8 Json := fun data => do
  let (len, data) ← ruleLength data
  -- the components are read from the octets of the rule alone
  let (rule, data) ← take len data
  let value ← components rule afi
  return (value, data)

/-- `flowspec`. -/
def flowspec (data : Bytes) (afi : ℕ) : Except String (List Json) :=
  Reader.collect (flowspecRule afi) data

/-! ### Path attributes -/

/-- `attr_name`. -/
def attrName (code : UInt8) : String :=
  match code with
  | 1 => "ORIGIN"
  | 2 => "AS_PATH"
  | 3 => "NEXT_HOP"
  | 4 => "MULTI_EXIT_DISC"
  | 5 => "LOCAL_PREF"
  | 6 => "ATOMIC_AGGREGATE"
  | 7 => "AGGREGATOR"
  | 8 => "COMMUNITIES"
  | 9 => "ORIGINATOR_ID"
  | 10 => "CLUSTER_LIST"
  | 14 => "MP_REACH_NLRI"
  | 15 => "MP_UNREACH_NLRI"
  | 16 => "EXTENDED_COMMUNITIES"
  | 17 => "AS4_PATH"
  | 18 => "AS4_AGGREGATOR"
  | 25 => "IPV6_ADDRESS_SPECIFIC_EXTENDED_COMMUNITIES"
  | 32 => "LARGE_COMMUNITIES"
  | _ => "ATTR_" ++ Nat.repr code.toNat

/-- One segment of an AS path: its type and its ASNs. -/
def pathSegment (width : ℕ) : Reader String UInt8 (UInt8 × List ℕ) := fun data => do
  let (h, data) ← take 2 data
  let (octets, data) ← take (h[1]!.toNat * width) data
  return ((h[0]!, (chunksExact width octets).map readBeInt), data)

/-- The name of a segment of a path. -/
def segmentName (kind : UInt8) : String :=
  match kind with
  | 1 => "AS_SET"
  | 2 => "AS_SEQUENCE"
  | 3 => "AS_CONFED_SEQUENCE"
  | 4 => "AS_CONFED_SET"
  | n => "SEGMENT_" ++ Nat.repr n.toNat

/-- A segment with its numbers. -/
def segmentJson (segment : UInt8 × List ℕ) : Json :=
  .object [("type", .str (segmentName segment.1)), ("asns", .arr (segment.2.map Json.num))]

/-- The text of a standard community. -/
def communityText (chunk : Bytes) : String :=
  match readBeInt chunk with
  | 0xffffff01 => "NO_EXPORT"
  | 0xffffff02 => "NO_ADVERTISE"
  | 0xffffff03 => "NO_EXPORT_SUBCONFED"
  | 0xffffff04 => "NOPEER"
  | _ => Nat.repr (readBeInt (chunk.take 2)) ++ ":" ++ Nat.repr (readBeInt (chunk.drop 2))

/-- The three numbers of a large community. -/
def largeCommunityText (chunk : Bytes) : String :=
  Nat.repr (readBeInt (chunk.take 4)) ++ ":" ++ Nat.repr (readBeInt ((chunk.drop 4).take 4))
    ++ ":" ++ Nat.repr (readBeInt (chunk.drop 8))

/-- The name of an origin, or its number. -/
def originText (b : UInt8) : String :=
  match b with
  | 0 => "igp"
  | 1 => "egp"
  | 2 => "incomplete"
  | n => "unknown-" ++ Nat.repr n.toNat

/-- A list of texts as a value. -/
def texts (l : List String) : Json := .arr (l.map Json.str)

/-- The MP attributes as they are shown among the attributes: without their routes. -/
def mpInfo (code : UInt8) (data : Bytes) : Except String Json := do
  let (afi, data) ← u16At data
  let (safi, data) ← byteAt data
  let info := Json.object [("afi", .num afi), ("safi", .num safi.toNat)]
  if code = 14 then
    let (n, data) ← byteAt data
    let (nh, data) ← take n.toNat data
    -- the reserved octet
    let (_, data) ← take 1 data
    return (info.set "next_hop" (.str (nextHopString nh))).set "nlri_length" (.num data.length)
  else
    return info.set "nlri_length" (.num data.length)

/-- `attribute`: the value of an attribute. -/
def attributeValue (code : UInt8) (data : Bytes) (asnLen : ℕ) : Except String Json :=
  -- the one error of all guards
  let malformed : Except String Json := .error "Unknown or malformed attribute"
  let guarded := fun (ok : Bool) (value : Json) => if ok then .ok value else malformed
  match code with
  | 1 => guarded (data.length = 1) (.str (originText data[0]!))
  -- AS4_PATH has four octets a number, whatever the width of the session
  | 2 | 17 => do
    let path ← Reader.collect (pathSegment (if code = 17 then 4 else asnLen)) data
    return .arr (path.map segmentJson)
  | 3 | 9 => guarded (data.length = 4) (.str (nextHopString data))
  | 4 | 5 => guarded (data.length = 4) (.num (readBeInt data))
  | 6 => guarded (data.length = 0) (.bool true)
  | 7 | 18 =>
    -- the router is in the last four octets, and the number in front of it
    let width := data.length - 4
    guarded (data.length = if code = 7 then 6 else 8)
      (.object [("asn", .num (readBeInt (data.take width))),
        ("router_id", .str (nextHopString (data.drop width)))])
  | 8 => guarded (data.length % 4 = 0) (texts ((chunksExact 4 data).map communityText))
  | 10 => guarded (data.length % 4 = 0) (texts ((chunksExact 4 data).map nextHopString))
  | 14 | 15 => mpInfo code data
  | 16 => guarded (data.length % 8 = 0) (texts (parseExtCommunities data))
  | 25 => guarded (data.length % 20 = 0) (texts (parseIpv6ExtCommunities data))
  | 32 => guarded (data.length % 12 = 0) (texts ((chunksExact 12 data).map largeCommunityText))
  | _ => malformed

/-- An attribute as it stands in the message. -/
structure RawAttr where
  flags : UInt8
  code : UInt8
  data : Bytes
  deriving DecidableEq

/-- The length of an attribute, in two octets if its flags say so. -/
def attrLength (flags : UInt8) : Reader String UInt8 ℕ := fun attrs =>
  if flags &&& 16 ≠ 0 then u16At attrs
  else do
    let (n, attrs) ← byteAt attrs
    return (n.toNat, attrs)

/-- The header and the data of the next attribute. -/
def rawAttr : Reader String UInt8 RawAttr := fun attrs => do
  let (h, attrs) ← take 2 attrs
  let (n, attrs) ← attrLength h[0]! attrs
  let (data, attrs) ← take n attrs
  return (⟨h[0]!, h[1]!, data⟩, attrs)

/-- The record an attribute is reported with. -/
def attrRecord (asnLen : ℕ) (a : RawAttr) : Json :=
  let attr := Json.object [("code", .num a.code.toNat), ("name", .str (attrName a.code)),
    ("length", .num a.data.length),
    ("flags", .object [("optional", .bool (a.flags &&& 128 ≠ 0)),
      ("transitive", .bool (a.flags &&& 64 ≠ 0)), ("partial", .bool (a.flags &&& 32 ≠ 0)),
      ("extended_length", .bool (a.flags &&& 16 ≠ 0))])]
  -- what does not decode is reported as its octets, and the UPDATE is taken all the same
  match attributeValue a.code a.data asnLen with
  | .ok v => attr.set "value" v
  | .error _ => attr.set "raw" (.str (hexEncode a.data))

/-! ### The message -/

/-- What `update` keeps while it walks the attributes. -/
structure UpdateAcc where
  announce : List (String × Json)
  withdraw : List (String × Json)
  attributes : List Json
  actions : List Json
  nextHop : String
  flowNextHop : String

/-- What precedes the routes in an MP attribute. -/
structure MpHeader where
  afi : ℕ
  safi : UInt8
  nextHop : String

/-- Reading an MP attribute up to its routes; only MP_REACH_NLRI has a next hop. -/
def mpHeader (code : UInt8) : Reader String UInt8 MpHeader := fun nlri => do
  let (afi, nlri) ← u16At nlri
  let (safi, nlri) ← byteAt nlri
  if code = 14 then
    let (n, nlri) ← byteAt nlri
    let (hop, nlri) ← take n.toNat nlri
    -- the reserved octet, whatever it is
    let (_, nlri) ← take 1 nlri
    return (⟨afi, safi, nextHopString hop⟩, nlri)
  else
    return (⟨afi, safi, ""⟩, nlri)

/-- The families whose routes are decoded. -/
def MpHeader.known (h : MpHeader) : Bool :=
  (h.afi = 1 || h.afi = 2) && (h.safi = 1 || h.safi = 133)

/-- The key that the routes of a family are collected under. -/
def MpHeader.label (h : MpHeader) : String :=
  "ipv" ++ (if h.afi = 2 then "6" else "4") ++ "-"
    ++ (if h.safi = 133 then "flowspec" else "unicast")

/-- The routes behind an MP header. -/
def mpRoutes (code : UInt8) (h : MpHeader) (nlri : Bytes) : Except String (List Json) :=
  if h.safi = 133 then flowspec nlri h.afi
  else unicast nlri h.afi (if code = 14 then some h.nextHop else none)

/-- The MP_REACH_NLRI and MP_UNREACH_NLRI branch. -/
def mpStep (acc : UpdateAcc) (a : RawAttr) : Except String UpdateAcc := do
  let (h, nlri) ← mpHeader a.code a.data
  -- any other family is passed over
  if h.known then
    let routes ← mpRoutes a.code h nlri
    -- the hop of the last FlowSpec attribute that has one
    let acc :=
      if h.safi = 133 ∧ h.nextHop ≠ "" then { acc with flowNextHop := h.nextHop } else acc
    -- `insert` again: the routes of a family are put in place of those before
    if a.code = 14 then
      return { acc with announce := Entries.insert h.label (.arr routes) acc.announce }
    else
      return { acc with withdraw := Entries.insert h.label (.arr routes) acc.withdraw }
  else
    return acc

/-- One turn of the loop over the attributes. -/
def attrStep (asnLen : ℕ) (acc : UpdateAcc) (a : RawAttr) : Except String UpdateAcc := do
  let attr := attrRecord asnLen a
  -- a malformed NEXT_HOP has no value, and leaves the empty text
  let acc :=
    if a.code = 3 then { acc with nextHop := (attr.index "value").asStr.getD "" } else acc
  let acc :=
    -- extended communities of either kind are actions
    if a.code = 16 ∨ a.code = 25 then
      { acc with actions := acc.actions ++ (attr.index "value").asArray.getD [] }
    else acc
  let acc ← (if a.code = 14 ∨ a.code = 15 then mpStep acc a else pure acc)
  return { acc with attributes := acc.attributes ++ [attr] }

/-- One action with the FlowSpec next hop put in. -/
def replaceText (flowNextHop s : String) : String :=
  if s = "redirect-to-next-hop" then "redirect-to-ipv4=" ++ flowNextHop
  else if s = "copy-to-next-hop" then "copy-to-ipv4=" ++ flowNextHop
  else
    -- the text of a Juniper community has its octets in front
    match Text.stripSuffix s "(juniper-redirect-to-next-hop)" with
    | some p => p ++ "(juniper-redirect-to-ipv4=" ++ flowNextHop ++ ")"
    | none => s

/-- The closure `replace`. -/
def replace (flowNextHop : String) (values : List Json) : List Json :=
  values.map fun value =>
    match value.asStr with
    | some s => .str (replaceText flowNextHop s)
    | none => value

/-- The record of an extended community attribute with the next hop put in. Looking
for its value this way leaves a `null` behind when there is none. -/
def replaceAttr (flowNextHop : String) (attr : Json) : Json :=
  if attr.index "code" = .num 16 then
    -- `as_array_mut` on an index puts the member in when it is missing
    let attr := attr.indexMut "value"
    match (attr.index "value").asArray with
    | some v => attr.set "value" (.arr (replace flowNextHop v))
    | none => attr
  else attr

/-- The pass over the actions and the attributes after the loop. -/
def replaceNextHop (acc : UpdateAcc) : UpdateAcc :=
  if acc.flowNextHop ≠ "" then
    { acc with
      actions := replace acc.flowNextHop acc.actions
      attributes := acc.attributes.map (replaceAttr acc.flowNextHop) }
  else acc

/-- The Withdrawn Routes field. -/
def classicWithdraw (acc : UpdateAcc) (withdrawn : Bytes) : Except String UpdateAcc :=
  if withdrawn ≠ [] then do
    let routes ← unicast withdrawn 1 none
    -- the field is stored last, over what an attribute has stored for IPv4
    return { acc with withdraw := Entries.insert "ipv4-unicast" (.arr routes) acc.withdraw }
  else .ok acc

/-- The trailing NLRI field. -/
def classicAnnounce (acc : UpdateAcc) (nlri : Bytes) : Except String UpdateAcc :=
  if nlri ≠ [] then do
    -- NEXT_HOP as the walk has left it, the empty text without one
    let routes ← unicast nlri 1 (some acc.nextHop)
    return { acc with announce := Entries.insert "ipv4-unicast" (.arr routes) acc.announce }
  else .ok acc

/-- What `update` returns. -/
def UpdateAcc.toJson (acc : UpdateAcc) : Json :=
  .object [("announce", .obj acc.announce), ("withdraw", .obj acc.withdraw),
    ("actions", .arr acc.actions), ("path_attributes", .arr acc.attributes)]

/-- The state before the first attribute. -/
def UpdateAcc.empty : UpdateAcc := ⟨[], [], [], [], "", ""⟩

/-- `update`, before its result is turned into JSON. -/
def parseUpdate (body : Bytes) (asnLen : ℕ) : Except String UpdateAcc := do
  if asnLen ≠ 2 ∧ asnLen ≠ 4 then
    throw "Invalid ASN width"
  -- the octets behind the attributes are the announced prefixes
  let (len, body) ← u16At body
  let (withdrawn, body) ← take len body
  let (len, body) ← u16At body
  let (attrs, nlri) ← take len body
  let acc ← Reader.drain rawAttr (attrStep asnLen) UpdateAcc.empty attrs
  let acc ← classicWithdraw (replaceNextHop acc) withdrawn
  classicAnnounce acc nlri

/-- `update`. -/
def update (body : Bytes) (asnLen : ℕ) : Except String Json :=
  (parseUpdate body asnLen).map UpdateAcc.toJson

/-! The message of the native test `mixed_flowspec_and_redirect`: a rule with five
components, and an action that takes the next hop of the attribute. -/

example :
    (update [0, 0, 0, 45, 0x80, 14, 31, 0, 1, 133, 4, 192, 0, 2, 1, 0, 21, 3, 0x81, 6, 5, 0x13,
        4, 0, 0x95, 255, 255, 9, 1, 2, 0x83, 16, 11, 0x81, 255, 12, 0x80, 5,
        0x80, 16, 8, 8, 0, 0, 0, 0, 0, 0, 0] 2).toOption.map
      (fun u => ((u.index "announce").index "ipv4-flowspec", u.index "actions"))
    = some (.arr [.object [("ip-proto", texts ["=tcp(6)"]),
        ("dst-port", texts [">=1024", "<=65535"]),
        ("tcp-flags", texts ["all(syn)", "not-all(ack)"]),
        ("dscp", texts ["=63"]), ("fragment", texts ["any(df,first-fragment)"])]],
      texts ["redirect-to-ipv4=192.0.2.1"]) := by
  decide +kernel

end Wire
