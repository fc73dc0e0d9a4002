import BgpReceiver.Session.Framing
import BgpReceiver.Wire.Open

/-!
# The OPEN that is sent is the OPEN that is read

`build_open` and `open` are written apart from each other. What `build_open` writes is the
encoding of a content (`ownOpen`): a base, one parameter of type 2, and in it the
capabilities of `ownCapabilities`, of which the last one carries the ASN. So `open` returns
what was put in, also for an ASN that the base has no room for (`buildOpen_roundTrip`).

The base says how many octets follow it, so a body that is cut short anywhere is refused
(`RawOpen.Enc.length_le`).
-/

namespace Wire

/-! ### The content of the OPEN -/

/-- The capabilities that `build_open` lists. -/
def ownCapabilities (asn : ℕ) : List (UInt8 × Bytes) :=
  ([1, 2].flatMap fun afi => [1, 133].map fun safi => (1, u16ToBeBytes afi ++ [0, safi])) ++
    [(65, u32ToBeBytes asn)]

/-- The octets of a capability. -/
def tlvOctets (item : UInt8 × Bytes) : Bytes := item.1 :: UInt8.ofNat item.2.length :: item.2

/-- The content that `build_open` writes. -/
def ownOpen (asn hold : ℕ) (router : Bytes) : RawOpen where
  base := [4] ++ u16ToBeBytes (if asn > 65535 then 23456 else asn) ++ u16ToBeBytes hold
    ++ router ++ [32]
  params := [(2, (ownCapabilities asn).flatMap tlvOctets)]
  trailing := []

/-- Every capability has a value of four octets. -/
theorem length_ownCapabilities {cap : UInt8 × Bytes} (h : cap ∈ ownCapabilities asn) :
    cap.2.length = 4 := by
  simp only [ownCapabilities, List.flatMap_cons, List.flatMap_nil, List.map_cons, List.map_nil,
    List.append_nil, List.cons_append, List.nil_append, List.mem_cons, List.not_mem_nil,
    or_false] at h
  rcases h with rfl | rfl | rfl | rfl | rfl <;> rfl

/-- The capabilities are encoded as a list of them. -/
theorem ownCapabilities_enc :
    Reader.EncAll TlvEnc (ownCapabilities asn) ((ownCapabilities asn).flatMap tlvOctets) :=
  Reader.encAll_iff.mpr ⟨fun _ hcap => by rw [length_ownCapabilities hcap]; decide, rfl⟩

/-- The capabilities of the one parameter. -/
theorem ownOpen_capabilities :
    CapabilitiesOf (ownOpen asn hold router).params (ownCapabilities asn) := by
  rw [← List.append_nil (ownCapabilities asn)]
  exact .take rfl ownCapabilities_enc .nil

/-- The body that `build_open` writes, behind its header, has that content. -/
theorem buildOpen_enc (hrouter : router.length = 4) :
    (ownOpen asn hold router).Enc ((buildOpen asn hold router).drop 19) := by
  obtain ⟨a, octets, rfl⟩ := List.exists_cons_of_length_eq_add_one hrouter
  obtain ⟨b, c, d, rfl⟩ := List.length_eq_three.mp (Nat.succ.inj hrouter)
  refine ⟨rfl, tlvOctets (2, (ownCapabilities asn).flatMap tlvOctets) ++ [], ?_, rfl, rfl⟩
  have hlen : ((ownCapabilities asn).flatMap tlvOctets).length = 30 := rfl
  exact .cons ⟨by rw [hlen]; decide, rfl⟩ .nil

/-- What that content says. -/
theorem ownOpen_info (hasn : asn < 4294967296) (hhold : hold < 65536)
    (hrouter : router.length = 4) :
    (ownOpen asn hold router).info (ownCapabilities asn) = ⟨asn, hold, router, true⟩ := by
  obtain ⟨a, octets, rfl⟩ := List.exists_cons_of_length_eq_add_one hrouter
  obtain ⟨b, c, d, rfl⟩ := List.length_eq_three.mp (Nat.succ.inj hrouter)
  have hlast : ∀ acc : PeerAsn, acc.of (ownCapabilities asn) = ⟨asn, true⟩ := by
    intro acc
    -- the ASN is in the last capability, and the base is not looked at
    rw [ownCapabilities, PeerAsn.of_last acc (show IsAsn4 (65, u32ToBeBytes asn) from ⟨rfl, rfl⟩)
      (by simp), ← toBeBytes_four, fromBeBytes_toBeBytes hasn]
  have hheld : (ownOpen asn hold [a, b, c, d]).holdTime = hold :=
    @fromBeBytes_toBeBytes 2 hold hhold
  rw [RawOpen.info, hlast, hheld]
  rfl

/-! ### Round trip -/

/-- A message is its header and its body. -/
theorem message_split (kind : UInt8) (body : Bytes) :
    (message kind body).take 19 = headerOctets kind body.length ∧
      (message kind body).drop 19 = body :=
  ⟨List.take_left' (length_headerOctets kind body.length),
    List.drop_left' (length_headerOctets kind body.length)⟩

/-- The base says how many octets follow it, up to those that are not looked at. -/
theorem RawOpen.Enc.length_eq {r : RawOpen} {body : Bytes} (h : r.Enc body) :
    body.length = 10 + body[9]!.toNat + r.trailing.length := by
  obtain ⟨hbase, octets, -, hlen, rfl⟩ := h
  have hnine : (r.base ++ (octets ++ r.trailing))[9]! = r.base[9]! := by
    rw [getElem!_pos _ 9 (by rw [List.length_append]; omega), getElem!_pos r.base 9 (by omega),
      List.getElem_append_left]
  rw [hnine, ← hlen, List.length_append, List.length_append, hbase, Nat.add_assoc]

/-- **A body without trailing octets is refused when it is cut short.** -/
theorem RawOpen.Enc.cut {r : RawOpen} {body data : Bytes} (h : r.Enc body)
    (htrailing : r.trailing = []) (hp : data <+: body) (hne : data ≠ body) :
    ∃ e, openMessage data = .error e := by
  cases ho : openMessage data with
  | error e => exact ⟨e, rfl⟩
  | ok v =>
    obtain ⟨info, hi, -⟩ := openMessage_ok_iff.mp ho
    obtain ⟨r', hr', -⟩ := parseOpen_ok_iff.mp hi
    -- what is left has the base, and the base asks for all of the rest
    have hlen := h.length_eq
    have hlen' := hr'.length_eq
    have hnine : data[9]! = body[9]! := by
      have hdata : 9 < data.length := by omega
      have hbody : 9 < body.length := hdata.trans_le hp.length_le
      rw [getElem!_pos data 9 hdata, getElem!_pos body 9 hbody, hp.getElem]
    rw [htrailing, List.length_nil] at hlen
    rw [hnine] at hlen'
    exact absurd (hp.eq_of_length_le (by omega)) hne

/-- **OPEN round trip.** For every ASN of 32 bits, every admissible hold time of 16 bits and
every router id, the header of what `build_open` writes announces the octets behind it, and
`open` returns from them what was put in, in either width. Cut short, they are refused. -/
theorem buildOpen_roundTrip (hasn : asn < 2 ^ 32)
    (hhold : hold = 0 ∨ 3 ≤ hold ∧ hold < 2 ^ 16) (hrouter : router.length = 4) :
    header ((buildOpen asn hold router).take 19)
        = .ok (1, ((buildOpen asn hold router).drop 19).length) ∧
      parseOpen ((buildOpen asn hold router).drop 19) = .ok ⟨asn, hold, router, true⟩ ∧
      openMessage ((buildOpen asn hold router).drop 19)
        = .ok (.object [("version", .num 4), ("peer_as", .num asn), ("hold_time", .num hold),
          ("router_id", .str (IpAddr.ipv4Text router)), ("supports_4byte_asn", .bool true)]) ∧
      ∀ body, body <+: (buildOpen asn hold router).drop 19 →
        body ≠ (buildOpen asn hold router).drop 19 → ∃ e, openMessage body = .error e := by
  have henc : (ownOpen asn hold router).Enc ((buildOpen asn hold router).drop 19) :=
    buildOpen_enc hrouter
  have hinfo : (ownOpen asn hold router).info (ownCapabilities asn)
      = ⟨asn, hold, router, true⟩ := ownOpen_info hasn (by omega) hrouter
  -- the hold time is one that a receiver accepts
  have hvalid : (ownOpen asn hold router).Valid := by
    have hheld := congrArg OpenInfo.holdTime hinfo
    refine ⟨rfl, ?_⟩
    change (ownOpen asn hold router).holdTime = hold at hheld
    rw [hheld]
    exact hhold.imp id And.left
  -- what is decoded is what the OPEN was built from
  have hparse : parseOpen ((buildOpen asn hold router).drop 19) = .ok ⟨asn, hold, router, true⟩ :=
    parseOpen_ok_iff.mpr ⟨_, henc, hvalid, _, ownOpen_capabilities, hinfo.symm⟩
  refine ⟨(header_eq_ok_iff _ _ _).mpr ⟨?_, ?_⟩, hparse, openMessage_ok_iff.mpr ⟨_, hparse, rfl⟩,
    fun body hp hne => henc.cut rfl hp hne⟩
  · have hlen := henc.length_eq
    have hnine := ((buildOpen asn hold router).drop 19)[9]!.toNat_lt
    change _ = 10 + _ + 0 at hlen
    omega
  · unfold buildOpen
    rw [(message_split _ _).1, (message_split _ _).2]

/-- An ASN that the base has no room for. -/
theorem buildOpen_roundTrip_wide :
    parseOpen ((buildOpen 4200000000 90 [192, 0, 2, 1]).drop 19)
      = .ok ⟨4200000000, 90, [192, 0, 2, 1], true⟩ :=
  (@buildOpen_roundTrip 4200000000 90 [192, 0, 2, 1]
    (by decide) (by decide) rfl).2.1

end Wire
