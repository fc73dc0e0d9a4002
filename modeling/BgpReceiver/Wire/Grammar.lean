import BgpReceiver.Wire.Reference
import BgpReceiver.Wire.RoundTrip

/-!
# The grammar of an UPDATE

What `update` takes, without a restriction on the attributes. A message is written down with
everything that is in its octets (`UpdateMessage`): the prefixes of the classic fields, and of
every multiprotocol attribute its next hop and the routes of its family, a FlowSpec rule down
to the terms of its components. Attributes of other codes, and the routes of a family that is
not decoded, are octets that are not looked at.

`update` takes the encodings of these messages and nothing else, and the octets of a body are
those of one message only (`update_grammar`). So there is no body with two readings, and none
that is taken with octets that belong to nothing. Each level is an equivalence between
a reader and what is written there: terms and components (`rawComponent_exact`), rules
(`flowspecRule_reads`), the routes of a family (`Family.decoded_iff`), attributes
(`Attr.taken_iff`).

The grammar is wider than that of the RFCs in one place: a rule may have its length in two
octets however short it is (`RawFlow.wide`), and the upper four bits of the first of them are
all that tells the two forms apart.
-/

namespace Wire

/-! ### Components -/

/-- Terms are read up to the first with the end bit. -/
theorem untilLast_iff {data rest : Bytes} {ts : List RawTerm} :
    Reader.UntilLast rawTerm data ts rest ↔
      Delimited ts ∧ data = ts.flatMap RawTerm.octets ++ rest := by
  constructor
  · intro h
    -- by induction on the reading; the last term has the end bit and the others do not
    induction h with
    | @last data rest t h =>
      obtain ⟨rfl, hlen, hend⟩ := rawTerm_ok_iff.mp h
      refine ⟨⟨⟨[], t, rfl, hend.symm, by simp⟩, ?_⟩, by simp [RawTerm.octets]⟩
      intro u hu
      rwa [List.mem_singleton.mp hu]
    | @more data rest rest' t ts h _ ih =>
      obtain ⟨rfl, hlen, hend⟩ := rawTerm_ok_iff.mp h
      obtain ⟨⟨⟨front, last, rfl, hlast, hfront⟩, hoperands⟩, rfl⟩ := ih
      refine ⟨⟨⟨t :: front, last, rfl, hlast, ?_⟩, ?_⟩, by simp [RawTerm.octets]⟩
      · exact List.forall_mem_cons.mpr ⟨hend.symm, hfront⟩
      · exact List.forall_mem_cons.mpr ⟨hlen, hoperands⟩
  · rintro ⟨h, rfl⟩
    exact untilLast_octets h rest

/-- A component as it can stand in a rule. -/
def RawComponent.Formed (afi : ℕ) (c : RawComponent) : Prop :=
  match c.value with
  | .pfx len raw =>
    (c.kind = 1 ∨ c.kind = 2) ∧ len.toNat ≤ maxBits afi ∧ raw.length = divCeil8 len.toNat
  | .terms ts => ¬ (c.kind = 1 ∨ c.kind = 2) ∧ Delimited ts

/-- **A component is read exactly**, when it is well formed. -/
theorem rawComponent_exact (afi : ℕ) : Reader.Exact (rawComponent afi)
    fun c octets => c.Formed afi ∧ octets = c.octets := by
  rintro data ⟨kind, value⟩ rest
  rw [rawComponent_ok_iff]
  -- the components of the first two types are prefixes, and the others lists of terms
  by_cases hk : kind = 1 ∨ kind = 2
  · constructor
    · rintro ⟨data', rfl, hv⟩
      obtain ⟨len, raw, rfl, hle, hlen, rfl⟩ := (rawValue_pfx_ok_iff hk).mp hv
      exact ⟨_, ⟨⟨hk, hle, hlen⟩, rfl⟩, rfl⟩
    · rintro ⟨_, ⟨hformed, rfl⟩, rfl⟩
      cases value with
      | pfx len raw =>
        obtain ⟨-, hle, hlen⟩ := hformed
        exact ⟨_, rfl, (rawValue_pfx_ok_iff hk).mpr ⟨len, raw, rfl, hle, hlen, rfl⟩⟩
      | terms ts => exact absurd hk hformed.1
  · constructor
    · rintro ⟨data', rfl, hv⟩
      obtain ⟨ts, hts, rfl⟩ := (rawValue_terms_ok_iff hk).mp hv
      obtain ⟨hdelimited, rfl⟩ := untilLast_iff.mp hts
      exact ⟨_, ⟨⟨hk, hdelimited⟩, rfl⟩, rfl⟩
    · rintro ⟨_, ⟨hformed, rfl⟩, rfl⟩
      cases value with
      | pfx len raw => exact absurd hformed.1 hk
      | terms ts =>
        exact ⟨_, rfl, (rawValue_terms_ok_iff hk).mpr
          ⟨ts, untilLast_iff.mpr ⟨hformed.2, rfl⟩, rfl⟩⟩

/-- A rule is the components that its octets are made of. -/
theorem rawRule_iff_octets {afi : ℕ} {data : Bytes} {cs : List RawComponent} :
    rawRule data afi = .ok cs ↔
      (∀ c ∈ cs, c.Formed afi) ∧ data = cs.flatMap RawComponent.octets := by
  rw [rawRule_ok_iff, (rawComponent_exact afi).items_iff, Reader.encAll_iff]
  rintro c _ ⟨-, rfl⟩
  simp [RawComponent.octets]

/-! ### Rules -/

/-- The length of a rule, in one octet or in two. -/
def lengthField (wide : Bool) (n : ℕ) : Bytes :=
  if wide then [UInt8.ofNat (0xF0 + n / 256), UInt8.ofNat (n % 256)] else [UInt8.ofNat n]

/-- How long a rule can be. -/
def lengthBound (wide : Bool) : ℕ := if wide then 4096 else 240

/-- The length of a rule has one octet or two, each with a bound of its own. -/
theorem ruleLength_exact : Reader.Exact ruleLength fun n octets =>
    ∃ wide, n < lengthBound wide ∧ octets = lengthField wide n := by
  intro data n rest
  unfold ruleLength lengthField lengthBound
  simp only [Reader.bind_eq_ok_iff]
  constructor
  · rintro ⟨⟨first, data₁⟩, hb, h⟩
    obtain rfl := byteAt_ok_iff.mp hb
    have hfirst := first.toNat_lt
    -- from 240 on the first octet is the upper end of a length in two
    by_cases hlt : first.toNat < 240
    · rw [if_pos hlt] at h
      obtain ⟨rfl, rfl⟩ := Prod.mk.inj (Except.ok.inj h)
      exact ⟨_, ⟨false, hlt, rfl⟩, by simp⟩
    · simp only [if_neg hlt, Reader.bind_eq_ok_iff] at h
      obtain ⟨⟨second, data₂⟩, hb, h⟩ := h
      obtain rfl := byteAt_ok_iff.mp hb
      obtain ⟨rfl, rfl⟩ := Prod.mk.inj (Except.ok.inj h)
      have hsecond := second.toNat_lt
      have h₁ : 0xF0 + (first.toNat % 16 * 256 + second.toNat) / 256 = first.toNat := by omega
      have h₂ : (first.toNat % 16 * 256 + second.toNat) % 256 = second.toNat := by omega
      refine ⟨_, ⟨true, ?_, rfl⟩, ?_⟩
      · rw [if_pos rfl]
        dsimp only
        omega
      · simp only [h₁, h₂, UInt8.ofNat_toNat, if_true, List.cons_append, List.nil_append]
  · rintro ⟨_, ⟨wide, hn, rfl⟩, rfl⟩
    -- one octet or two, as the rule says
    cases wide with
    | false =>
      simp only [Bool.false_eq_true, if_false] at hn ⊢
      have hoctet : (UInt8.ofNat n).toNat = n := by
        rw [UInt8.toNat_ofNat', Nat.mod_eq_of_lt (by omega)]
      refine ⟨(UInt8.ofNat n, rest), byteAt_ok_iff.mpr rfl, ?_⟩
      rw [if_pos (by rw [hoctet]; exact hn), hoctet]
      rfl
    | true =>
      simp only [if_true] at hn ⊢
      have hfirst := @toNat_lengthOctet n (by omega)
      have hsecond : (UInt8.ofNat (n % 256)).toNat = n % 256 := by
        rw [UInt8.toNat_ofNat', Nat.mod_eq_of_lt (by omega)]
      have hlen : (0xF0 + n / 256) % 16 * 256 + n % 256 = n := by omega
      refine ⟨(_, _ :: rest), byteAt_ok_iff.mpr rfl, ?_⟩
      simp only [if_neg (show ¬ (UInt8.ofNat (0xF0 + n / 256)).toNat < 240 by rw [hfirst]; omega),
        Reader.bind_eq_ok_iff]
      refine ⟨(_, rest), byteAt_ok_iff.mpr rfl, ?_⟩
      rw [hfirst, hsecond, hlen]
      rfl

/-- A rule as it stands in a FlowSpec field. -/
structure RawFlow (afi : ℕ) where
  /-- its length stands in two octets -/
  wide : Bool
  components : List RawComponent
  formed : ∀ c ∈ components, c.Formed afi
  size : (components.flatMap RawComponent.octets).length < lengthBound wide

namespace RawFlow

variable {afi : ℕ}

/-- The octets of the components. -/
def body (rule : RawFlow afi) : Bytes := rule.components.flatMap RawComponent.octets

/-- The octets of a rule: its length and its body. -/
def octets (rule : RawFlow afi) : Bytes := lengthField rule.wide rule.body.length ++ rule.body

/-- The report of the rule. -/
def json (rule : RawFlow afi) : Json :=
  .object (rule.components.map (RawComponent.member afi))

theorem octets_ne_nil (rule : RawFlow afi) : rule.octets ≠ [] := by
  unfold octets lengthField
  split_ifs <;> simp

/-- The body of a rule is read as its components. -/
theorem components_body {rule : RawFlow afi} : rawRule rule.body afi = .ok rule.components :=
  rawRule_iff_octets.mpr ⟨rule.formed, rfl⟩

/-- The length of a rule is read in front of its body. -/
theorem ruleLength_octets (rule : RawFlow afi) (rest : Bytes) :
    ruleLength (rule.octets ++ rest) = .ok (rule.body.length, rule.body ++ rest) := by
  refine (ruleLength_exact _ _ _).mpr ⟨_, ⟨rule.wide, rule.size, rfl⟩, ?_⟩
  rw [octets, List.append_assoc]

theorem length_body_lt (rule : RawFlow afi) : rule.body.length < lengthBound rule.wide := rule.size

/-- The first octet tells whether the length has two. -/
theorem first_octet (rule : RawFlow afi) : ∃ first tail, rule.octets = first :: tail ∧
    (rule.wide = true ↔ 240 ≤ first.toNat) := by
  have hsize := rule.length_body_lt
  unfold octets lengthField
  unfold lengthBound at hsize
  -- a length in two octets begins with an octet from 240 on
  cases hw : rule.wide with
  | false =>
    rw [hw, if_neg (by simp)] at hsize
    refine ⟨_, _, rfl, ?_⟩
    rw [UInt8.toNat_ofNat', Nat.mod_eq_of_lt (by omega)]
    simpa using hsize
  | true =>
    rw [hw, if_pos rfl] at hsize
    refine ⟨_, _, rfl, ?_⟩
    rw [@toNat_lengthOctet rule.body.length (Nat.le_of_lt_succ hsize)]
    simp

/-- The first octet tells the form of the length, the length where the rule ends. -/
theorem separate : Reader.Separate (@octets afi) := by
  intro x y r s h
  -- the length says how many octets are the rule
  have hbodies : x.body = y.body := by
    have hx := x.ruleLength_octets r
    rw [h, y.ruleLength_octets s] at hx
    obtain ⟨hlen, happend⟩ := Prod.mk.inj (Except.ok.inj hx)
    exact (List.append_inj happend hlen).1.symm
  -- the octets of the rule are all that its components are read from
  have hcomponents : x.components = y.components := by
    have hx := @components_body afi x
    rw [hbodies, components_body] at hx
    exact (Except.ok.inj hx).symm
  -- the first octet says which of the two lengths it is
  have hwide : x.wide = y.wide := by
    obtain ⟨first, tail, hx, hxwide⟩ := x.first_octet
    obtain ⟨first', tail', hy, hywide⟩ := y.first_octet
    rw [hx, hy, List.cons_append, List.cons_append] at h
    rw [(List.cons.inj h).1] at hxwide
    exact Bool.eq_iff_iff.mpr (hxwide.trans hywide.symm)
  obtain ⟨w, cs, hf, hs⟩ := x
  obtain ⟨w', cs', hf', hs'⟩ := y
  obtain rfl : w = w' := hwide
  obtain rfl : cs = cs' := hcomponents
  rfl

end RawFlow

/-- **A rule is read as what its components are reported as.** -/
theorem flowspecRule_reads {afi : ℕ} (hafi : afi = 1 ∨ afi = 2) :
    Reader.Reads (flowspecRule afi) (fun rule : RawFlow afi => rule.octets) RawFlow.json := by
  intro data value rest
  rw [flowspecRule_ok_iff]
  constructor
  · rintro ⟨body, hlen, hv⟩
    obtain ⟨_, ⟨wide, hbound, rfl⟩, rfl⟩ := (ruleLength_exact _ _ _).mp hlen
    obtain ⟨cs, hcs, rfl⟩ := (components_ok_iff_rawRule hafi).mp hv
    obtain ⟨hformed, rfl⟩ := rawRule_iff_octets.mp hcs
    exact ⟨⟨wide, cs, hformed, hbound⟩, by simp [RawFlow.octets, RawFlow.body], rfl⟩
  · rintro ⟨rule, rfl, rfl⟩
    exact ⟨rule.body, rule.ruleLength_octets rest,
      (components_ok_iff_rawRule hafi).mpr ⟨_, rule.components_body, rfl⟩⟩

/-! ### The routes of a family -/

/-- Prefixes end by themselves, so a list of them can be taken apart in one way. -/
theorem RawPrefix.separate {afi : ℕ} : Reader.Separate (@RawPrefix.octets afi) := by
  intro p q r s h
  have hlen : p.octets.length = q.octets.length := by
    have hbits : p.bits = q.bits := by
      rw [← p.toNat_bits, ← q.toNat_bits, (List.cons.inj h).1]
    rw [RawPrefix.octets, RawPrefix.octets, List.length_cons, List.length_cons, p.length_raw,
      q.length_raw, hbits]
  exact RawPrefix.octets_inj (List.append_inj h hlen).1

namespace Family

/-- A route of the family as it stands in a field. -/
def Item : Family → Type
  | ipv4Unicast => RawPrefix 1
  | ipv4Flowspec => RawFlow 1
  | ipv6Unicast => RawPrefix 2
  | ipv6Flowspec => RawFlow 2

/-- The octets of a prefix or of a rule, by the family. -/
def itemOctets : (f : Family) → f.Item → Bytes
  | ipv4Unicast | ipv6Unicast => RawPrefix.octets
  | ipv4Flowspec | ipv6Flowspec => RawFlow.octets

/-- The report of a route, with the next hop it is announced with. -/
def itemJson (nextHop : Option String) : (f : Family) → f.Item → Json
  | ipv4Unicast | ipv6Unicast => fun p => routeJson p.text nextHop
  | ipv4Flowspec | ipv6Flowspec => RawFlow.json

/-- The octets of some of them. -/
def octets (f : Family) (items : List f.Item) : Bytes := items.flatMap f.itemOctets

theorem octets_injective (f : Family) : Function.Injective f.octets := by
  have hp : ∀ {afi : ℕ} (p : RawPrefix afi), p.octets ≠ [] := fun p => by simp [RawPrefix.octets]
  cases f with
  | ipv4Unicast | ipv6Unicast => exact RawPrefix.separate.flatMap_injective hp
  | ipv4Flowspec | ipv6Flowspec =>
    exact RawFlow.separate.flatMap_injective RawFlow.octets_ne_nil

/-- **What a field of a family is.** -/
theorem decoded_iff {f : Family} {nextHop : Option String} {data : Bytes} {routes : List Json} :
    Source.decoded ⟨f, data, nextHop⟩ = .ok routes ↔
      ∃ items : List f.Item, data = f.octets items ∧ routes = items.map (f.itemJson nextHop) := by
  cases f with
  | ipv4Unicast => exact unicast_ok_iff_prefixes (Or.inl rfl)
  | ipv6Unicast => exact unicast_ok_iff_prefixes (Or.inr rfl)
  | ipv4Flowspec =>
    exact flowspec_ok_iff.trans
      ((flowspecRule_reads (Or.inl rfl)).items_iff RawFlow.octets_ne_nil)
  | ipv6Flowspec =>
    exact flowspec_ok_iff.trans
      ((flowspecRule_reads (Or.inr rfl)).items_iff RawFlow.octets_ne_nil)

end Family

/-! ### Multiprotocol attributes -/

/-- The family and the routes of a multiprotocol attribute. -/
inductive MpBody where
  | routes (f : Family) (items : List f.Item)
  /-- a family that is not decoded -/
  | other (afi : ℕ) (safi : UInt8) (nlri : Bytes) (hafi : afi < 65536)
      (hother : ∀ hop, MpHeader.family? ⟨afi, safi, hop⟩ = none)

namespace MpBody

/-- The address family of the attribute. -/
def afi : MpBody → ℕ
  | routes f _ => f.afi
  | other afi _ _ _ _ => afi

/-- Its subsequent address family. -/
def safi : MpBody → UInt8
  | routes f _ => f.safi
  | other _ safi _ _ _ => safi

/-- What is behind its header. -/
def nlri : MpBody → Bytes
  | routes f items => f.octets items
  | other _ _ nlri _ _ => nlri

/-- An address family fits into two octets. -/
theorem afi_lt (b : MpBody) : b.afi < 65536 := by
  cases b with
  | routes f => cases f <;> simp [afi, Family.afi]
  | other _ _ _ hafi => exact hafi

/-- The header of a decoded family is known as it. -/
theorem family?_routes (f : Family) (hop : String) :
    MpHeader.family? ⟨f.afi, f.safi, hop⟩ = some f :=
  MpHeader.family?_eq_some.mpr ⟨rfl, rfl⟩

/-- The family says how the routes are to be read. -/
theorem ext_octets {b b' : MpBody} (hafi : b.afi = b'.afi) (hsafi : b.safi = b'.safi)
    (hnlri : b.nlri = b'.nlri) : b = b' := by
  -- both are of a decoded family, or neither is
  cases b with
  | routes f items =>
    cases b' with
    | routes f' items' =>
      have hf : some f = some f' := by
        rw [← family?_routes f "", ← family?_routes f' ""]
        exact congrArg₂ (fun a s => MpHeader.family? ⟨a, s, ""⟩) hafi hsafi
      obtain rfl := Option.some.inj hf
      rw [f.octets_injective hnlri]
    | other afi safi _ _ hother =>
      -- one family is decoded and the other is not
      have hnone := hother ""
      rw [← show f.afi = afi from hafi, ← show f.safi = safi from hsafi, family?_routes] at hnone
      cases hnone
  | other afi safi nlri _ hother =>
    cases b' with
    | routes f' =>
      have hnone := hother ""
      rw [show afi = f'.afi from hafi, show safi = f'.safi from hsafi, family?_routes] at hnone
      cases hnone
    | other afi' safi' nlri' =>
      obtain rfl : afi = afi' := hafi
      obtain rfl : safi = safi' := hsafi
      obtain rfl : nlri = nlri' := hnlri
      rfl

/-- The field that carries the routes, as they are decoded. -/
def place (nextHop : Option String) : MpBody → List (Family × List Json)
  | routes f items => [(f, items.map (f.itemJson nextHop))]
  | other _ _ _ _ _ => []

end MpBody

/-- A path attribute. -/
inductive Attr where
  /-- neither of the two below -/
  | plain (a : RawAttr) (hcode : a.code ≠ 14 ∧ a.code ≠ 15)
  /-- MP_REACH_NLRI -/
  | reach (flags : UInt8) (hop : Bytes) (reserved : UInt8) (body : MpBody) (hhop : hop.length < 256)
  /-- MP_UNREACH_NLRI -/
  | unreach (flags : UInt8) (body : MpBody)

namespace Attr

/-- The attribute as it stands in a message. -/
def raw : Attr → RawAttr
  | plain a _ => a
  | reach flags hop reserved body _ => ⟨flags, 14,
      u16ToBeBytes body.afi ++
        body.safi :: UInt8.ofNat hop.length :: (hop ++ reserved :: body.nlri)⟩
  | unreach flags body => ⟨flags, 15, u16ToBeBytes body.afi ++ body.safi :: body.nlri⟩

/-- The routes that the attribute announces. -/
def announced : Attr → List (Family × List Json)
  | reach _ hop _ body _ => body.place (some (nextHopString hop))
  | _ => []

/-- The routes that the attribute withdraws. -/
def withdrawn : Attr → List (Family × List Json)
  | unreach _ body => body.place none
  | _ => []

end Attr

/-- Two numbers of two octets have two encodings. -/
theorem u16ToBeBytes_inj {m n : ℕ} (hm : m < 65536) (hn : n < 65536)
    (h : u16ToBeBytes m = u16ToBeBytes n) : m = n := by
  have hread := u16At_append hm []
  rw [h, u16At_append hn] at hread
  exact (Prod.mk.inj (Except.ok.inj hread)).1.symm

/-- The header of MP_REACH_NLRI, octet by octet. -/
theorem mpHeader_reach_iff {data nlri : Bytes} {h : MpHeader} :
    mpHeader 14 data = .ok (h, nlri) ↔ ∃ (hop : Bytes) (reserved : UInt8), hop.length < 256 ∧
      h.afi < 65536 ∧ h.nextHop = nextHopString hop ∧ data = u16ToBeBytes h.afi ++
        h.safi :: UInt8.ofNat hop.length :: (hop ++ reserved :: nlri) := by
  unfold mpHeader
  simp only [if_true, Reader.bind_eq_ok_iff]
  constructor
  · rintro ⟨⟨afi, d₁⟩, hafi, ⟨safi, d₂⟩, hsafi, ⟨n, d₃⟩, hn, ⟨hop, d₄⟩, hhop, ⟨res, d₅⟩, hres, hr⟩
    obtain ⟨_, ⟨hlt, rfl⟩, rfl⟩ := (u16At_exact _ _ _).mp hafi
    obtain rfl := byteAt_ok_iff.mp hsafi
    obtain rfl := byteAt_ok_iff.mp hn
    obtain ⟨rfl, hlen⟩ := take_ok_iff.mp hhop
    obtain ⟨rfl, hone⟩ := take_ok_iff.mp hres
    -- the reserved octet is passed over, whatever it is
    obtain ⟨reserved, rfl⟩ := List.length_eq_one_iff.mp hone
    obtain ⟨rfl, rfl⟩ := Prod.mk.inj (Except.ok.inj hr)
    refine ⟨hop, reserved, hlen ▸ n.toNat_lt, hlt, rfl, ?_⟩
    rw [hlen, UInt8.ofNat_toNat]
    rfl
  · rintro ⟨hop, reserved, hlen, hlt, hhop, rfl⟩
    -- the length of the hop fits in its octet
    have hn : (UInt8.ofNat hop.length).toNat = hop.length := by
      rw [UInt8.toNat_ofNat', Nat.mod_eq_of_lt hlen]
    refine ⟨_, u16At_append hlt _, _, byteAt_ok_iff.mpr rfl, _, byteAt_ok_iff.mpr rfl,
      (hop, reserved :: nlri), ?_, ([reserved], nlri), take_append [reserved] nlri, ?_⟩
    · dsimp only
      rw [hn]
      exact take_append hop _
    · rw [← hhop]
      rfl

/-- The header of MP_UNREACH_NLRI, octet by octet. -/
theorem mpHeader_unreach_iff {data nlri : Bytes} {h : MpHeader} :
    mpHeader 15 data = .ok (h, nlri) ↔
      h.afi < 65536 ∧ h.nextHop = "" ∧ data = u16ToBeBytes h.afi ++ h.safi :: nlri := by
  unfold mpHeader
  simp only [if_neg (show (15 : UInt8) ≠ 14 by decide), Reader.bind_eq_ok_iff]
  constructor
  · rintro ⟨⟨afi, d₁⟩, hafi, ⟨safi, d₂⟩, hsafi, hr⟩
    obtain ⟨_, ⟨hlt, rfl⟩, rfl⟩ := (u16At_exact _ _ _).mp hafi
    obtain rfl := byteAt_ok_iff.mp hsafi
    obtain ⟨rfl, rfl⟩ := Prod.mk.inj (Except.ok.inj hr)
    exact ⟨hlt, rfl, rfl⟩
  · rintro ⟨hlt, hhop, rfl⟩
    refine ⟨_, u16At_append hlt _, _, byteAt_ok_iff.mpr rfl, ?_⟩
    rw [← hhop]
    rfl

/-- The source of an attribute whose header is read. -/
theorem mpSource_of_header {code : UInt8} {a : RawAttr} {h : MpHeader} {nlri : Bytes}
    (hcode : a.code = code) (hp : mpHeader code a.data = .ok (h, nlri)) :
    mpSource code a
      = h.family?.map fun f => ⟨f, nlri, if code = 14 then some h.nextHop else none⟩ := by
  rw [mpSource, if_pos hcode, hp]

/-- The attribute is taken, as far as that depends on the attribute. -/
def RawAttr.Taken (a : RawAttr) : Prop :=
  a.Headed ∧ ∀ code, code = 14 ∨ code = 15 → ∀ s ∈ mpSource code a, ∃ routes, s.decoded = .ok routes

namespace MpBody

/-- The header of the body, with a next hop. -/
def header (b : MpBody) (nextHop : String) : MpHeader := ⟨b.afi, b.safi, nextHop⟩

/-- A header is known as a decoded family exactly when its attribute has items of one. -/
theorem family?_header (b : MpBody) (nextHop : String) :
    (b.header nextHop).family? = match b with | routes f _ => some f | other .. => none := by
  cases b with
  | routes f => exact family?_routes f nextHop
  | other _ _ _ _ hother => exact hother nextHop

/-- Behind a header there is a body, if its routes are decoded. -/
theorem exists_of_decoded {h : MpHeader} {data : Bytes} {nextHop : Option String}
    (hafi : h.afi < 65536)
    (hd : ∀ f, h.family? = some f → ∃ routes, Source.decoded ⟨f, data, nextHop⟩ = .ok routes) :
    ∃ b : MpBody, b.afi = h.afi ∧ b.safi = h.safi ∧ b.nlri = data := by
  cases hf : h.family? with
  | none => exact ⟨.other h.afi h.safi data hafi fun _ => hf, rfl, rfl, rfl⟩
  | some f =>
    obtain ⟨routes, hr⟩ := hd f hf
    obtain ⟨items, rfl, -⟩ := Family.decoded_iff.mp hr
    obtain ⟨ha, hs⟩ := MpHeader.family?_eq_some.mp hf
    exact ⟨.routes f items, ha.symm, hs.symm, rfl⟩

end MpBody

namespace Attr

/-- The header that is read from an MP_REACH_NLRI of the grammar. -/
theorem mpHeader_raw_reach (flags : UInt8) {hop : Bytes} (reserved : UInt8) (body : MpBody)
    (hhop : hop.length < 256) :
    mpHeader 14 (reach flags hop reserved body hhop).raw.data
      = .ok (body.header (nextHopString hop), body.nlri) :=
  mpHeader_reach_iff.mpr ⟨hop, reserved, hhop, body.afi_lt, rfl, rfl⟩

/-- The header that is read from an MP_UNREACH_NLRI of the grammar. -/
theorem mpHeader_raw_unreach (flags : UInt8) (body : MpBody) :
    mpHeader 15 (unreach flags body).raw.data = .ok (body.header "", body.nlri) :=
  mpHeader_unreach_iff.mpr ⟨body.afi_lt, rfl, rfl⟩

/-- The source of an attribute of the given code. -/
def source (code : UInt8) : Attr → Option Source
  | plain _ _ => none
  | reach _ hop _ (.routes f items) _ =>
    if code = 14 then some ⟨f, f.octets items, some (nextHopString hop)⟩ else none
  | unreach _ (.routes f items) => if code = 15 then some ⟨f, f.octets items, none⟩ else none
  | _ => none

/-- The source that is read from an attribute is the one that the grammar says. -/
theorem mpSource_raw {code : UInt8} (hcode : code = 14 ∨ code = 15) (a : Attr) :
    mpSource code a.raw = a.source code := by
  -- an attribute is a source of its own code only
  cases a with
  | plain a h =>
    refine if_neg fun heq => ?_
    rcases hcode with rfl | rfl
    · exact h.1 heq
    · exact h.2 heq
  | reach flags hop reserved body hhop =>
    rcases hcode with rfl | rfl
    · have hcode : (reach flags hop reserved body hhop).raw.code = 14 := rfl
      rw [mpSource_of_header hcode (mpHeader_raw_reach flags reserved body hhop),
        MpBody.family?_header]
      cases body <;> rfl
    · rw [mpSource, if_neg (by simp [raw])]
      cases body <;> rfl
  | unreach flags body =>
    rcases hcode with rfl | rfl
    · rw [mpSource, if_neg (by simp [raw])]
      cases body <;> rfl
    · have hcode : (unreach flags body).raw.code = 15 := rfl
      rw [mpSource_of_header hcode (mpHeader_raw_unreach flags body), MpBody.family?_header]
      cases body <;> rfl

/-- Every attribute of the grammar is taken. -/
theorem taken_raw (a : Attr) : a.raw.Taken := by
  constructor
  · intro hcode
    cases a with
    | plain a h => exact absurd hcode (not_or.mpr h)
    | reach => exact ⟨_, mpHeader_raw_reach _ _ _ _⟩
    | unreach => exact ⟨_, mpHeader_raw_unreach _ _⟩
  · intro code hcode s hs
    -- a family that is not decoded is no source
    rw [mpSource_raw hcode] at hs
    cases a with
    | plain => cases hs
    | reach _ _ _ body =>
      cases body with
      | other => cases hs
      | routes f items =>
        obtain rfl := Option.some.inj (Option.ite_none_right_eq_some.mp hs).2
        exact ⟨_, Family.decoded_iff.mpr ⟨items, rfl, rfl⟩⟩
    | unreach _ body =>
      cases body with
      | other => cases hs
      | routes f items =>
        obtain rfl := Option.some.inj (Option.ite_none_right_eq_some.mp hs).2
        exact ⟨_, Family.decoded_iff.mpr ⟨items, rfl, rfl⟩⟩

/-- **What an attribute is**, when it is taken. -/
theorem taken_iff {a : RawAttr} : a.Taken ↔ ∃ x : Attr, x.raw = a := by
  constructor
  · rintro ⟨hheaded, hd⟩
    obtain ⟨flags, code, data⟩ := a
    by_cases hcode : code = 14 ∨ code = 15
    · obtain ⟨⟨h, nlri⟩, hp⟩ := hheaded hcode
      -- the routes of a decoded family have been decoded
      have hdecoded : ∀ f, h.family? = some f → ∃ routes,
          Source.decoded ⟨f, nlri, if code = 14 then some h.nextHop else none⟩ = .ok routes := by
        intro f hf
        refine hd code hcode _ ?_
        rw [mpSource_of_header rfl hp, hf, Option.map_some]
        rfl
      -- the header says which attribute it is, and its rest is the body
      rcases hcode with rfl | rfl
      · obtain ⟨hop, reserved, hlen, hafi, -, rfl⟩ := mpHeader_reach_iff.mp hp
        obtain ⟨body, ha, hs, rfl⟩ := MpBody.exists_of_decoded hafi hdecoded
        exact ⟨.reach flags hop reserved body hlen, by rw [raw, ha, hs]⟩
      · obtain ⟨hafi, -, rfl⟩ := mpHeader_unreach_iff.mp hp
        obtain ⟨body, ha, hs, rfl⟩ := MpBody.exists_of_decoded hafi hdecoded
        exact ⟨.unreach flags body, by rw [raw, ha, hs]⟩
    · exact ⟨.plain ⟨flags, code, data⟩ (not_or.mp hcode), rfl⟩
  · rintro ⟨x, rfl⟩
    exact x.taken_raw

/-- Two attributes are written in two ways. -/
theorem raw_injective : Function.Injective raw := by
  intro x y h
  have hcode := congrArg RawAttr.code h
  have hflags := congrArg RawAttr.flags h
  have hdata := congrArg RawAttr.data h
  -- by kind of attribute, which the code tells
  cases x with
  | plain a ha =>
    cases y with
    | plain b hb =>
      obtain rfl : a = b := h
      rfl
    | reach => exact absurd hcode ha.1
    | unreach => exact absurd hcode ha.2
  | reach flags hop reserved body hhop =>
    cases y with
    | plain b hb => exact absurd hcode.symm hb.1
    | reach flags' hop' reserved' body' hhop' =>
      obtain rfl : flags = flags' := hflags
      -- the header is read in one way
      obtain ⟨hafi, htail⟩ := List.append_inj hdata rfl
      obtain ⟨hsafi, htail⟩ := List.cons.inj htail
      obtain ⟨hlen, htail⟩ := List.cons.inj htail
      have hlengths : hop.length = hop'.length := by
        have htoNat := congrArg UInt8.toNat hlen
        rwa [UInt8.toNat_ofNat', UInt8.toNat_ofNat', Nat.mod_eq_of_lt hhop,
          Nat.mod_eq_of_lt hhop'] at htoNat
      obtain ⟨rfl, hlast⟩ := List.append_inj htail hlengths
      obtain ⟨rfl, hnlri⟩ := List.cons.inj hlast
      have hafi := u16ToBeBytes_inj body.afi_lt body'.afi_lt hafi
      rw [MpBody.ext_octets hafi hsafi hnlri]
    | unreach => exact absurd hcode (by simp [raw])
  | unreach flags body =>
    cases y with
    | plain b hb => exact absurd hcode.symm hb.2
    | reach => exact absurd hcode (by simp [raw])
    | unreach flags' body' =>
      obtain rfl : flags = flags' := hflags
      obtain ⟨hafi, htail⟩ := List.append_inj hdata rfl
      obtain ⟨hsafi, hnlri⟩ := List.cons.inj htail
      have hafi := u16ToBeBytes_inj body.afi_lt body'.afi_lt hafi
      rw [MpBody.ext_octets hafi hsafi hnlri]

end Attr

/-! ### The classic fields -/

/-- The routes of a classic field. -/
def classicPlace (ps : List (RawPrefix 1)) (nextHop : Option String) :
    List (Family × List Json) :=
  if ps = [] then [] else [(.ipv4Unicast, ps.map fun p => routeJson p.text nextHop)]

theorem map_classicSource (ps : List (RawPrefix 1)) (nextHop : Option String) :
    (classicSource (ps.flatMap RawPrefix.octets) nextHop).map (fun s => (s.family, s.routes))
      = classicPlace ps nextHop := by
  unfold classicSource classicPlace
  by_cases hps : ps = []
  · rw [if_pos (PlainUpdate.flatMap_octets_eq_nil_iff.mpr hps), if_pos hps]
    rfl
  · have hdecoded : Source.decoded ⟨.ipv4Unicast, ps.flatMap RawPrefix.octets, nextHop⟩
        = .ok (ps.map fun p => routeJson p.text nextHop) :=
      (unicast_ok_iff_prefixes (Or.inl rfl)).mpr ⟨ps, rfl, rfl⟩
    rw [if_neg fun h => hps (PlainUpdate.flatMap_octets_eq_nil_iff.mp h), if_neg hps]
    change [(Family.ipv4Unicast, Source.routes _)] = _
    rw [Source.routes_of_decoded hdecoded]

theorem decoded_classicSource (ps : List (RawPrefix 1)) (nextHop : Option String) :
    ∀ s ∈ classicSource (ps.flatMap RawPrefix.octets) nextHop,
      ∃ routes, s.decoded = .ok routes := by
  intro s hs
  unfold classicSource at hs
  split_ifs at hs with hnil
  · cases hs
  · rw [List.mem_singleton.mp hs]
    exact ⟨_, (unicast_ok_iff_prefixes (Or.inl rfl)).mpr ⟨ps, rfl, rfl⟩⟩

/-- A classic field whose routes are decoded is a list of prefixes. -/
theorem exists_prefixes {octets : Bytes} {nextHop : Option String}
    (h : ∀ s ∈ classicSource octets nextHop, ∃ routes, s.decoded = .ok routes) :
    ∃ ps : List (RawPrefix 1), ps.flatMap RawPrefix.octets = octets := by
  by_cases hnil : octets = []
  · exact ⟨[], hnil.symm⟩
  · obtain ⟨routes, hr⟩ := h ⟨.ipv4Unicast, octets, nextHop⟩ (by simp [classicSource, hnil])
    obtain ⟨ps, hps, -⟩ := (unicast_ok_iff_prefixes (Or.inl rfl)).mp hr
    exact ⟨ps, hps.symm⟩

/-! ### What is stored -/

/-- The routes of some fields by the labels of their families: those of a field take the place of
those of an earlier one. -/
def grouped (places : List (Family × List Json)) : Json :=
  .obj (places.foldl (fun groups p => Entries.insert p.1.label (.arr p.2) groups) [])

/-- What is stored of some sources is what is grouped of their routes. -/
theorem store_eq_grouped (sources : List Source) :
    Json.obj (store [] sources) = grouped (sources.map fun s => (s.family, s.routes)) := by
  rw [grouped, List.foldl_map]
  rfl

theorem map_source_announced (a : Attr) :
    (a.source 14).toList.map (fun s => (s.family, s.routes)) = a.announced := by
  cases a with
  | reach _ hop _ body =>
    cases body with
    | routes f items =>
      have hdecoded : Source.decoded ⟨f, f.octets items, some (nextHopString hop)⟩ = .ok _ :=
        Family.decoded_iff.mpr ⟨items, rfl, rfl⟩
      change [(f, Source.routes _)] = [(f, _)]
      rw [Source.routes_of_decoded hdecoded]
    | other => rfl
  | plain => rfl
  | unreach _ body => cases body <;> rfl

theorem map_source_withdrawn (a : Attr) :
    (a.source 15).toList.map (fun s => (s.family, s.routes)) = a.withdrawn := by
  cases a with
  | unreach _ body =>
    cases body with
    | routes f items =>
      have hdecoded : Source.decoded ⟨f, f.octets items, none⟩ = .ok _ :=
        Family.decoded_iff.mpr ⟨items, rfl, rfl⟩
      change [(f, Source.routes _)] = [(f, _)]
      rw [Source.routes_of_decoded hdecoded]
    | other => rfl
  | plain => rfl
  | reach _ _ _ body => cases body <;> rfl

/-- The sources of the attributes of one code. -/
theorem map_filterMap_mpSource {code : UInt8} (hcode : code = 14 ∨ code = 15)
    {places : Attr → List (Family × List Json)}
    (hplaces : ∀ a, (a.source code).toList.map (fun s => (s.family, s.routes)) = places a)
    (attrs : List Attr) :
    ((attrs.map Attr.raw).filterMap (mpSource code)).map (fun s => (s.family, s.routes))
      = attrs.flatMap places := by
  induction attrs with
  | nil => rfl
  | cons a attrs ih =>
    rw [List.map_cons, List.flatMap_cons, ← ih, ← hplaces a, ← Attr.mpSource_raw hcode,
      List.filterMap_cons]
    cases mpSource code a.raw <;> rfl

/-! ### The loop over the attributes -/

/-- An accepted body has a state of its walk, which is reported. -/
theorem exists_acc {body : Bytes} {asnLen : ℕ} {u : Json} (h : update body asnLen = .ok u) :
    ∃ acc, parseUpdate body asnLen = .ok acc ∧ acc.toJson = u := by
  unfold update at h
  cases hp : parseUpdate body asnLen with
  | error e =>
    rw [hp] at h
    cases h
  | ok acc =>
    rw [hp] at h
    exact ⟨acc, rfl, Except.ok.inj h⟩

/-- An attribute that the loop gets behind is taken. -/
theorem taken_of_attrStep {asnLen : ℕ} {acc acc' : UpdateAcc} {a : RawAttr}
    (h : attrStep asnLen acc a = .ok acc') : a.Taken := by
  obtain ⟨-, -, -, h₁, h₂⟩ := attrStep_ok h
  refine ⟨fun hcode => ?_, ?_⟩
  · -- the step of an MP attribute begins with its header
    unfold attrStep at h
    simp only [Reader.bind_eq_ok_iff, if_pos hcode] at h
    obtain ⟨_, h, -⟩ := h
    unfold mpStep at h
    simp only [Reader.bind_eq_ok_iff] at h
    obtain ⟨p, hp, -⟩ := h
    exact ⟨p, hp⟩
  · rintro code (rfl | rfl)
    · exact h₁
    · exact h₂

/-- In a walk that goes through, every attribute was taken. -/
theorem taken_of_foldlM {asnLen : ℕ} {attrs : List RawAttr} {acc walked : UpdateAcc}
    (h : attrs.foldlM (attrStep asnLen) acc = .ok walked) : ∀ a ∈ attrs, a.Taken := by
  induction attrs generalizing acc with
  | nil => simp
  | cons a attrs ih =>
    rw [List.foldlM_cons, Reader.bind_eq_ok_iff] at h
    obtain ⟨acc₁, hs, h⟩ := h
    exact List.forall_mem_cons.mpr ⟨taken_of_attrStep hs, ih h⟩

/-! ### The message -/

/-- The content of an UPDATE. -/
structure UpdateMessage where
  withdrawn : List (RawPrefix 1)
  attrs : List Attr
  nlri : List (RawPrefix 1)

namespace UpdateMessage

/-- The message with its attributes as they stand in it. -/
def raw (m : UpdateMessage) : RawUpdate where
  withdrawn := m.withdrawn.flatMap RawPrefix.octets
  attrs := m.attrs.map Attr.raw
  nlri := m.nlri.flatMap RawPrefix.octets

/-- The octets of the UPDATE. -/
def Enc (m : UpdateMessage) (body : Bytes) : Prop := m.raw.Enc body

/-- The fields that announce routes, in the order in which they are met. -/
def announced (m : UpdateMessage) : List (Family × List Json) :=
  m.attrs.flatMap Attr.announced ++ classicPlace m.nlri (some m.raw.nextHop)

/-- The fields that withdraw routes. -/
def unreachable (m : UpdateMessage) : List (Family × List Json) :=
  m.attrs.flatMap Attr.withdrawn ++ classicPlace m.withdrawn none

/-- What is reported of the routes of the UPDATE. -/
structure Reported (m : UpdateMessage) (u : Json) : Prop where
  announce : u.index "announce" = grouped m.announced
  withdraw : u.index "withdraw" = grouped m.unreachable

/-- Two messages are written in two ways. -/
theorem raw_injective : Function.Injective raw := by
  intro m m' h
  obtain ⟨hw, ha, hn⟩ := RawUpdate.mk.inj h
  obtain ⟨w, as, n⟩ := m
  obtain ⟨w', as', n'⟩ := m'
  obtain rfl := flatMap_octets_inj hw
  obtain rfl := Attr.raw_injective.list_map ha
  obtain rfl := flatMap_octets_inj hn
  rfl

/-! ### What is reported of it -/

/-- The announced sources are those of the grammar. -/
theorem map_announceSources (m : UpdateMessage) :
    m.raw.announceSources.map (fun s => (s.family, s.routes)) = m.announced := by
  rw [RawUpdate.announceSources, List.map_append]
  exact congrArg₂ (· ++ ·) (map_filterMap_mpSource (Or.inl rfl) map_source_announced m.attrs)
    (map_classicSource m.nlri _)

/-- The withdrawn sources are those of the grammar. -/
theorem map_withdrawSources (m : UpdateMessage) :
    m.raw.withdrawSources.map (fun s => (s.family, s.routes)) = m.unreachable := by
  rw [RawUpdate.withdrawSources, List.map_append]
  exact congrArg₂ (· ++ ·) (map_filterMap_mpSource (Or.inr rfl) map_source_withdrawn m.attrs)
    (map_classicSource m.withdrawn _)

/-! ### What is taken -/

/-- **Nothing else is taken.** -/
theorem exists_enc {body : Bytes} {asnLen : ℕ} {u : Json} (h : update body asnLen = .ok u) :
    ∃ m : UpdateMessage, m.Enc body := by
  obtain ⟨acc, hacc, -⟩ := exists_acc h
  obtain ⟨-, r, henc, walked, hwalk, acc₁, hw, ha⟩ := parseUpdate_ok_iff.mp hacc
  -- the classic fields are lists of prefixes
  obtain ⟨ws, hws⟩ := exists_prefixes (classicWithdraw_ok hw).2
  obtain ⟨ns, hns⟩ := exists_prefixes (classicAnnounce_ok ha).2
  -- and every attribute is one that is taken
  have hattrs : r.attrs ∈ Set.range (List.map Attr.raw) := by
    rw [Set.range_list_map]
    exact fun a ha => Attr.taken_iff.mp (taken_of_foldlM hwalk a ha)
  obtain ⟨attrs, hattrs⟩ := hattrs
  refine ⟨⟨ws, attrs, ns⟩, ?_⟩
  change RawUpdate.Enc ⟨_, _, _⟩ body
  rw [hws, hattrs, hns]
  exact henc

/-- **Every message is taken**, and its routes are reported. -/
theorem Enc.reported {m : UpdateMessage} {body : Bytes} (h : m.Enc body) {asnLen : ℕ}
    (hasn : asnLen = 2 ∨ asnLen = 4) : ∃ u, update body asnLen = .ok u ∧ m.Reported u := by
  have hattrs : ∀ a ∈ m.raw.attrs, a.Taken := by
    intro a ha
    obtain ⟨x, -, rfl⟩ := List.mem_map.mp ha
    exact x.taken_raw
  -- the sources of the attributes have been decoded, since the attributes are of the grammar
  have hsources : ∀ code, code = 14 ∨ code = 15 → ∀ s ∈ m.raw.attrs.filterMap (mpSource code),
      ∃ routes, s.decoded = .ok routes := by
    intro code hcode s hs
    obtain ⟨a, ha, hs⟩ := List.mem_filterMap.mp hs
    exact (hattrs a ha).2 code hcode s hs
  obtain ⟨u, hu⟩ := RawUpdate.Enc.taken h (fun a ha => (hattrs a ha).1)
    (fun s hs => (List.mem_append.mp hs).elim (hsources 14 (Or.inl rfl) s)
      (decoded_classicSource m.nlri _ s))
    (fun s hs => (List.mem_append.mp hs).elim (hsources 15 (Or.inr rfl) s)
      (decoded_classicSource m.withdrawn _ s)) hasn
  refine ⟨u, hu, ?_⟩
  obtain ⟨acc, hacc, rfl⟩ := exists_acc hu
  obtain ⟨r, hr, hannounce, hwithdraw, -⟩ := parseUpdate_ok hacc
  -- the octets are of one UPDATE only
  obtain rfl : r = m.raw := hr.unique h
  constructor
  · rw [index_announce_toJson, hannounce, store_eq_grouped, map_announceSources]
  · rw [index_withdraw_toJson, hwithdraw, store_eq_grouped, map_withdrawSources]

end UpdateMessage

/-- **The grammar of an UPDATE**: what is written in it can be read back, a body is written in
one way only, and `update` takes nothing else. -/
theorem update_grammar {asnLen : ℕ} (hasn : asnLen = 2 ∨ asnLen = 4) (body : Bytes) :
    (∀ m : UpdateMessage, m.Enc body → ∃ u, update body asnLen = .ok u ∧ m.Reported u) ∧
      ∀ u, update body asnLen = .ok u → ∃! m : UpdateMessage, m.Enc body := by
  refine ⟨fun m h => h.reported hasn, fun u h => ?_⟩
  obtain ⟨m, hm⟩ := UpdateMessage.exists_enc h
  exact ⟨m, hm, fun m' hm' => UpdateMessage.raw_injective (hm'.unique hm)⟩

/-- It withdraws an IPv4 prefix in the classic field and a FlowSpec rule, whose length is in two
octets, and announces an IPv6 prefix. -/
def sampleMessage : UpdateMessage where
  withdrawn := [⟨16, [10, 2], by decide, rfl⟩]
  attrs := [.reach 0x80 (List.replicate 16 0xFE) 0
      (.routes .ipv6Unicast [(⟨32, [0x20, 0x01, 0x0D, 0xB8], by decide, rfl⟩ : RawPrefix 2)])
      (by decide),
    .unreach 0x80 (.routes .ipv4Flowspec [(⟨true, sampleRule.components, by
      intro c hc
      rcases List.mem_pair.mp hc with rfl | rfl
      · exact ⟨Or.inl rfl, by decide, rfl⟩
      · exact ⟨by decide, ⟨[], _, rfl, by decide, by simp⟩, by decide⟩, by decide⟩ : RawFlow 1)])]
  nlri := []

/-- It holds of its octets. -/
theorem update_grammar_sample : ∃ u, update sampleMessage.raw.octets 4 = .ok u ∧
    sampleMessage.Reported u ∧ ∃! m : UpdateMessage, m.Enc sampleMessage.raw.octets := by
  obtain ⟨htaken, hunique⟩ := update_grammar (Or.inr rfl) sampleMessage.raw.octets
  obtain ⟨u, hu, hreported⟩ := htaken sampleMessage (RawUpdate.enc_octets (by decide))
  exact ⟨u, hu, hreported, hunique u hu⟩

end Wire
