import BgpReceiver.Framework.Bits
import BgpReceiver.Wire.Rules

/-!
# FlowSpec rules and their encoding

What becomes of the components of a rule between the octets and the report.

The report is an object with a member for each type, so the components of a rule are all
in it exactly when no two of them have one type. `components` takes rules with a repeated
type as well, and of the components of one type the last is reported alone
(`components_complete_iff`).

The reference encoding (`Rule.octets`) writes the components of a rule one after the other
behind their length, in one octet below 240 and in two from there on. `flowspec` takes back
every list of rules that is encoded like this, with all its components, and it refuses the
octets when they are cut inside a rule (`flowspec_reference`). Both follow from what it
does to a single rule (`flowspecRule_inverts`).
-/

namespace Wire

/-! ### The members of a report -/

theorem object_eq_ofList (fields : List (String × Json)) :
    Json.object fields = .obj (Entries.ofList fields) := rfl

/-- No component is dropped: there is a member for each of them, with its prefix or with
all its terms. -/
structure Complete (afi : ℕ) (cs : List RawComponent) (v : Json) : Prop where
  count : ∃ fields, v = .obj fields ∧ fields.length = cs.length
  member : ∀ c ∈ cs, v.get (componentKey c.kind afi) = some (c.json afi)
  terms : ∀ c ∈ cs, ∀ ts, c.value = .terms ts →
    ∃ shown, v.get (componentKey c.kind afi) = some (.arr shown) ∧ shown.length = ts.length

/-- The keys of the reported components are those of their types. -/
theorem keys_member (afi : ℕ) (cs : List RawComponent) :
    (cs.map (RawComponent.member afi)).map Prod.fst
      = cs.map fun c => componentKey c.kind afi := by
  rw [List.map_map]
  rfl

/-- The keys of the members repeat exactly as the types do. -/
theorem nodup_keys_iff (afi : ℕ) (cs : List RawComponent) :
    ((cs.map (RawComponent.member afi)).map Prod.fst).Nodup
      ↔ (cs.map RawComponent.kind).Nodup := by
  have hcomp : (cs.map fun c => componentKey c.kind afi)
      = (cs.map RawComponent.kind).map fun kind => componentKey kind afi := by
    rw [List.map_map]
    rfl
  rw [keys_member, hcomp]
  exact List.nodup_map_iff fun _ _ h => componentKey_inj h

/-- A component that is the only one of its type is reported. -/
theorem get_of_nodup {afi : ℕ} {cs : List RawComponent} (hnodup : (cs.map RawComponent.kind).Nodup)
    {c : RawComponent} (hc : c ∈ cs) :
    (Json.object (cs.map (RawComponent.member afi))).get (componentKey c.kind afi)
      = some (c.json afi) := by
  have hof : ofKind c.kind cs = [c] := by
    -- another component of the type would be the same one
    have hall : ∀ d ∈ ofKind c.kind cs, d = c := by
      intro d hd
      obtain ⟨hmem, hkind⟩ := List.mem_filter.mp hd
      exact List.inj_on_of_nodup_map hnodup hmem hc (of_decide_eq_true hkind)
    have hone : (ofKind c.kind cs).Nodup := (List.Nodup.of_map _ hnodup).filter _
    have hin : c ∈ ofKind c.kind cs := List.mem_filter.mpr ⟨hc, by simp⟩
    -- so the list is as many copies of it as a list without repetitions may have
    rw [List.eq_replicate_of_mem hall] at hone hin ⊢
    have hle := List.nodup_replicate.mp hone
    have hpos := List.length_pos_of_mem hin
    rw [List.length_replicate] at hpos
    rw [show (ofKind c.kind cs).length = 1 by omega]
    rfl
  rw [Json.get_object, find_member, hof]
  rfl

/-- **When no component of a rule is dropped**: when no two of them have one type. -/
theorem components_complete_iff {afi : ℕ} (hafi : afi = 1 ∨ afi = 2) {n : Bytes} {v : Json}
    (h : components n afi = .ok v) :
    ∃ cs, rawRule n afi = .ok cs ∧
      (Complete afi cs v ↔ (cs.map RawComponent.kind).Nodup) := by
  obtain ⟨cs, hcs, rfl⟩ := (components_ok_iff_rawRule hafi).mp h
  refine ⟨cs, hcs, fun hall => ?_, fun hnodup => ?_⟩
  · -- a repeated type would leave fewer members than components
    obtain ⟨fields, hfields, hlen⟩ := hall.count
    rw [object_eq_ofList] at hfields
    obtain rfl := Json.obj.inj hfields
    rw [← nodup_keys_iff afi, ← Entries.length_ofList_eq_iff, hlen, List.length_map]
  · refine ⟨⟨_, object_eq_ofList _, ?_⟩, fun c hc => get_of_nodup hnodup hc,
      fun c hc ts hts => ⟨ts.map fun t => .str (termText c.kind t.op t.operand), ?_, ?_⟩⟩
    · rw [Entries.length_ofList_eq_iff.mpr ((nodup_keys_iff afi cs).mpr hnodup), List.length_map]
    · rw [get_of_nodup hnodup hc, RawComponent.json, hts]
      simp only [texts, List.map_map]
      rfl
    · rw [List.length_map]

/-- It holds of a rule with a protocol and two conditions on the port. -/
theorem components_complete_iff_ports :
    ∃ cs, rawRule [3, 0x81, 6, 5, 0x13, 4, 0, 0x95, 255, 255] 1 = .ok cs ∧
      (Complete 1 cs (.object [("ip-proto", texts ["=tcp(6)"]),
        ("dst-port", texts [">=1024", "<=65535"])]) ↔ (cs.map RawComponent.kind).Nodup) :=
  components_complete_iff (Or.inl rfl) (by decide)

/-- A rule with two protocols is reported with the second alone. -/
theorem components_repeated :
    ∃ cs v, components [3, 0x81, 6, 3, 0x81, 17] 1 = .ok v ∧
      rawRule [3, 0x81, 6, 3, 0x81, 17] 1 = .ok cs ∧ cs.length = 2 ∧ ¬ Complete 1 cs v := by
  refine ⟨[⟨3, .terms [⟨0x81, [6]⟩]⟩, ⟨3, .terms [⟨0x81, [17]⟩]⟩],
    .obj [("ip-proto", texts ["=udp(17)"])], by decide, by decide +kernel, rfl, ?_⟩
  intro hall
  obtain ⟨fields, hfields, hlen⟩ := hall.count
  obtain rfl := Json.obj.inj hfields
  exact absurd hlen (by decide)

/-! ### The reference encoding -/

/-- The octets of a term. -/
def RawTerm.octets (t : RawTerm) : Bytes := t.op :: t.operand

/-- The octets of a value: a prefix, or the terms one after the other. -/
def RawValue.octets : RawValue → Bytes
  | .pfx len raw => len :: raw
  | .terms ts => ts.flatMap RawTerm.octets

/-- The octets of a component. -/
def RawComponent.octets (c : RawComponent) : Bytes := c.kind :: c.value.octets

/-- The terms of a component, with the end bit on the last of them only. -/
structure Delimited (ts : List RawTerm) : Prop where
  last : ∃ front last, ts = front ++ [last] ∧ opEnd last.op = true ∧ ∀ t ∈ front, opEnd t.op = false
  operands : ∀ t ∈ ts, t.operand.length = opLen t.op

/-- A component as the reference encoder takes it. Prefixes are IPv4 prefixes without a bit
behind their length. -/
def RawComponent.Regular (afi : ℕ) (c : RawComponent) : Prop :=
  match c.value with
  | .pfx len raw => afi = 1 ∧ (c.kind = 1 ∨ c.kind = 2) ∧ len.toNat ≤ 32 ∧
      raw.length = divCeil8 len.toNat ∧ ∀ i, len.toNat ≤ i → Bits.bitAt raw i = false
  | .terms ts => ¬ (c.kind = 1 ∨ c.kind = 2) ∧ Delimited ts

/-- A rule as the reference encoder takes it. -/
structure Rule (afi : ℕ) where
  components : List RawComponent
  distinct : (components.map RawComponent.kind).Nodup
  regular : ∀ c ∈ components, c.Regular afi
  size : (components.flatMap RawComponent.octets).length ≤ 4095

/-- The length of a rule: one octet below 240, and two octets that begin with the bits
`1111` from there on. -/
def lengthOctets (n : ℕ) : Bytes :=
  if n < 240 then [UInt8.ofNat n] else [UInt8.ofNat (0xF0 + n / 256), UInt8.ofNat (n % 256)]

namespace Rule

variable {afi : ℕ}

/-- The octets of the components of a rule. -/
def body (rule : Rule afi) : Bytes := rule.components.flatMap RawComponent.octets

/-- The octets of a rule, with the shortest length that it fits into. -/
def octets (rule : Rule afi) : Bytes := lengthOctets rule.body.length ++ rule.body

theorem length_body_le (rule : Rule afi) : rule.body.length ≤ 4095 := rule.size

end Rule

/-- The text of a term: the symbol of its operator, and its operand as a number. -/
def RawTerm.shown (kind : UInt8) (t : RawTerm) : String :=
  if isBitmask kind then
    formatBitmaskValue kind (decodeBitmaskOp t.op).symbol (fromBeBytes t.operand)
  else (decodeOp t.op).symbol ++ formatNumericValue kind (fromBeBytes t.operand)

/-- What a component says: its prefix, or its terms in order. -/
def RawComponent.shown (c : RawComponent) : Json :=
  match c.value with
  | .pfx len raw => .str (IpAddr.ipv4Text (padTo 4 raw) ++ "/" ++ Nat.repr len.toNat)
  | .terms ts => texts (ts.map (RawTerm.shown c.kind))

/-- The report of a rule: one member for each component, and no other. -/
structure Shows {afi : ℕ} (rule : Rule afi) (v : Json) : Prop where
  keys : ∃ fields, v = .obj fields ∧ (fields.map Prod.fst).Nodup ∧
    (fields.map Prod.fst).Perm (rule.components.map fun c => componentKey c.kind afi)
  values : ∀ c ∈ rule.components, v.get (componentKey c.kind afi) = some c.shown

/-! ### Reading one rule back -/

/-- A term is read from in front of anything. -/
theorem rawTerm_octets {t : RawTerm} (h : t.operand.length = opLen t.op) (rest : Bytes) :
    rawTerm (t.octets ++ rest) = .ok ((t, opEnd t.op), rest) :=
  rawTerm_ok_iff.mpr ⟨rfl, h, rfl⟩

/-- The terms of a component end where the end bit is. -/
theorem untilLast_octets {ts : List RawTerm} (h : Delimited ts) (rest : Bytes) :
    Reader.UntilLast rawTerm (ts.flatMap RawTerm.octets ++ rest) ts rest := by
  obtain ⟨⟨front, last, rfl, hlast, hfront⟩, hlen⟩ := h
  -- on the terms before the last, none of which has the end bit
  induction front with
  | nil =>
    have hread := rawTerm_octets (hlen last List.mem_cons_self) rest
    rw [hlast] at hread
    rw [List.nil_append, List.flatMap_singleton]
    exact .last hread
  | cons t front ih =>
    have hread := rawTerm_octets (hlen t List.mem_cons_self)
      ((front ++ [last]).flatMap RawTerm.octets ++ rest)
    rw [hfront t List.mem_cons_self] at hread
    rw [List.cons_append, List.flatMap_cons, List.append_assoc]
    refine .more hread (ih ?_ ?_)
    · exact fun u hu => hlen u (List.mem_cons_of_mem _ hu)
    · exact fun u hu => hfront u (List.mem_cons_of_mem _ hu)

theorem rawComponent_octets {afi : ℕ} {c : RawComponent} (h : c.Regular afi) (rest : Bytes) :
    rawComponent afi (c.octets ++ rest) = .ok (c, rest) := by
  obtain ⟨kind, value⟩ := c
  refine rawComponent_ok_iff.mpr ⟨value.octets ++ rest, rfl, ?_⟩
  cases value with
  | pfx len raw =>
    obtain ⟨rfl, hk, hle, hlen, -⟩ := h
    exact (rawValue_pfx_ok_iff hk).mpr ⟨len, raw, rfl, hle, hlen, rfl⟩
  | terms ts =>
    obtain ⟨hk, hts⟩ := h
    exact (rawValue_terms_ok_iff hk).mpr ⟨ts, untilLast_octets hts rest, rfl⟩

/-- Every component takes exactly its share of the octets. -/
theorem rawRule_octets {afi : ℕ} {cs : List RawComponent} (h : ∀ c ∈ cs, c.Regular afi) :
    rawRule (cs.flatMap RawComponent.octets) afi = .ok cs := by
  rw [rawRule_ok_iff]
  induction cs with
  | nil => exact .nil
  | cons c cs ih =>
    rw [List.flatMap_cons]
    refine .cons (rawComponent_octets (h c List.mem_cons_self) _) (by simp [RawComponent.octets]) ?_
    exact ih fun d hd => h d (List.mem_cons_of_mem _ hd)

/-- The text of a term is the one of the reference. -/
theorem RawTerm.termText_eq_shown (kind : UInt8) {t : RawTerm} (h : t.operand.length = opLen t.op) :
    termText kind t.op t.operand = t.shown kind := by
  have hint : readBeInt t.operand = fromBeBytes t.operand :=
    readBeInt_of_length_le (h.trans_le (opLen_le _))
  rw [termText, hint]
  rfl

theorem RawComponent.json_eq_shown {afi : ℕ} {c : RawComponent} (h : c.Regular afi) :
    c.json afi = c.shown := by
  obtain ⟨kind, value⟩ := c
  cases value with
  | pfx len raw =>
    obtain ⟨rfl, -⟩ := h
    rfl
  | terms ts =>
    show texts _ = texts _
    rw [List.map_congr_left fun t ht => RawTerm.termText_eq_shown kind (h.2.operands t ht)]

/-! ### The length of a rule -/

/-- The first of two length octets. -/
theorem toNat_lengthOctet {n : ℕ} (h : n ≤ 4095) :
    (UInt8.ofNat (0xF0 + n / 256)).toNat = 0xF0 + n / 256 := by
  rw [UInt8.toNat_ofNat', Nat.mod_eq_of_lt (by omega)]

/-- A length is read from in front of anything. -/
theorem ruleLength_octets {n : ℕ} (h : n ≤ 4095) (rest : Bytes) :
    ruleLength (lengthOctets n ++ rest) = .ok (n, rest) := by
  unfold ruleLength lengthOctets
  -- a short length is one octet
  by_cases hn : n < 240
  · have hfirst : (UInt8.ofNat n).toNat = n := by
      rw [UInt8.toNat_ofNat', Nat.mod_eq_of_lt (by omega)]
    rw [if_pos hn, List.singleton_append, byteAt_ok_iff.mpr rfl]
    show (if (UInt8.ofNat n).toNat < 240 then _ else _) = _
    rw [hfirst, if_pos hn]
    rfl
  · -- the low four bits of the first octet and the second octet are the length again
    have hsecond : (UInt8.ofNat (n % 256)).toNat = n % 256 := by
      rw [UInt8.toNat_ofNat', Nat.mod_eq_of_lt (by omega)]
    have hlen : (0xF0 + n / 256) % 16 * 256 + n % 256 = n := by omega
    rw [if_neg hn, List.cons_append, List.singleton_append, byteAt_ok_iff.mpr rfl]
    show (if (UInt8.ofNat (0xF0 + n / 256)).toNat < 240 then _ else _) = _
    rw [toNat_lengthOctet h, if_neg (by omega), byteAt_ok_iff.mpr rfl]
    show Except.ok ((0xF0 + n / 256) % 16 * 256 + (UInt8.ofNat (n % 256)).toNat, rest) = _
    rw [hsecond, hlen]

/-- A length that is cut short is not read: its first octet says that there are two. -/
theorem ruleLength_cut {n : ℕ} (h : n ≤ 4095) {data : Bytes} (hp : data <+: lengthOctets n)
    (hne : data ≠ lengthOctets n) (m : ℕ) (rest : Bytes) : ruleLength data ≠ .ok (m, rest) := by
  have hnil : ruleLength [] ≠ .ok (m, rest) := by
    intro hr
    exact absurd (ruleLength_consumes _ _ _ hr) (by simp)
  unfold lengthOctets at hp hne
  -- the length takes one octet, or two
  by_cases hn : n < 240
  · rw [if_pos hn] at hp hne
    rcases List.prefix_cons_iff.mp hp with rfl | ⟨tail, rfl, htail⟩
    · exact hnil
    · rw [List.prefix_nil.mp htail] at hne
      exact absurd rfl hne
  · rw [if_neg hn] at hp hne
    rcases List.prefix_cons_iff.mp hp with rfl | ⟨tail, rfl, htail⟩
    · exact hnil
    · rcases List.prefix_cons_iff.mp htail with rfl | ⟨tail', rfl, htail'⟩
      · -- one octet of two
        unfold ruleLength
        rw [byteAt_ok_iff.mpr rfl]
        show (if (UInt8.ofNat (0xF0 + n / 256)).toNat < 240 then _ else _) ≠ _
        rw [toNat_lengthOctet h, if_neg (by omega)]
        simp [byteAt, take, bind, Except.bind]
      · rw [List.prefix_nil.mp htail'] at hne
        exact absurd rfl hne

/-- **A rule is read back from its octets**, as what its components are reported as. -/
theorem flowspecRule_inverts {afi : ℕ} (hafi : afi = 1 ∨ afi = 2) :
    Reader.Inverts (flowspecRule afi) Rule.octets
      fun rule : Rule afi => .object (rule.components.map (RawComponent.member afi)) where
  whole rule rest := by
    refine flowspecRule_ok_iff.mpr ⟨rule.body, ?_, ?_⟩
    · rw [Rule.octets, List.append_assoc]
      exact ruleLength_octets rule.length_body_le _
    · exact (components_ok_iff_rawRule hafi).mpr ⟨_, rawRule_octets rule.regular, rfl⟩
  cut rule data hp hne value rest h := by
    obtain ⟨body, hlen, -⟩ := flowspecRule_ok_iff.mp h
    rcases List.prefix_or_prefix_of_prefix hp (List.prefix_append _ _) with hcut | ⟨tail, rfl⟩
    · -- the input ends in the length, or right behind the length of an empty rule
      by_cases heq : data = lengthOctets rule.body.length
      · have hread := ruleLength_octets rule.length_body_le []
        rw [List.append_nil, ← heq, hlen] at hread
        obtain ⟨hbody, hnil⟩ := Prod.mk.inj (Except.ok.inj hread)
        rw [(List.append_eq_nil_iff.mp hnil).1, List.length_nil] at hbody
        rw [Rule.octets, List.length_eq_zero_iff.mp hbody.symm, List.append_nil] at hne
        exact hne (by rw [heq, List.length_eq_zero_iff.mp hbody.symm])
      · exact ruleLength_cut rule.length_body_le hcut heq _ _ hlen
    · -- the input ends in the body, which is shorter than its length then
      rw [ruleLength_octets rule.length_body_le] at hlen
      obtain ⟨hbody, rfl⟩ := Prod.mk.inj (Except.ok.inj hlen)
      have htail := (List.prefix_append_right_inj _).mp hp
      have hle := htail.length_le
      rw [List.length_append] at hle
      refine hne ?_
      rw [Rule.octets, htail.eq_of_length (by rw [List.length_append]; omega)]

/-- An object of the components shows the rule. -/
theorem shows_object {afi : ℕ} (rule : Rule afi) :
    Shows rule (.object (rule.components.map (RawComponent.member afi))) := by
  have hnodup := (nodup_keys_iff afi rule.components).mpr rule.distinct
  refine ⟨⟨_, object_eq_ofList _, ?_, ?_⟩, fun c hc => ?_⟩
  · exact (Entries.sorted_ofList _).nodup_keys
  · rw [← keys_member]
    exact Entries.keys_ofList_perm hnodup
  · rw [get_of_nodup rule.distinct hc, RawComponent.json_eq_shown (rule.regular c hc)]

/-- **`flowspec` takes back the reference encoding** of a list of rules, and refuses it
when it is cut inside a rule. -/
theorem flowspec_reference {afi : ℕ} (hafi : afi = 1 ∨ afi = 2) (rules : List (Rule afi)) :
    (∃ values, flowspec (rules.flatMap Rule.octets) afi = .ok values ∧
      List.Forall₂ Shows rules values) ∧
    ∀ data, data <+: rules.flatMap Rule.octets →
      (¬ ∃ front, front <+: rules ∧ data = front.flatMap Rule.octets) →
      ∃ e, flowspec data afi = .error e := by
  have hinv := flowspecRule_inverts hafi
  refine ⟨⟨_, flowspec_ok_iff.mpr (hinv.items (flowspecRule_consumes afi) rules), ?_⟩,
    fun data hp hcut => ?_⟩
  · rw [List.forall₂_map_right_iff]
    exact List.forall₂_same.mpr fun rule _ => shows_object rule
  · cases hd : flowspec data afi with
    | error e => exact ⟨e, rfl⟩
    | ok values => exact absurd (hinv.exists_front hp (flowspec_ok_iff.mp hd)) hcut

/-- A rule with a destination prefix and a protocol. -/
def sampleRule : Rule 1 where
  components := [⟨1, .pfx 8 [10]⟩, ⟨3, .terms [⟨0x81, [6]⟩]⟩]
  distinct := by decide
  regular := by
    intro c hc
    rcases List.mem_pair.mp hc with rfl | rfl
    · exact ⟨rfl, Or.inl rfl, by decide, rfl, fun i hi => Bits.bitAt_of_le hi⟩
    · refine ⟨by decide, ⟨[], _, rfl, by decide, by simp⟩, fun t ht => ?_⟩
      rw [List.mem_singleton.mp ht]
      rfl
  size := by decide

/-- It holds of a field with two rules. -/
theorem flowspec_reference_sample :
    (∃ values, flowspec ([sampleRule, sampleRule].flatMap Rule.octets) 1 = .ok values ∧
      List.Forall₂ Shows [sampleRule, sampleRule] values) ∧
    ∀ data, data <+: [sampleRule, sampleRule].flatMap Rule.octets →
      (¬ ∃ front, front <+: [sampleRule, sampleRule] ∧ data = front.flatMap Rule.octets) →
      ∃ e, flowspec data 1 = .error e :=
  flowspec_reference (Or.inl rfl) [sampleRule, sampleRule]

end Wire
