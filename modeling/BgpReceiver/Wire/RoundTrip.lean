import BgpReceiver.Wire.Rendering
import BgpReceiver.Wire.Sources

/-!
# The UPDATE without multiprotocol attributes

An UPDATE of RFC 4271 is a list of withdrawn IPv4 prefixes, a list of path attributes and
a list of announced IPv4 prefixes (`PlainUpdate`). What a prefix stands for does not
depend on the bits behind its length, so an octet string holds the prefixes of a list in
more than one way; the octets are part of a `RawPrefix`, and its text is that of the
prefix alone.

`update` takes the encoding of every such UPDATE, and reports what is in it
(`PlainUpdate.Reported`). Among the bodies without a multiprotocol attribute it takes no
others (`update_plain`), so the three sections, the attributes in the second and the
prefixes in the other two fill the body without a gap or an overlap.
-/

namespace Wire

/-! ### Prefixes -/

/-- A prefix of an address family as it stands in an NLRI field. -/
structure RawPrefix (afi : ℕ) where
  bits : ℕ
  raw : Bytes
  bits_le : bits ≤ maxBits afi
  length_raw : raw.length = divCeil8 bits

namespace RawPrefix

variable {afi : ℕ}

/-- The octets of a prefix. -/
def octets (p : RawPrefix afi) : Bytes := UInt8.ofNat p.bits :: p.raw

/-- The text of the prefix, with the bits behind its length cleared. -/
def text (p : RawPrefix afi) : String := (prefixString p.raw p.bits afi true).getD ""

theorem toNat_bits (p : RawPrefix afi) : (UInt8.ofNat p.bits).toNat = p.bits := by
  have hmax : maxBits afi ≤ 128 := by
    unfold maxBits
    split_ifs <;> omega
  rw [UInt8.toNat_ofNat', Nat.mod_eq_of_lt (by have := p.bits_le; omega)]

theorem octets_inj {p q : RawPrefix afi} (h : p.octets = q.octets) : p = q := by
  have hbits : p.bits = q.bits := by
    rw [← p.toNat_bits, ← q.toNat_bits, (List.cons.inj h).1]
  obtain ⟨b, r, hb, hr⟩ := p
  obtain ⟨b', r', hb', hr'⟩ := q
  obtain rfl : b = b' := hbits
  obtain rfl : r = r' := (List.cons.inj h).2
  rfl

end RawPrefix

section Prefixes

variable {afi : ℕ} {nextHop : Option String}

/-- **What is read is a prefix**, and what is reported is its text. -/
theorem unicastRoute_ok_iff_octets (hafi : afi = 1 ∨ afi = 2) {data rest : Bytes} {route : Json} :
    unicastRoute afi nextHop data = .ok (route, rest) ↔
      ∃ p : RawPrefix afi, data = p.octets ++ rest ∧ route = routeJson p.text nextHop := by
  rw [unicastRoute_ok_iff]
  refine ⟨fun h => ?_, fun h => ?_⟩
  · obtain ⟨bits, raw, text, rfl, hbits, hlen, htext, rfl⟩ := h
    refine ⟨⟨bits.toNat, raw, hbits, hlen⟩, ?_, ?_⟩
    · simp [RawPrefix.octets]
    · rw [RawPrefix.text, htext, Option.getD_some]
  · obtain ⟨p, rfl, rfl⟩ := h
    -- the prefix has a text, whatever its octets
    obtain ⟨text, htext⟩ := prefixString_isSome hafi p.raw p.bits true
    refine ⟨UInt8.ofNat p.bits, p.raw, text, rfl, ?_, ?_, ?_, ?_⟩
    · rw [p.toNat_bits]
      exact p.bits_le
    · rw [p.toNat_bits]
      exact p.length_raw
    · rw [p.toNat_bits, htext]
    · rw [RawPrefix.text, htext, Option.getD_some]

/-- **What an NLRI field of unicast prefixes is.** -/
theorem unicast_ok_iff_prefixes (hafi : afi = 1 ∨ afi = 2) {data : Bytes} {routes : List Json} :
    unicast data afi nextHop = .ok routes ↔ ∃ ps : List (RawPrefix afi),
      data = ps.flatMap RawPrefix.octets ∧ routes = ps.map fun p => routeJson p.text nextHop := by
  rw [unicast_ok_iff]
  refine ⟨fun h => ?_, fun h => ?_⟩
  · -- by induction on the reading, a prefix at a time
    induction h with
    | nil => exact ⟨[], rfl, rfl⟩
    | cons hr _ _ ih =>
      obtain ⟨p, rfl, rfl⟩ := (unicastRoute_ok_iff_octets hafi).mp hr
      obtain ⟨ps, rfl, rfl⟩ := ih
      exact ⟨p :: ps, rfl, rfl⟩
  · obtain ⟨ps, rfl, rfl⟩ := h
    induction ps with
    | nil => exact .nil
    | cons p ps ih =>
      refine .cons ((unicastRoute_ok_iff_octets hafi).mpr ⟨p, ?_, rfl⟩)
        (by simp [RawPrefix.octets]) ih
      rw [List.flatMap_cons]

/-- The octets of a field hold one list of prefixes. -/
theorem flatMap_octets_inj {ps qs : List (RawPrefix afi)}
    (h : ps.flatMap RawPrefix.octets = qs.flatMap RawPrefix.octets) : ps = qs := by
  -- prefix by prefix
  induction ps generalizing qs with
  | nil =>
    cases qs with
    | nil => rfl
    | cons q qs => exact absurd h (by simp [RawPrefix.octets])
  | cons p ps ih =>
    cases qs with
    | nil => exact absurd h (by simp [RawPrefix.octets])
    | cons q qs =>
      rw [List.flatMap_cons, List.flatMap_cons] at h
      -- the length octet says how many octets follow
      have hbits : p.bits = q.bits := by
        rw [← p.toNat_bits, ← q.toNat_bits, (List.cons.inj h).1]
      have hlen : p.octets.length = q.octets.length := by
        rw [RawPrefix.octets, RawPrefix.octets, List.length_cons, List.length_cons, p.length_raw,
          q.length_raw, hbits]
      obtain ⟨hp, hps⟩ := List.append_inj h hlen
      rw [RawPrefix.octets_inj hp, ih hps]

end Prefixes

/-! ### The message -/

/-- The content of an UPDATE without multiprotocol attributes. -/
structure PlainUpdate where
  withdrawn : List (RawPrefix 1)
  attrs : List RawAttr
  nlri : List (RawPrefix 1)
  plain : ∀ a ∈ attrs, a.code ≠ 14 ∧ a.code ≠ 15

namespace PlainUpdate

/-- The message as it stands on the wire. -/
def raw (m : PlainUpdate) : RawUpdate where
  withdrawn := m.withdrawn.flatMap RawPrefix.octets
  attrs := m.attrs
  nlri := m.nlri.flatMap RawPrefix.octets

/-- The octets of the UPDATE: three sections, the first two behind their lengths. -/
def Enc (m : PlainUpdate) (body : Bytes) : Prop := m.raw.Enc body

/-- The next hop of the announced prefixes: the last NEXT_HOP attribute, if it is an IPv4
address. -/
def nextHop (m : PlainUpdate) : String :=
  match (m.attrs.filter fun a => a.code = 3).getLast? with
  | some a => if a.data.length = 4 then IpAddr.ipv4Text a.data else ""
  | none => ""

/-- A group of IPv4 unicast routes; there is none without a route. -/
def group (ps : List (RawPrefix 1)) (nextHop : Option String) : Json :=
  .obj (if ps = [] then [] else [("ipv4-unicast", .arr (ps.map fun p => routeJson p.text nextHop))])

/-- The flags of an attribute as they are shown. -/
def flagsJson (flags : UInt8) : Json :=
  .object [("optional", .bool (flags &&& 128 ≠ 0)), ("transitive", .bool (flags &&& 64 ≠ 0)),
    ("partial", .bool (flags &&& 32 ≠ 0)), ("extended_length", .bool (flags &&& 16 ≠ 0))]

/-- A record shows the header of an attribute. -/
def ShowsHeader (a : RawAttr) (record : Json) : Prop :=
  record.index "code" = .num a.code.toNat ∧ record.index "flags" = flagsJson a.flags ∧
    record.index "length" = .num a.data.length

/-- What is reported of the UPDATE. -/
structure Reported (m : PlainUpdate) (u : Json) : Prop where
  announce : u.index "announce" = group m.nlri (some m.nextHop)
  withdraw : u.index "withdraw" = group m.withdrawn none
  attributes : ∃ records, u.index "path_attributes" = .arr records ∧
    List.Forall₂ ShowsHeader m.attrs records

theorem raw_injective {m m' : PlainUpdate} (h : m.raw = m'.raw) : m = m' := by
  obtain ⟨w, as, n, hp⟩ := m
  obtain ⟨w', as', n', hp'⟩ := m'
  obtain ⟨hw, ha, hn⟩ := RawUpdate.mk.inj h
  obtain rfl := flatMap_octets_inj hw
  obtain rfl : as = as' := ha
  obtain rfl := flatMap_octets_inj hn
  rfl

/-- The fold over the attributes ends with the last NEXT_HOP. -/
theorem nextHop_raw (m : PlainUpdate) : m.raw.nextHop = m.nextHop := by
  unfold RawUpdate.nextHop nextHop raw
  simp only
  induction m.attrs using List.reverseRecOn with
  | nil => rfl
  | append_singleton as a ih =>
    rw [List.foldl_append, List.foldl_cons, List.foldl_nil, ih, List.filter_append]
    by_cases ha : a.code = 3
    · rw [if_pos ha, List.filter_cons_of_pos (by simpa using ha), List.filter_nil,
        List.getLast?_append]
      show hopText a = if a.data.length = 4 then IpAddr.ipv4Text a.data else ""
      unfold hopText nextHopString
      split_ifs <;> first | rfl | omega
    · rw [if_neg ha, List.filter_cons_of_neg (by simpa using ha), List.filter_nil, List.append_nil]

/-- A record shows the code, the flags and the length of its attribute. -/
theorem showsHeader_attrRecord (asnLen : ℕ) (a : RawAttr) :
    ShowsHeader a (attrRecord asnLen a) := by
  unfold ShowsHeader attrRecord flagsJson
  cases attributeValue a.code a.data asnLen <;> simp [Json.index, Entries.find_cons]

/-! ### Decoding -/

/-- One turn of the loop over an attribute that is not multiprotocol cannot fail. -/
theorem attrStep_plain (asnLen : ℕ) (acc : UpdateAcc) {a : RawAttr}
    (ha : a.code ≠ 14 ∧ a.code ≠ 15) : ∃ acc', attrStep asnLen acc a = .ok acc' ∧
      acc'.flowNextHop = acc.flowNextHop ∧
      acc'.attributes = acc.attributes ++ [attrRecord asnLen a] := by
  unfold attrStep
  simp only [if_neg (not_or.mpr ha)]
  refine ⟨_, rfl, ?_, ?_⟩
  · simp only
    split_ifs <;> rfl
  · simp only
    split_ifs <;> rfl

/-- A walk over attributes without routes goes through, and reports all of them. -/
theorem foldlM_plain (asnLen : ℕ) {attrs : List RawAttr}
    (hattrs : ∀ a ∈ attrs, a.code ≠ 14 ∧ a.code ≠ 15) (acc : UpdateAcc) :
    ∃ walked, attrs.foldlM (attrStep asnLen) acc = .ok walked ∧
      walked.flowNextHop = acc.flowNextHop ∧
      walked.attributes = acc.attributes ++ attrs.map (attrRecord asnLen) := by
  induction attrs generalizing acc with
  | nil => exact ⟨acc, rfl, rfl, (List.append_nil _).symm⟩
  | cons a attrs ih =>
    obtain ⟨acc₁, h₁, hf₁, ha₁⟩ := attrStep_plain asnLen acc (hattrs a List.mem_cons_self)
    obtain ⟨walked, hw, hf, ha⟩ := ih (fun b hb => hattrs b (List.mem_cons_of_mem _ hb)) acc₁
    refine ⟨walked, ?_, hf.trans hf₁, ?_⟩
    · rw [List.foldlM_cons, h₁]
      exact hw
    · rw [ha, ha₁, List.append_assoc]
      rfl

theorem flatMap_octets_eq_nil_iff {ps : List (RawPrefix 1)} :
    ps.flatMap RawPrefix.octets = [] ↔ ps = [] := by
  cases ps with
  | nil => simp
  | cons p ps => simp [RawPrefix.octets]

/-- The routes of a classic field are stored under one label, if there are any. -/
theorem store_classicSource (ps : List (RawPrefix 1)) (nextHop : Option String) :
    Json.obj (store [] (classicSource (ps.flatMap RawPrefix.octets) nextHop))
      = group ps nextHop := by
  unfold classicSource group
  by_cases hps : ps = []
  · rw [if_pos (flatMap_octets_eq_nil_iff.mpr hps), if_pos hps]
    rfl
  · rw [if_neg fun h => hps (flatMap_octets_eq_nil_iff.mp h), if_neg hps]
    have hdec : Source.decoded ⟨.ipv4Unicast, ps.flatMap RawPrefix.octets, nextHop⟩
        = .ok (ps.map fun p => routeJson p.text nextHop) :=
      (unicast_ok_iff_prefixes (Or.inl rfl)).mpr ⟨ps, rfl, rfl⟩
    show Json.obj [("ipv4-unicast", .arr (Source.routes _))] = _
    rw [Source.routes_of_decoded hdec]

/-- A classic field of prefixes decodes. -/
theorem classicWithdraw_prefixes (acc : UpdateAcc) (ps : List (RawPrefix 1)) :
    ∃ acc', classicWithdraw acc (ps.flatMap RawPrefix.octets) = .ok acc' := by
  unfold classicWithdraw
  rw [(unicast_ok_iff_prefixes (Or.inl rfl)).mpr ⟨ps, rfl, rfl⟩]
  split_ifs
  · exact ⟨_, rfl⟩
  · exact ⟨_, rfl⟩

/-- Prefixes in the classic field can always be announced. -/
theorem classicAnnounce_prefixes (acc : UpdateAcc) (ps : List (RawPrefix 1)) :
    ∃ acc', classicAnnounce acc (ps.flatMap RawPrefix.octets) = .ok acc' := by
  unfold classicAnnounce
  rw [(unicast_ok_iff_prefixes (Or.inl rfl)).mpr ⟨ps, rfl, rfl⟩]
  split_ifs
  · exact ⟨_, rfl⟩
  · exact ⟨_, rfl⟩

/-- **Every such UPDATE is taken**, and what is reported is its content. -/
theorem Enc.reported {m : PlainUpdate} {body : Bytes} (h : m.Enc body) {asnLen : ℕ}
    (hasn : asnLen = 2 ∨ asnLen = 4) : ∃ u, update body asnLen = .ok u ∧ m.Reported u := by
  obtain ⟨walked, hwalk, hflow, hattrs⟩ := foldlM_plain asnLen m.plain UpdateAcc.empty
  obtain ⟨acc₁, hw⟩ := classicWithdraw_prefixes (replaceNextHop walked) m.withdrawn
  obtain ⟨acc, ha⟩ := classicAnnounce_prefixes acc₁ m.nlri
  have hok : parseUpdate body asnLen = .ok acc :=
    parseUpdate_ok_iff.mpr ⟨hasn, m.raw, h, walked, hwalk, acc₁, hw, ha⟩
  obtain ⟨r, hr, hann, hwd, -, -⟩ := parseUpdate_ok hok
  obtain rfl : r = m.raw := hr.unique h
  -- no attribute is a source
  have hnone : ∀ code, code = 14 ∨ code = 15 → m.raw.attrs.filterMap (mpSource code) = [] := by
    intro code hcode
    rw [List.filterMap_eq_nil_iff]
    intro a ha
    refine if_neg fun he => ?_
    rcases hcode with rfl | rfl
    · exact (m.plain a ha).1 he
    · exact (m.plain a ha).2 he
  refine ⟨acc.toJson, by rw [update, hok]; rfl, ?_, ?_, ?_⟩
  · rw [index_announce_toJson, hann, RawUpdate.announceSources, hnone 14 (Or.inl rfl),
      List.nil_append, nextHop_raw]
    exact store_classicSource m.nlri _
  · rw [index_withdraw_toJson, hwd, RawUpdate.withdrawSources, hnone 15 (Or.inr rfl),
      List.nil_append]
    exact store_classicSource m.withdrawn _
  · -- without a FlowSpec next hop the records stay as they are
    have hrecords : acc.attributes = m.attrs.map (attrRecord asnLen) := by
      obtain ⟨rfl, -⟩ := classicWithdraw_ok hw
      obtain ⟨rfl, -⟩ := classicAnnounce_ok ha
      show (replaceNextHop walked).attributes = _
      rw [replaceNextHop, if_neg (by rw [hflow]; simp [UpdateAcc.empty]), hattrs]
      rfl
    refine ⟨acc.attributes, ?_, ?_⟩
    · simp [UpdateAcc.toJson, Json.index, Entries.find_cons]
    · rw [hrecords, List.forall₂_map_right_iff]
      exact List.forall₂_same.mpr fun a _ => showsHeader_attrRecord asnLen a

/-- **Nothing else is taken**: a body without multiprotocol attributes that is taken is
the encoding of one such UPDATE. -/
theorem exists_enc_of_update {body : Bytes} {asnLen : ℕ} {u : Json}
    (h : update body asnLen = .ok u)
    (hplain : ∀ r : RawUpdate, r.Enc body → ∀ a ∈ r.attrs, a.code ≠ 14 ∧ a.code ≠ 15) :
    ∃ m : PlainUpdate, m.Enc body := by
  unfold update at h
  cases hp : parseUpdate body asnLen with
  | error e =>
    rw [hp] at h
    exact absurd h (by simp [Except.map])
  | ok acc =>
    obtain ⟨-, r, henc, walked, hwalk, acc₁, hw, ha⟩ := parseUpdate_ok_iff.mp hp
    -- both classic fields are lists of prefixes
    have hfield : ∀ {octets : Bytes} {nextHop : Option String},
        (∀ s ∈ classicSource octets nextHop, ∃ routes, s.decoded = .ok routes) →
        ∃ ps : List (RawPrefix 1), octets = ps.flatMap RawPrefix.octets := by
      intro octets nextHop hd
      by_cases hnil : octets = []
      · exact ⟨[], hnil⟩
      · obtain ⟨routes, hr⟩ := hd ⟨.ipv4Unicast, octets, nextHop⟩ (by simp [classicSource, hnil])
        obtain ⟨ps, hps, -⟩ := (unicast_ok_iff_prefixes (Or.inl rfl)).mp hr
        exact ⟨ps, hps⟩
    obtain ⟨ws, hws⟩ := hfield (classicWithdraw_ok hw).2
    obtain ⟨ns, hns⟩ := hfield (classicAnnounce_ok ha).2
    refine ⟨⟨ws, r.attrs, ns, hplain r henc⟩, ?_⟩
    show RawUpdate.Enc ⟨_, _, _⟩ body
    rw [← hws, ← hns]
    exact henc

end PlainUpdate

/-- **`update` inverts the encoding and takes nothing else.** -/
theorem update_plain {asnLen : ℕ} (hasn : asnLen = 2 ∨ asnLen = 4) (body : Bytes) :
    (∀ m : PlainUpdate, m.Enc body → ∃ u, update body asnLen = .ok u ∧ m.Reported u) ∧
      ∀ u, update body asnLen = .ok u →
        (∀ r : RawUpdate, r.Enc body → ∀ a ∈ r.attrs, a.code ≠ 14 ∧ a.code ≠ 15) →
        ∃! m : PlainUpdate, m.Enc body := by
  refine ⟨fun m h => h.reported hasn, fun u h hplain => ?_⟩
  obtain ⟨m, hm⟩ := PlainUpdate.exists_enc_of_update h hplain
  exact ⟨m, hm, fun m' hm' => PlainUpdate.raw_injective (hm'.unique hm)⟩

/-- An UPDATE that withdraws 10.32.0.0/12 and announces 10.3.16.0/20, with an ORIGIN, an AS_PATH
and a NEXT_HOP. -/
def plainSample : PlainUpdate where
  withdrawn := [⟨12, [10, 0x20], by decide, rfl⟩]
  attrs := [⟨0x40, 1, [0]⟩, ⟨0x40, 2, [2, 1, 0, 0, 0xfd, 0xe8]⟩, ⟨0x40, 3, [192, 0, 2, 1]⟩]
  nlri := [⟨20, [10, 3, 0x10], by decide, rfl⟩]
  plain := by decide

/-- It holds of the octets of this UPDATE. -/
theorem update_plain_classic : ∃ u, update plainSample.raw.octets 4 = .ok u ∧
    plainSample.Reported u ∧ ∃! m : PlainUpdate, m.Enc plainSample.raw.octets := by
  obtain ⟨htaken, hunique⟩ := update_plain (Or.inr rfl) plainSample.raw.octets
  have henc : plainSample.Enc plainSample.raw.octets := RawUpdate.enc_octets (by decide)
  obtain ⟨u, hu, hreported⟩ := htaken plainSample henc
  refine ⟨u, hu, hreported, hunique u hu fun r hr => ?_⟩
  rw [hr.unique henc]
  exact plainSample.plain

end Wire
