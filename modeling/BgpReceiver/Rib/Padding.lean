import BgpReceiver.Rib.Identity
import BgpReceiver.Wire.Padding

/-!
# Withdrawing a rule with other padding

A FlowSpec rule is withdrawn by its octets, and the bits behind its prefixes may be
different in the announcement and in the withdrawal. As they are part of the result, they are
part of the id, and the withdrawal misses the row then (`flowspecPadding_iff`).
-/

namespace Rib

open Bits (bitAt)
open Wire (RawComponent SameText ofKind)

variable {digest : Bytes → Vector UInt8 20} {peer : String}

/-- An update that withdraws the rule `v'` leaves no row of the rule `v`. -/
def Removes (digest : Bytes → Vector UInt8 20) (peer label : String) (v v' : Json) : Prop :=
  ∀ (o : Outside) (u : Json) (d d' : Data), sections.Reachable d → Decoded u →
    (label, v') ∈ routesOf u .withdraw → applyUpdate digest o u peer d = some d' →
    d'.byId (routeId digest peer (keyOf label v)) = none

/-- The code of the attribute that lists the routes of a kind. -/
def UpdateKind.attrCode : UpdateKind → UInt8
  | announce => 14
  | withdraw => 15

/-- The routes of a kind are carried by MP_REACH_NLRI or by MP_UNREACH_NLRI. -/
theorem attrCode_mem (kind : UpdateKind) : kind.attrCode = 14 ∨ kind.attrCode = 15 := by
  cases kind with
  | announce => exact Or.inl rfl
  | withdraw => exact Or.inr rfl

/-- An UPDATE with one multiprotocol attribute has one source. -/
theorem sourcesFor_mpUpdate (f : Wire.Family) (nlri : Bytes) (kind kind' : UpdateKind) :
    sourcesFor (Wire.mpUpdate kind.attrCode f nlri) kind' = if kind' = kind then
      [⟨f, nlri, if kind.attrCode = 14 then some "" else none⟩] else [] := by
  have hattr : sourcesFor (Wire.mpUpdate kind.attrCode f nlri) kind'
      = (Wire.mpUpdate kind.attrCode f nlri).attrs.filterMap (Wire.mpSource kind'.attrCode) := by
    cases kind' <;> exact List.append_nil _
  rw [hattr, Wire.mpUpdate, List.filterMap_cons, List.filterMap_nil]
  by_cases hk : kind' = kind
  · rw [if_pos hk, hk, Wire.mpSource_mpOctets (attrCode_mem kind)]
  · -- an attribute is a source of its own code only
    have hcode : kind.attrCode ≠ kind'.attrCode := by
      intro he
      cases kind <;> cases kind' <;> first | exact hk rfl | exact absurd he (by decide)
    rw [if_neg hk, Wire.mpSource, if_neg hcode]

/-- There is an update that lists a given rule under one of the kinds, and nothing else. -/
theorem exists_ruleUpdate {f : Wire.Family} (hf : f.safi = 133) {n : Bytes} (hn : n.length ≤ 4095)
    {v : Json} (h : Wire.components n f.afi = .ok v) (kind : UpdateKind) :
    ∃ u, Decoded u ∧ ∀ kind', routesOf u kind' = if kind' = kind then [(f.label, v)] else [] := by
  -- the length of a rule takes one octet or two
  have hlength : (Wire.lengthOctets n.length).length = 1 ∨
      (Wire.lengthOctets n.length).length = 2 := by
    unfold Wire.lengthOctets
    split_ifs
    · exact Or.inl rfl
    · exact Or.inr rfl
  have hflow : Wire.flowspec (Wire.lengthOctets n.length ++ n) f.afi = .ok [v] := by
    have hrule : Wire.flowspecRule f.afi (Wire.lengthOctets n.length ++ n) = .ok (v, []) := by
      refine Wire.flowspecRule_ok_iff.mpr ⟨n, ?_, h⟩
      rw [List.append_nil]
      exact Wire.ruleLength_octets hn n
    refine Wire.flowspec_ok_iff.mpr (.cons hrule (List.ne_nil_of_length_pos ?_) .nil)
    rw [List.length_append]
    omega
  have hsize : (Wire.lengthOctets n.length ++ n).length < 65000 := by
    rw [List.length_append]
    omega
  have hdecoded : ∀ hop, Wire.Source.decoded ⟨f, Wire.lengthOctets n.length ++ n, hop⟩ = .ok [v] :=
    fun hop => (if_pos hf).trans hflow
  -- the UPDATE has one attribute, and the rule in it
  obtain ⟨u, hu, henc⟩ := Wire.update_mpUpdate (attrCode_mem kind) hsize (hdecoded _) (Or.inl rfl)
  refine ⟨u, ⟨_, _, hu⟩, fun kind' => ?_⟩
  obtain ⟨r, henc', -, hg⟩ := groups_of_update hu
  obtain rfl := henc.unique henc'
  rw [routesOf_eq_reported (hg kind'), sourcesFor_mpUpdate]
  by_cases hk : kind' = kind
  · have hroutes := Wire.Source.routes_of_decoded
      (hdecoded (if kind.attrCode = 14 then some "" else none))
    rw [if_pos hk, if_pos hk, reported, Wire.store, List.foldl_cons, List.foldl_nil, hroutes]
    rfl
  · rw [if_neg hk, if_neg hk]
    rfl

/-- **A withdrawal removes the rows of its own rule.** -/
theorem removes_iff {f : Wire.Family} (hf : f.safi = 133) {n n' : Bytes} (hn : n.length ≤ 4095)
    (hn' : n'.length ≤ 4095) {v v' : Json} (h : Wire.components n f.afi = .ok v)
    (h' : Wire.components n' f.afi = .ok v')
    (hinj : Set.InjOn (shortId digest)
      {Key.canonical peer (keyOf f.label v), Key.canonical peer (keyOf f.label v')}) :
    Removes digest peer f.label v v' ↔ v = v' := by
  have hids : ∀ {u : Json} {w : Json} {kind kind' : UpdateKind},
      (∀ kind', routesOf u kind' = if kind' = kind then [(f.label, w)] else []) →
      idsOf digest u peer kind'
        = if kind' = kind then [routeId digest peer (keyOf f.label w)] else [] := by
    intro u w kind kind' hroutes
    rw [idsOf, hroutes]
    split_ifs <;> rfl
  constructor
  · intro hremoves
    by_contra hne
    have hid := mt (flowspec_routeId_iff (familyOf_flowspec hf) hinj).mp hne
    -- announce the one rule and withdraw the other
    obtain ⟨u₁, hu₁, hroutes₁⟩ := exists_ruleUpdate hf hn h .announce
    obtain ⟨u₂, hu₂, hroutes₂⟩ := exists_ruleUpdate hf hn' h' .withdraw
    have hnew : sections.Reachable (Data.new none) := .init ⟨none, rfl⟩
    let o : Outside := ⟨fun _ => "", fun _ => 0, fun _ => "", true⟩
    obtain ⟨d₁, -, h₁, -⟩ := applyUpdate_run digest o u₁ peer (sections_consistent hnew)
    have hd₁ := applyUpdate_reachable digest o u₁ peer hnew h₁
    obtain ⟨d₂, -, h₂, -⟩ := applyUpdate_run digest o u₂ peer (sections_consistent hd₁)
    have hgone := hremoves o u₂ d₁ d₂ hd₁ hu₂ (by rw [hroutes₂, if_pos rfl]; simp) h₂
    -- the row of the first is there, and the second does not mention its id
    obtain ⟨e, -, -, receivedAt, hrow⟩ := applyUpdate_kept (sections_consistent hnew) h₁
      (by rw [hids hroutes₁, if_pos rfl]; exact List.mem_singleton_self _)
      (by rw [hids hroutes₁, if_neg (by decide)]; simp)
    rw [applyUpdate_other (sections_consistent hd₁) h₂
      (by rw [hids hroutes₂, if_neg (by decide)]; simp)
      (by rw [hids hroutes₂, if_pos rfl]; simpa using hid), hrow] at hgone
    exact absurd hgone (by simp)
  · rintro rfl o u d d' hd - hmem ha
    exact applyUpdate_withdrawn (sections_consistent hd) ha
      (mem_idsOf_iff.mpr ⟨f.label, v, hmem, rfl⟩)

/-- **When FlowSpec prefixes are canonical.** Prefixes that differ in their padding at most
have one text when they are padded alike, and a withdrawal that differs from an announcement in
the padding at most removes the rule when the components that are reported are padded alike. -/
theorem flowspecPadding_iff {f : Wire.Family} (hf : f.safi = 133) :
    (∀ (kind len : UInt8) (raw raw' : Bytes), (kind = 1 ∨ kind = 2) →
      len.toNat ≤ Wire.maxBits f.afi → raw.length = Wire.divCeil8 len.toNat →
      raw'.length = Wire.divCeil8 len.toNat → (∀ i < len.toNat, bitAt raw i = bitAt raw' i) →
      (SameText f.afi kind len raw raw' ↔ raw = raw')) ∧
    ∀ (n n' : Bytes) (v v' : Json), n.length ≤ 4095 → n'.length ≤ 4095 →
      Wire.components n f.afi = .ok v → Wire.components n' f.afi = .ok v' →
      Set.InjOn (shortId digest)
        {Key.canonical peer (keyOf f.label v), Key.canonical peer (keyOf f.label v')} →
      ∃ cs cs', Wire.rawRule n f.afi = .ok cs ∧ Wire.rawRule n' f.afi = .ok cs' ∧
        (List.Forall₂ RawComponent.Alike cs cs' →
          (Removes digest peer f.label v v' ↔
            ∀ kind, (ofKind kind cs).getLast? = (ofKind kind cs').getLast?)) := by
  have hafi : f.afi = 1 ∨ f.afi = 2 := by cases f <;> simp [Wire.Family.afi]
  refine ⟨fun kind len raw raw' hk hle hlen hlen' _ => Wire.sameText_iff hafi hk hle hlen hlen', ?_⟩
  intro n n' v v' hn hn' h h' hinj
  -- the withdrawal removes the row exactly when the two objects are the same
  have hremoves := removes_iff hf hn hn' h h' hinj
  obtain ⟨cs, hcs, rfl⟩ := (Wire.components_ok_iff_rawRule hafi).mp h
  obtain ⟨cs', hcs', rfl⟩ := (Wire.components_ok_iff_rawRule hafi).mp h'
  refine ⟨cs, cs', hcs, hcs', fun halike => ?_⟩
  rw [hremoves]
  exact Wire.object_eq_iff_getLast? hafi halike (Wire.rawRule_wellFormed hcs)
    (Wire.rawRule_wellFormed hcs')

/-! Two encodings of the destination 10.0.16.0/20. -/

/-- The destination 10.0.16.0/20 with no bit behind its length. -/
def plainRule : Bytes := [1, 20, 10, 0, 0x10]

/-- The same prefix with the other four bits set. -/
def paddedRule : Bytes := [1, 20, 10, 0, 0x1f]

/-- What the first is decoded to. -/
def plainJson : Json := .object [("dst-prefix", .str "10.0.16.0/20")]

/-- What the second is decoded to. -/
def paddedJson : Json := .object [("dst-prefix", .str "10.0.31.0/20")]

/-- SHA-1 on the texts of the two keys. -/
def paddingDigest (data : Bytes) : Vector UInt8 20 :=
  if data = Key.canonical samplePeer (keyOf "ipv4-flowspec" plainJson) then
    #v[0xbb, 0xb8, 0x9d, 0xd8, 0xe0, 0x77, 0x15, 0xbf, 0x21, 0x5c, 0x6c, 0xa8, 0x6b, 0x58, 0x2b,
      0x4d, 0xfe, 0xcd, 0x02, 0x48]
  else if data = Key.canonical samplePeer (keyOf "ipv4-flowspec" paddedJson) then
    #v[0x17, 0xa0, 0x7a, 0x9a, 0xa8, 0x3e, 0x4b, 0x6b, 0xb2, 0x60, 0xc8, 0xfe, 0xc1, 0xb9, 0xa6,
      0x72, 0x0b, 0x82, 0x6d, 0x5f]
  else Vector.replicate 20 0

/-- The two rules, and the ids of what is shown of them. -/
theorem paddingFacts :
    Wire.components plainRule 1 = .ok plainJson ∧ Wire.components paddedRule 1 = .ok paddedJson ∧
    Wire.rawRule plainRule 1 = .ok [⟨1, .pfx 20 [10, 0, 0x10]⟩] ∧
    Wire.rawRule paddedRule 1 = .ok [⟨1, .pfx 20 [10, 0, 0x1f]⟩] ∧
    shortId paddingDigest (Key.canonical samplePeer (keyOf "ipv4-flowspec" plainJson))
      ≠ shortId paddingDigest (Key.canonical samplePeer (keyOf "ipv4-flowspec" paddedJson)) := by
  decide

theorem paddingDigest_injOn : Set.InjOn (shortId paddingDigest)
    {Key.canonical samplePeer (keyOf Wire.Family.ipv4Flowspec.label plainJson),
      Key.canonical samplePeer (keyOf Wire.Family.ipv4Flowspec.label paddedJson)} := by
  obtain ⟨-, -, -, -, hne⟩ := paddingFacts
  rintro t (rfl | rfl) t' (rfl | rfl) h
  · rfl
  · exact absurd h hne
  · exact absurd h.symm hne
  · rfl

/-- It holds of these two. -/
theorem flowspecPadding_iff_destination :
    (SameText 1 1 20 [10, 0, 0x10] [10, 0, 0x1f]
      ↔ ([10, 0, 0x10] : Bytes) = [10, 0, 0x1f]) ∧
    ∃ cs cs', Wire.rawRule plainRule 1 = .ok cs ∧ Wire.rawRule paddedRule 1 = .ok cs' ∧
      (List.Forall₂ RawComponent.Alike cs cs' →
        (Removes paddingDigest samplePeer "ipv4-flowspec" plainJson paddedJson ↔
          ∀ kind, (ofKind kind cs).getLast? = (ofKind kind cs').getLast?)) := by
  obtain ⟨htexts, hrules⟩ :=
    @flowspecPadding_iff paddingDigest samplePeer .ipv4Flowspec rfl
  exact ⟨htexts 1 20 _ _ (Or.inl rfl) (by decide) rfl rfl (by decide),
    hrules plainRule paddedRule plainJson paddedJson (by decide) (by decide) paddingFacts.1
      paddingFacts.2.1 paddingDigest_injOn⟩

/-- The texts are different, and the one rule is not removed by the withdrawal of the other. -/
theorem plainRule_not_removed :
    (∀ i < 20, bitAt [10, 0, 0x10] i = bitAt [10, 0, 0x1f] i) ∧
    ¬ SameText 1 1 20 [10, 0, 0x10] [10, 0, 0x1f] ∧
    ∃ cs cs', Wire.rawRule plainRule 1 = .ok cs ∧ Wire.rawRule paddedRule 1 = .ok cs' ∧
      List.Forall₂ RawComponent.Alike cs cs' ∧
      Wire.components plainRule 1 = .ok plainJson ∧ Wire.components paddedRule 1 = .ok paddedJson ∧
      ¬ Removes paddingDigest samplePeer "ipv4-flowspec" plainJson paddedJson := by
  have hbits : ∀ i < 20, bitAt [10, 0, 0x10] i = bitAt [10, 0, 0x1f] i := by decide
  obtain ⟨hplain, hpadded, hraw, hraw', hne⟩ := paddingFacts
  refine ⟨hbits, ?_, _, _, hraw, hraw', .cons ⟨rfl, rfl, hbits⟩ .nil, hplain, hpadded, ?_⟩
  · rw [Wire.sameText_iff (Or.inl rfl) (Or.inl rfl) (by decide) rfl rfl]
    decide
  · have hremoves := @removes_iff paddingDigest samplePeer .ipv4Flowspec rfl plainRule paddedRule
      (by decide) (by decide) plainJson paddedJson hplain hpadded paddingDigest_injOn
    -- the same rule would have the one id
    exact fun h => hne (by rw [hremoves.mp h])

end Rib
