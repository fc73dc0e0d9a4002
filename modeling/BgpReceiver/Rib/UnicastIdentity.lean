import BgpReceiver.Rib.Cancellation
import BgpReceiver.Rib.Search

/-!
# Unicast prefixes in the store

A unicast route is identified by the label of its family and the text of its prefix. The text
is the same for all octets with the same length and the same bits up to there, and it does not
matter in which place of an UPDATE they stand (`canonicalIds`).

So a withdrawal takes the row of an announcement away, if it is reported. Of the places that
withdraw routes of a family the last one is reported, and a prefix that is withdrawn in
another place keeps its row (`unicast_withdrawn_iff`).
-/

namespace Rib

open Bits (bitAt)
open Wire (Net RawPrefix RawUpdate Source)

/-! ### Networks -/

/-- Prefixes of one family and one length, with the same bits up to there. -/
structure SameNet (n n' : Net) : Prop where
  family : n.family = n'.family
  bits : n.bits = n'.bits
  leading : ∀ i < n.bits, bitAt n.pfx.raw i = bitAt n'.pfx.raw i

/-- Two prefixes have one text exactly when they are one prefix. -/
theorem text_eq_iff_sameNet {n n' : Net} : n.text = n'.text ↔ SameNet n n' :=
  Net.text_eq_iff.trans ⟨fun ⟨hf, hb, hl⟩ => ⟨hf, hb, hl⟩, fun h => ⟨h.family, h.bits, h.leading⟩⟩

/-- The key of a prefix. -/
def netKey (n : Net) : Key := .unicast n.family.label (.str n.text)

theorem netKey_eq_of_sameNet {n n' : Net} (h : SameNet n n') : netKey n = netKey n' := by
  rw [netKey, netKey, h.family, text_eq_iff_sameNet.mpr h]

theorem familyOf_net (n : Net) : familyOf n.family.label = .unicast :=
  (familyOf_unicast_iff n.family).mpr n.safi

theorem afi_cases (f : Wire.Family) : f.afi = 1 ∨ f.afi = 2 := by
  cases f <;> simp [Wire.Family.afi]

/-! ### Places -/

/-- The route of a prefix in a place. -/
def routeIn (s : Source) (n : Net) : Json := Wire.routeJson n.text s.nextHop

/-- The key of a route in its group is that of its prefix. -/
theorem keyOf_routeIn {s : Source} {n : Net} (h : s.family = n.family) :
    keyOf s.family.label (routeIn s n) = netKey n := by
  rw [h, keyOf_unicast (familyOf_net n), routeIn, index_prefix_routeJson]
  rfl

/-- The routes of a place are those of the prefixes that it lists. -/
theorem mem_routes_iff {s : Source} (hs : s.family.safi = 1) {routes : List Json}
    (hd : s.decoded = .ok routes) {route : Json} :
    route ∈ s.routes ↔ ∃ n, Lists s n ∧ route = routeIn s n := by
  obtain ⟨family, octets, hop⟩ := s
  have hunicast : Source.decoded ⟨family, octets, hop⟩ = Wire.unicast octets family.afi hop :=
    if_neg (by rw [show family.safi = 1 from hs]; decide)
  rw [Source.routes_of_decoded hd]
  rw [hunicast] at hd
  -- the routes are the prefixes that the octets spell
  obtain ⟨ps, hoctets, rfl⟩ := (Wire.unicast_ok_iff_prefixes (afi_cases family)).mp hd
  rw [List.mem_map]
  constructor
  · rintro ⟨p, hp, rfl⟩
    exact ⟨⟨family, hs, p⟩, ⟨rfl, ps, hoctets, hp⟩, rfl⟩
  · rintro ⟨⟨family', hs', p⟩, ⟨hfamily, qs, hqs, hp⟩, rfl⟩
    obtain rfl : family = family' := hfamily
    -- the octets spell one list of prefixes only
    rw [Wire.flatMap_octets_inj (hoctets.symm.trans hqs)]
    exact ⟨p, hp, rfl⟩

/-- A source that lists a prefix is decoded. -/
theorem Lists.decoded {s : Source} {n : Net} (h : Lists s n) :
    ∃ routes, s.decoded = .ok routes := by
  obtain ⟨family, octets, hop⟩ := s
  obtain ⟨hfamily, ps, hoctets, -⟩ := h
  obtain rfl : family = n.family := hfamily
  obtain rfl : octets = _ := hoctets
  have hunicast : Source.decoded ⟨n.family, ps.flatMap RawPrefix.octets, hop⟩
      = Wire.unicast (ps.flatMap RawPrefix.octets) n.family.afi hop :=
    if_neg (by rw [n.safi]; decide)
  exact ⟨_, hunicast.trans ((Wire.unicast_ok_iff_prefixes (afi_cases _)).mpr ⟨ps, rfl, rfl⟩)⟩

/-- **What identifies a unicast route.** -/
structure CanonicalIds (digest : Bytes → Vector UInt8 20) (peer : String) : Prop where
  /-- Every prefix is decoded to its text. -/
  decoded : ∀ (n : Net) (hop : Option String),
    Wire.unicast n.pfx.octets n.family.afi hop = .ok [Wire.routeJson n.text hop]
  /-- The text is that of the leading bits. -/
  text : ∀ n n' : Net, n.text = n'.text ↔ SameNet n n'
  /-- The id is the same in every place. -/
  id : ∀ (s s' : Source) (n n' : Net), Lists s n → Lists s' n' → SameNet n n' →
    routeIn s n ∈ s.routes ∧ routeIn s' n' ∈ s'.routes ∧
      routeId digest peer (keyOf s.family.label (routeIn s n))
        = routeId digest peer (keyOf s'.family.label (routeIn s' n'))

/-- **The ids are canonical**: one for each prefix, wherever it is carried. -/
theorem canonicalIds (digest : Bytes → Vector UInt8 20) (peer : String) :
    CanonicalIds digest peer where
  decoded n hop := (Wire.unicast_ok_iff_prefixes (afi_cases n.family)).mpr
    ⟨[n.pfx], (List.flatMap_singleton ..).symm, rfl⟩
  text n n' := text_eq_iff_sameNet
  id s s' n n' h h' hsame := by
    -- a prefix that a source lists is one of its routes
    have hmem : ∀ {s : Source} {n : Net}, Lists s n → routeIn s n ∈ s.routes := by
      intro s n h
      obtain ⟨routes, hd⟩ := h.decoded
      exact (mem_routes_iff (h.1 ▸ n.safi) hd).mpr ⟨n, h, rfl⟩
    refine ⟨hmem h, hmem h', ?_⟩
    rw [keyOf_routeIn h.1, keyOf_routeIn h'.1, netKey_eq_of_sameNet hsame]

/-- The last place of its family lists the prefix. -/
def LastLists (sources : List Source) (n : Net) : Prop :=
  ∃ s ∈ (Wire.sourcesOf n.family sources).getLast?, ∃ m, Lists s m ∧ SameNet n m

/-- **A prefix is reported** when the last place of its family lists it. -/
theorem netKey_mem_keysOf_iff {r : RawUpdate} {u : Json} {kind : UpdateKind}
    (hd : ∀ s ∈ sourcesFor r kind, ∃ routes, s.decoded = .ok routes)
    (hu : (u.index kind.text).asObject = some (Wire.store [] (sourcesFor r kind))) {n : Net} :
    netKey n ∈ keysOf u kind ↔ LastLists (sourcesFor r kind) n := by
  -- the last source of a family is one of the UPDATE
  have hlast : ∀ {f : Wire.Family}, ∀ s ∈ (Wire.sourcesOf f (sourcesFor r kind)).getLast?,
      s ∈ sourcesFor r kind ∧ s.family = f := by
    intro f s hs
    have hmem := List.mem_filter.mp (List.mem_of_mem_getLast? hs)
    exact ⟨hmem.1, of_decide_eq_true hmem.2⟩
  rw [mem_keysOf_iff]
  simp only [routesOf_eq_reported hu, mem_reported_iff]
  constructor
  · -- the key tells the family and the text, and the text tells the leading bits
    rintro ⟨label, route, ⟨f, rfl, s, hs, hroute⟩, hkey⟩
    obtain ⟨hmem, rfl⟩ := hlast s hs
    have hlabel : s.family = n.family := by
      have h := congrArg Key.label hkey
      rw [keyOf_label] at h
      exact Wire.Family.label_injective h
    obtain ⟨routes, hdec⟩ := hd s hmem
    obtain ⟨m, hm, rfl⟩ := (mem_routes_iff (hlabel ▸ n.safi) hdec).mp hroute
    rw [keyOf_routeIn hm.1] at hkey
    have htext : m.text = n.text := Json.str.inj (Key.unicast.inj hkey).2
    exact ⟨s, hlabel ▸ hs, m, hm, text_eq_iff_sameNet.mp htext.symm⟩
  · rintro ⟨s, hs, m, hm, hsame⟩
    obtain ⟨hmem, hfamily⟩ := hlast s hs
    obtain ⟨routes, hdec⟩ := hd s hmem
    refine ⟨n.family.label, routeIn s m, ⟨n.family, rfl, s, hs, ?_⟩, ?_⟩
    · exact (mem_routes_iff (hfamily ▸ n.safi) hdec).mpr ⟨m, hm, rfl⟩
    · rw [← hfamily, keyOf_routeIn hm.1, netKey_eq_of_sameNet hsame]

/-! ### The row of a prefix -/

section

variable {digest : Bytes → Vector UInt8 20} {peer : String}

/-- There is no row of a key from a peer. -/
def Vacant (d : Data) (peer : String) (k : Key) : Prop :=
  ∀ row ∈ d.routes.values, row.key = k → row.peer ≠ peer

/-- There is none when there is none under its id. -/
theorem vacant_iff {d : Data} (hi : Indexed d) (hl : Labelled digest d) {k : Key} :
    Vacant d peer k ↔
      ∀ row, d.byId (routeId digest peer k) = some row → row.key = k → row.peer ≠ peer := by
  constructor
  · intro h row hrow
    exact h row (d.routes.mem_values_iff.mpr (hi.row_of_byId hrow).1)
  · rintro h row hrow rfl rfl
    obtain ⟨s, hs⟩ := d.routes.mem_values_iff.mp hrow
    have hid := hi.byId_of_row hs
    rw [hl row.id row hid] at hid
    exact h row hid rfl rfl

/-- **When an update leaves no row of a key**: when it withdraws the key, or when there was
no row and it does not announce the key. -/
theorem applyUpdate_vacant_iff {o : Outside} {u : Json} (hu : Decoded u) {d d' : Data}
    (hc : Consistent d) (hc' : Consistent d') (hl : Labelled digest d) (hl' : Labelled digest d')
    (ha : applyUpdate digest o u peer d = some d') {k : Key}
    (hinj : Set.InjOn (routeId digest peer) (insert k {k' | Mentions u k'})) :
    Vacant d' peer k ↔ k ∈ keysOf u .withdraw ∨ (Vacant d peer k ∧ k ∉ keysOf u .announce) := by
  -- the digests of the keys in question are different
  have hids : ∀ kind,
      routeId digest peer k ∈ idsOf digest u peer kind ↔ k ∈ keysOf u kind := by
    intro kind
    refine routeId_mem_idsOf_iff hinj (fun k' hk' => Set.mem_insert_of_mem k ?_)
      (Set.mem_insert k _)
    cases kind with
    | announce => exact Or.inl hk'
    | withdraw => exact Or.inr hk'
  rw [vacant_iff hc'.indexed hl', vacant_iff hc.indexed hl]
  by_cases hw : k ∈ keysOf u .withdraw
  · -- withdrawals come last
    rw [applyUpdate_withdrawn hc ha ((hids .withdraw).mpr hw)]
    simp [hw]
  have hw' := mt (hids .withdraw).mp hw
  by_cases hann : k ∈ keysOf u .announce
  · -- the row of the announcement is there
    refine iff_of_false (fun hvacant => ?_) (by simp [hw, hann])
    obtain ⟨e, hmem, hid, receivedAt, hrow⟩ :=
      applyUpdate_kept hc ha ((hids .announce).mpr hann) hw'
    have hkey : keyOf e.1 e.2 = k := hinj
      (Set.mem_insert_of_mem k (Or.inl (keyOf_mem_keysOf hmem))) (Set.mem_insert k _) hid
    refine hvacant _ hrow ?_ (entryOf_peer _ _ _ _ _)
    rw [entryOf_key (hu.index_prefix hmem), hkey]
  · -- the row of before is still the row of the id
    rw [applyUpdate_other hc ha (mt (hids .announce).mp hann) hw']
    simp [hw, hann]

/-- An UPDATE withdraws a prefix. -/
def Withdraws (r : RawUpdate) (n : Net) : Prop := ∃ s ∈ r.withdrawSources, Lists s n

/-- **When a withdrawal takes an announced prefix away**, in whichever places the two stand:
when the last place of the family lists it, or when there was no row before and the withdrawing
UPDATE does not announce the prefix itself. -/
theorem unicast_withdrawn_iff {d : Data} (hd : (labelled digest).Reachable d)
    {body₁ body₂ : Bytes} {asnLen₁ asnLen₂ : ℕ} {u₁ u₂ : Json}
    (hu₁ : Wire.update body₁ asnLen₁ = .ok u₁) (hu₂ : Wire.update body₂ asnLen₂ = .ok u₂)
    (o₁ o₂ : Outside) (peer : String) : CanonicalIds digest peer ∧
      ∃ r₁ r₂ : RawUpdate, r₁.Enc body₁ ∧ r₂.Enc body₂ ∧ ∃ d₁ d₂,
        applyUpdate digest o₁ u₁ peer d = some d₁ ∧ applyUpdate digest o₂ u₂ peer d₁ = some d₂ ∧
        ∀ n n', Announces r₁ n → Withdraws r₂ n' → SameNet n n' →
          Set.InjOn (routeId digest peer) (insert (netKey n) {k | Mentions u₂ k}) →
          (Vacant d₂ peer (netKey n) ↔ LastLists r₂.withdrawSources n ∨
            (Vacant d₁ peer (netKey n) ∧ ¬ LastLists r₂.announceSources n)) := by
  refine ⟨canonicalIds digest peer, ?_⟩
  obtain ⟨r₁, henc₁, -⟩ := groups_of_update hu₁
  obtain ⟨r₂, henc₂, hdec₂, hg₂⟩ := groups_of_update hu₂
  have hc := sections_consistent hd.of_restrict
  obtain ⟨d₁, -, h₁, -, hc₁⟩ := applyUpdate_run digest o₁ u₁ peer hc
  obtain ⟨d₂, -, h₂, -, hc₂⟩ := applyUpdate_run digest o₂ u₂ peer hc₁
  have hd₁ := applyUpdate_labelled ⟨_, _, hu₁⟩ hd h₁
  have hd₂ := applyUpdate_labelled ⟨_, _, hu₂⟩ hd₁ h₂
  refine ⟨r₁, r₂, henc₁, henc₂, d₁, d₂, h₁, h₂, fun n n' _ _ _ hinj => ?_⟩
  -- the second UPDATE decides from the state that the first has left
  have hstep := applyUpdate_vacant_iff ⟨_, _, hu₂⟩ hc₁ hc₂ (labelled_labelled hd₁)
    (labelled_labelled hd₂) h₂ hinj
  rwa [netKey_mem_keysOf_iff (hdec₂ .withdraw) (hg₂ .withdraw),
    netKey_mem_keysOf_iff (hdec₂ .announce) (hg₂ .announce)] at hstep

end

/-! An announcement of 192.0.2.0/24 and two withdrawals. -/

/-- 192.0.2.0/24. -/
def sampleNet : Net := ⟨.ipv4Unicast, rfl, ⟨24, [192, 0, 2], by decide, rfl⟩⟩

/-- It is announced in the classic field. -/
def announceUpdate : RawUpdate := ⟨[], [], [24, 192, 0, 2]⟩

/-- It is withdrawn in the classic field. -/
def withdrawUpdate : RawUpdate := ⟨[24, 192, 0, 2], [], []⟩

/-- It withdraws the prefix in MP_UNREACH_NLRI, and 198.51.100.0/24 in the classic field. -/
def splitUpdate : RawUpdate where
  withdrawn := [24, 198, 51, 100]
  attrs := [⟨0x80, 15, [0, 1, 1, 24, 192, 0, 2]⟩]
  nlri := []

/-- The octets list it, whatever the next hop. -/
theorem lists_sampleNet (hop : Option String) :
    Lists ⟨.ipv4Unicast, [24, 192, 0, 2], hop⟩ sampleNet :=
  ⟨rfl, [sampleNet.pfx], rfl, List.mem_singleton_self _⟩

theorem announceUpdate_announces : Announces announceUpdate sampleNet :=
  ⟨_, List.mem_singleton_self _, lists_sampleNet _⟩

/-- The ids of the prefix and of what such an UPDATE mentions do not collide. -/
theorem sampleNet_injOn {u : Json}
    (h : ∀ k ∈ keysOf u .announce ++ keysOf u .withdraw, k ∈ sampleKeys) :
    Set.InjOn (routeId sampleDigest samplePeer) (insert (netKey sampleNet) {k | Mentions u k}) := by
  refine sampleKeys_injOn.mono ?_
  rintro k (rfl | hk)
  · exact List.mem_cons_self
  · exact h k (List.mem_append.mpr hk)

/-- It holds of the announcement and the withdrawal in the classic fields. -/
theorem unicast_withdrawn_iff_classic : CanonicalIds sampleDigest samplePeer ∧
    ∃ u₁ u₂ d₁ d₂, Wire.update announceUpdate.octets 4 = .ok u₁ ∧
      Wire.update withdrawUpdate.octets 4 = .ok u₂ ∧
      announceUpdate.Enc announceUpdate.octets ∧ withdrawUpdate.Enc withdrawUpdate.octets ∧
      applyUpdate sampleDigest sampleOutside u₁ samplePeer (Data.new none) = some d₁ ∧
      applyUpdate sampleDigest sampleOutside u₂ samplePeer d₁ = some d₂ ∧
      (Vacant d₂ samplePeer (netKey sampleNet) ↔
        LastLists withdrawUpdate.withdrawSources sampleNet ∨
        (Vacant d₁ samplePeer (netKey sampleNet) ∧
          ¬ LastLists withdrawUpdate.announceSources sampleNet)) := by
  have hu₁ := @updateOf_ok announceUpdate.octets 4 (by decide)
  have hu₂ := @updateOf_ok withdrawUpdate.octets 4 (by decide)
  -- the keys of both are among those that the digest tells apart
  have hkeys : ∀ k ∈ keysOf (updateOf withdrawUpdate.octets 4) .announce
      ++ keysOf (updateOf withdrawUpdate.octets 4) .withdraw, k ∈ sampleKeys := by
    decide
  obtain ⟨hids, r₁, r₂, henc₁, henc₂, d₁, d₂, h₁, h₂, hiff⟩ :=
    @unicast_withdrawn_iff sampleDigest (Data.new none) (.init ⟨none, rfl⟩) _ _ 4 4 _ _ hu₁ hu₂
      sampleOutside sampleOutside samplePeer
  -- the two bodies are those of the sample
  obtain rfl := henc₁.unique (Wire.RawUpdate.enc_octets (by decide))
  obtain rfl := henc₂.unique (Wire.RawUpdate.enc_octets (by decide))
  exact ⟨hids, _, _, d₁, d₂, hu₁, hu₂, henc₁, henc₂, h₁, h₂,
    hiff sampleNet sampleNet announceUpdate_announces
      ⟨_, List.mem_singleton_self _, lists_sampleNet _⟩ (text_eq_iff_sameNet.mp rfl)
      (sampleNet_injOn hkeys)⟩

/-- The row is still there when the classic field withdraws another prefix. -/
theorem splitUpdate_not_vacant :
    ∃ u₁ u₂ d₁ d₂, Wire.update announceUpdate.octets 4 = .ok u₁ ∧
      Wire.update splitUpdate.octets 4 = .ok u₂ ∧
      announceUpdate.Enc announceUpdate.octets ∧ splitUpdate.Enc splitUpdate.octets ∧
      (labelled sampleDigest).Reachable (Data.new none) ∧
      Announces announceUpdate sampleNet ∧ Withdraws splitUpdate sampleNet ∧
      applyUpdate sampleDigest sampleOutside u₁ samplePeer (Data.new none) = some d₁ ∧
      applyUpdate sampleDigest sampleOutside u₂ samplePeer d₁ = some d₂ ∧
      ¬ Vacant d₂ samplePeer (netKey sampleNet) := by
  have hu₁ := @updateOf_ok announceUpdate.octets 4 (by decide)
  have hu₂ := @updateOf_ok splitUpdate.octets 4 (by decide)
  have hkeys : ∀ u ∈ [updateOf announceUpdate.octets 4, updateOf splitUpdate.octets 4],
      (∀ k ∈ keysOf u .announce ++ keysOf u .withdraw, k ∈ sampleKeys) ∧
        netKey sampleNet ∉ keysOf u .withdraw := by
    decide
  have hann : netKey sampleNet ∈ keysOf (updateOf announceUpdate.octets 4) .announce := by
    decide
  obtain ⟨hkeys₁, hw₁⟩ := hkeys _ (.head _)
  obtain ⟨hkeys₂, hw₂⟩ := hkeys _ (.tail _ (.head _))
  -- both UPDATEs are applied to the empty store, one after the other
  have hreach : (labelled sampleDigest).Reachable (Data.new none) := .init ⟨none, rfl⟩
  have hc := sections_consistent hreach.of_restrict
  obtain ⟨d₁, -, h₁, -, hc₁⟩ := applyUpdate_run sampleDigest sampleOutside
    (updateOf announceUpdate.octets 4) samplePeer hc
  obtain ⟨d₂, -, h₂, -, hc₂⟩ := applyUpdate_run sampleDigest sampleOutside
    (updateOf splitUpdate.octets 4) samplePeer hc₁
  have hd₁ := applyUpdate_labelled ⟨_, _, hu₁⟩ hreach h₁
  have hd₂ := applyUpdate_labelled ⟨_, _, hu₂⟩ hd₁ h₂
  have hwithdraws : Withdraws splitUpdate sampleNet := by
    refine ⟨⟨.ipv4Unicast, [24, 192, 0, 2], none⟩, ?_, lists_sampleNet none⟩
    exact List.mem_append_left _ (List.mem_singleton_self _)
  refine ⟨_, _, d₁, d₂, hu₁, hu₂, Wire.RawUpdate.enc_octets (by decide),
    Wire.RawUpdate.enc_octets (by decide), hreach, announceUpdate_announces,
    hwithdraws, h₁, h₂, ?_⟩
  -- the first leaves a row, and the second does not report the withdrawal of the prefix
  rw [applyUpdate_vacant_iff ⟨_, _, hu₂⟩ hc₁ hc₂ (labelled_labelled hd₁) (labelled_labelled hd₂) h₂
    (sampleNet_injOn hkeys₂), applyUpdate_vacant_iff ⟨_, _, hu₁⟩ hc hc₁ (labelled_labelled hreach)
    (labelled_labelled hd₁) h₁ (sampleNet_injOn hkeys₁)]
  simp [hw₁, hw₂, hann]

end Rib
