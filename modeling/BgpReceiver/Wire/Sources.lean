import BgpReceiver.Wire.Nlri

/-!
# Where the routes of an UPDATE come from

The routes of a family stand in up to three kinds of places: in MP_REACH_NLRI and
MP_UNREACH_NLRI attributes, of which there may be any number, and for IPv4 unicast
in the two classic fields. A `Source` is one such place. `RawUpdate.announceSources`
and `RawUpdate.withdrawSources` list them in the order in which `update` meets
them.

`update` stores the routes of every source under the label of its family, and
storing replaces what is there. So the last source of a family is the one whose
routes are reported (`routesUnder_store`), and no route is lost exactly when every
other source of the family is empty (`collects_iff`).

An UPDATE whose sources are all decoded is taken (`RawUpdate.Enc.taken`).
-/

namespace Wire

/-! ### Families -/

/-- The families whose routes are decoded. -/
inductive Family where
  | ipv4Unicast
  | ipv4Flowspec
  | ipv6Unicast
  | ipv6Flowspec
  deriving DecidableEq

namespace Family

/-- The address family. -/
def afi : Family → ℕ
  | ipv4Unicast | ipv4Flowspec => 1
  | ipv6Unicast | ipv6Flowspec => 2

/-- The subsequent address family. -/
def safi : Family → UInt8
  | ipv4Unicast | ipv6Unicast => 1
  | ipv4Flowspec | ipv6Flowspec => 133

/-- The label the routes of the family are reported under. -/
def label : Family → String
  | ipv4Unicast => "ipv4-unicast"
  | ipv4Flowspec => "ipv4-flowspec"
  | ipv6Unicast => "ipv6-unicast"
  | ipv6Flowspec => "ipv6-flowspec"

theorem label_injective : Function.Injective label := by
  intro f g h
  cases f <;> cases g <;> first | rfl | exact absurd h (by decide)

end Family

/-- The family that an MP header names. -/
def MpHeader.family? (h : MpHeader) : Option Family :=
  match h.afi, h.safi with
  | 1, 1 => some .ipv4Unicast
  | 1, 133 => some .ipv4Flowspec
  | 2, 1 => some .ipv6Unicast
  | 2, 133 => some .ipv6Flowspec
  | _, _ => none

/-- A header is of a decoded family when its numbers are those of one. -/
theorem MpHeader.family?_eq_some {h : MpHeader} {f : Family} :
    h.family? = some f ↔ h.afi = f.afi ∧ h.safi = f.safi := by
  obtain ⟨afi, safi, hop⟩ := h
  unfold MpHeader.family?
  constructor
  · intro hf
    simp only at hf
    split at hf <;> first | cases hf; exact ⟨rfl, rfl⟩ | exact absurd hf (by simp)
  · rintro ⟨rfl, rfl⟩
    cases f <;> rfl

/-- The families that `update` decodes are the four of them. -/
theorem MpHeader.known_iff {h : MpHeader} : h.known = true ↔ ∃ f, h.family? = some f := by
  obtain ⟨afi, safi, hop⟩ := h
  simp only [MpHeader.known, MpHeader.family?_eq_some, Bool.and_eq_true, Bool.or_eq_true,
    decide_eq_true_eq]
  constructor
  · -- two address families, and two kinds of routes in each
    rintro ⟨rfl | rfl, rfl | rfl⟩
    · exact ⟨.ipv4Unicast, rfl, rfl⟩
    · exact ⟨.ipv4Flowspec, rfl, rfl⟩
    · exact ⟨.ipv6Unicast, rfl, rfl⟩
    · exact ⟨.ipv6Flowspec, rfl, rfl⟩
  · rintro ⟨f, rfl, rfl⟩
    cases f <;> simp [Family.afi, Family.safi]

/-- Then its label is that of the family. -/
theorem MpHeader.label_of_family {h : MpHeader} {f : Family} (hf : h.family? = some f) :
    h.label = f.label := by
  obtain ⟨afi, safi, hop⟩ := h
  obtain ⟨ha, hs⟩ := MpHeader.family?_eq_some.mp hf
  simp only at ha hs
  subst ha hs
  cases f <;> rfl

/-! ### Sources -/

/-- A place in an UPDATE that holds routes of one family. Announced routes have a
next hop. -/
structure Source where
  family : Family
  octets : Bytes
  nextHop : Option String

/-- The routes of a source, by the decoder of its family. -/
def Source.decoded (s : Source) : Except String (List Json) :=
  if s.family.safi = 133 then flowspec s.octets s.family.afi
  else unicast s.octets s.family.afi s.nextHop

/-- The routes of a source, or none where it is malformed. -/
def Source.routes (s : Source) : List Json := s.decoded.toOption.getD []

theorem Source.routes_of_decoded {s : Source} {routes : List Json} (h : s.decoded = .ok routes) :
    s.routes = routes := by
  rw [Source.routes, h]
  rfl

/-- A decoded source has a route exactly when it has an octet. -/
theorem Source.routes_eq_nil_iff {s : Source} {routes : List Json} (h : s.decoded = .ok routes) :
    s.routes = [] ↔ s.octets = [] := by
  rw [s.routes_of_decoded h]
  -- an item of a reader takes at least one octet
  have hnil : ∀ {item : Reader String UInt8 Json} {data : Bytes},
      Reader.Items item data routes → (routes = [] ↔ data = []) := by
    intro item data hi
    cases hi with
    | nil => simp
    | cons hr hne _ => simp [hne]
  unfold Source.decoded at h
  split_ifs at h
  · exact hnil (flowspec_ok_iff.mp h)
  · exact hnil (unicast_ok_iff.mp h)

/-- The source in an attribute with the given code, if the attribute is one of a
known family. -/
def mpSource (code : UInt8) (a : RawAttr) : Option Source :=
  if a.code = code then
    match mpHeader code a.data with
    | .ok (h, nlri) =>
      h.family?.map fun f => ⟨f, nlri, if code = 14 then some h.nextHop else none⟩
    | .error _ => none
  else none

/-- The classic field as a source; an empty field is not looked at. -/
def classicSource (octets : Bytes) (nextHop : Option String) : List Source :=
  if octets = [] then [] else [⟨.ipv4Unicast, octets, nextHop⟩]

/-- The text of a NEXT_HOP attribute. -/
def hopText (a : RawAttr) : String := if a.data.length = 4 then nextHopString a.data else ""

/-- The next hop of the trailing NLRI field: that of the last NEXT_HOP attribute. -/
def RawUpdate.nextHop (r : RawUpdate) : String :=
  r.attrs.foldl (fun hop a => if a.code = 3 then hopText a else hop) ""

/-- The places that announce routes. -/
def RawUpdate.announceSources (r : RawUpdate) : List Source :=
  r.attrs.filterMap (mpSource 14) ++ classicSource r.nlri (some r.nextHop)

/-- The places that withdraw routes. -/
def RawUpdate.withdrawSources (r : RawUpdate) : List Source :=
  r.attrs.filterMap (mpSource 15) ++ classicSource r.withdrawn none

/-! ### What is stored -/

/-- The groups after the routes of some sources have been stored. -/
def store (groups : List (String × Json)) (sources : List Source) : List (String × Json) :=
  sources.foldl (fun m s => Entries.insert s.family.label (.arr s.routes) m) groups

/-- Sources behind others are stored behind them. -/
theorem store_append (groups : List (String × Json)) (sources sources' : List Source) :
    store groups (sources ++ sources') = store (store groups sources) sources' :=
  List.foldl_append

/-- The sources of one family. -/
def sourcesOf (f : Family) (sources : List Source) : List Source :=
  sources.filter (·.family = f)

/-- **Storing replaces.** Under the label of a family are the routes of its last
source. -/
theorem find_store (f : Family) (sources : List Source) :
    Entries.find f.label (store [] sources)
      = (sourcesOf f sources).getLast?.map fun s => .arr s.routes := by
  -- by induction from behind: the last source of a family is what is stored
  induction sources using List.reverseRecOn with
  | nil => rfl
  | append_singleton sources s ih =>
    rw [store_append]
    change Entries.find f.label
      (Entries.insert s.family.label (.arr s.routes) (store [] sources)) = _
    rw [Entries.find_insert, ih]
    unfold sourcesOf
    rw [List.filter_append]
    by_cases hf : s.family = f
    · rw [if_pos (by rw [hf]), List.filter_cons_of_pos (by simpa using hf), List.filter_nil,
        List.getLast?_append]
      rfl
    · rw [if_neg fun h => hf (Family.label_injective h).symm,
        List.filter_cons_of_neg (by simpa using hf), List.filter_nil, List.append_nil]

/-! ### The loop over the attributes -/

/-- The routes of an attribute of a decoded family are those of its source. -/
theorem mpRoutes_eq_decoded {code : UInt8} {h : MpHeader} {nlri : Bytes} {f : Family}
    (hf : h.family? = some f) :
    mpRoutes code h nlri
      = Source.decoded ⟨f, nlri, if code = 14 then some h.nextHop else none⟩ := by
  obtain ⟨ha, hs⟩ := MpHeader.family?_eq_some.mp hf
  unfold mpRoutes Source.decoded
  rw [ha, hs]

/-- What one MP attribute does to the groups: its source, if it is one, has been
decoded and its routes have been stored. -/
theorem mpStep_ok {acc acc' : UpdateAcc} {a : RawAttr} (hcode : a.code = 14 ∨ a.code = 15)
    (h : mpStep acc a = .ok acc') :
    acc'.announce = store acc.announce (mpSource 14 a).toList ∧
      acc'.withdraw = store acc.withdraw (mpSource 15 a).toList ∧
      acc'.nextHop = acc.nextHop ∧
      ∀ code, ∀ s ∈ mpSource code a, ∃ routes, s.decoded = .ok routes := by
  unfold mpStep at h
  simp only [Reader.bind_eq_ok_iff] at h
  obtain ⟨⟨hd, nlri⟩, hh, h⟩ := h
  -- an attribute is a source of its own code only
  have hother : ∀ code, a.code ≠ code → mpSource code a = none := fun code hne => if_neg hne
  have hself : mpSource a.code a
      = hd.family?.map fun f => ⟨f, nlri, if a.code = 14 then some hd.nextHop else none⟩ := by
    rw [mpSource, if_pos rfl, hh]
  by_cases hk : hd.known
  · obtain ⟨f, hf⟩ := MpHeader.known_iff.mp hk
    simp only [hk, if_true, Reader.bind_eq_ok_iff] at h
    obtain ⟨routes, hr, h⟩ := h
    rw [mpRoutes_eq_decoded hf] at hr
    rw [hf, Option.map_some] at hself
    have hdec : ∀ code, ∀ s ∈ mpSource code a, ∃ routes, s.decoded = .ok routes := by
      intro code s hs
      by_cases hc : a.code = code
      · subst hc
        rw [hself] at hs
        obtain rfl := Option.some.inj hs
        exact ⟨routes, hr⟩
      · rw [hother code hc] at hs
        exact absurd hs (by simp)
    have hroutes := Source.routes_of_decoded hr
    rcases hcode with hc | hc
    · rw [hc] at h hself hroutes
      obtain rfl := Except.ok.inj h
      refine ⟨?_, ?_, ?_, hdec⟩
      · rw [hself, MpHeader.label_of_family hf]
        change _ = Entries.insert f.label _ acc.announce
        rw [hroutes]
        split_ifs <;> rfl
      · rw [hother 15 (by rw [hc]; decide)]
        simp only
        split_ifs <;> rfl
      · simp only
        split_ifs <;> rfl
    · rw [hc] at h hself hroutes
      obtain rfl := Except.ok.inj h
      refine ⟨?_, ?_, ?_, hdec⟩
      · rw [hother 14 (by rw [hc]; decide)]
        simp only
        split_ifs <;> rfl
      · rw [hself, MpHeader.label_of_family hf]
        change _ = Entries.insert f.label _ acc.withdraw
        rw [hroutes]
        split_ifs <;> rfl
      · simp only
        split_ifs <;> rfl
  · -- a family that is not decoded leaves everything as it is
    have hnone : hd.family? = none := by
      cases hf : hd.family? with
      | none => rfl
      | some f => exact absurd (MpHeader.known_iff.mpr ⟨f, hf⟩) hk
    have hall : ∀ code, mpSource code a = none := by
      intro code
      by_cases hc : a.code = code
      · subst hc
        rw [hself, hnone, Option.map_none]
      · exact hother code hc
    simp only [hk, Bool.false_eq_true, if_false] at h
    obtain rfl := Except.ok.inj h
    refine ⟨by rw [hall]; rfl, by rw [hall]; rfl, rfl, fun code s hs => ?_⟩
    rw [hall] at hs
    exact absurd hs (by simp)

/-- The record of NEXT_HOP has the text of the hop, as the classic routes take it from there. -/
theorem attrRecord_hopText {asnLen : ℕ} {a : RawAttr} (h : a.code = 3) :
    ((attrRecord asnLen a).index "value").asStr.getD "" = hopText a := by
  unfold attrRecord hopText attributeValue
  rw [h]
  by_cases hlen : a.data.length = 4
  · simp [hlen, Json.index]
  · simp [hlen, Json.index, Entries.find_cons]

/-- **One turn of the loop.** The routes of an attribute are stored if it is a
source, and a NEXT_HOP attribute replaces the next hop. -/
theorem attrStep_ok {asnLen : ℕ} {acc acc' : UpdateAcc} {a : RawAttr}
    (h : attrStep asnLen acc a = .ok acc') :
    acc'.announce = store acc.announce (mpSource 14 a).toList ∧
      acc'.withdraw = store acc.withdraw (mpSource 15 a).toList ∧
      acc'.nextHop = (if a.code = 3 then hopText a else acc.nextHop) ∧
      ((∀ s ∈ mpSource 14 a, ∃ routes, s.decoded = .ok routes) ∧
        ∀ s ∈ mpSource 15 a, ∃ routes, s.decoded = .ok routes) := by
  unfold attrStep at h
  simp only [Reader.bind_eq_ok_iff] at h
  obtain ⟨acc₁, h₁, h⟩ := h
  obtain rfl := Except.ok.inj h
  simp only
  by_cases hcode : a.code = 14 ∨ a.code = 15
  · rw [if_pos hcode] at h₁
    -- an MP attribute is no NEXT_HOP, so the two writes do not meet
    have h3 : a.code ≠ 3 := by rcases hcode with h | h <;> rw [h] <;> decide
    have h16 : ¬ (a.code = 16 ∨ a.code = 25) := by
      rcases hcode with h | h <;> rw [h] <;> decide
    rw [if_neg h3, if_neg h16] at h₁
    obtain ⟨ha, hw, hn, hd⟩ := mpStep_ok hcode h₁
    rw [if_neg h3]
    exact ⟨ha, hw, hn, hd 14, hd 15⟩
  · rw [if_neg hcode] at h₁
    have hnone : ∀ code, (code = 14 ∨ code = 15) → mpSource code a = none := by
      intro code hc
      refine if_neg fun he => hcode ?_
      rwa [he]
    rw [hnone 14 (Or.inl rfl), hnone 15 (Or.inr rfl)]
    obtain rfl := Except.ok.inj h₁
    refine ⟨?_, ?_, ?_, by simp, by simp⟩
    · split_ifs <;> rfl
    · split_ifs <;> rfl
    · split_ifs with h16 h3 h3
      · exact attrRecord_hopText h3
      · rfl
      · exact attrRecord_hopText h3
      · rfl

/-- **The whole loop.** -/
theorem foldlM_attrStep {asnLen : ℕ} {attrs : List RawAttr} {acc walked : UpdateAcc}
    (h : attrs.foldlM (attrStep asnLen) acc = .ok walked) :
    walked.announce = store acc.announce (attrs.filterMap (mpSource 14)) ∧
      walked.withdraw = store acc.withdraw (attrs.filterMap (mpSource 15)) ∧
      walked.nextHop
        = attrs.foldl (fun hop a => if a.code = 3 then hopText a else hop) acc.nextHop ∧
      ((∀ s ∈ attrs.filterMap (mpSource 14), ∃ routes, s.decoded = .ok routes) ∧
        ∀ s ∈ attrs.filterMap (mpSource 15), ∃ routes, s.decoded = .ok routes) := by
  induction attrs generalizing acc with
  | nil =>
    obtain rfl := Except.ok.inj h
    exact ⟨rfl, rfl, rfl, by simp, by simp⟩
  | cons a attrs ih =>
    rw [List.foldlM_cons, Reader.bind_eq_ok_iff] at h
    obtain ⟨acc₁, hs, h⟩ := h
    obtain ⟨ha, hw, hn, hd₁, hd₂⟩ := attrStep_ok hs
    obtain ⟨iha, ihw, ihn, ihd₁, ihd₂⟩ := ih h
    -- the source of the first attribute, if it is one, comes first
    have hcons : ∀ code, (a :: attrs).filterMap (mpSource code)
        = (mpSource code a).toList ++ attrs.filterMap (mpSource code) := by
      intro code
      rw [List.filterMap_cons]
      cases mpSource code a <;> rfl
    rw [hcons, hcons, List.foldl_cons]
    refine ⟨?_, ?_, ?_, fun s hs => ?_, fun s hs => ?_⟩
    · rw [store_append, ← ha, iha]
    · rw [store_append, ← hw, ihw]
    · rw [ihn, hn]
    · rcases List.mem_append.mp hs with hs | hs
      · exact hd₁ s (Option.mem_toList.mp hs)
      · exact ihd₁ s hs
    · rcases List.mem_append.mp hs with hs | hs
      · exact hd₂ s (Option.mem_toList.mp hs)
      · exact ihd₂ s hs

/-! ### The reported groups -/

/-- The next hop is put into actions only, so the routes stay. -/
@[simp] theorem replaceNextHop_announce (acc : UpdateAcc) :
    (replaceNextHop acc).announce = acc.announce := by
  unfold replaceNextHop
  split_ifs <;> rfl

@[simp] theorem replaceNextHop_withdraw (acc : UpdateAcc) :
    (replaceNextHop acc).withdraw = acc.withdraw := by
  unfold replaceNextHop
  split_ifs <;> rfl

@[simp] theorem replaceNextHop_nextHop (acc : UpdateAcc) :
    (replaceNextHop acc).nextHop = acc.nextHop := by
  unfold replaceNextHop
  split_ifs <;> rfl

/-- The Withdrawn Routes field is one more source of withdrawals. -/
theorem classicWithdraw_ok {acc acc' : UpdateAcc} {withdrawn : Bytes}
    (h : classicWithdraw acc withdrawn = .ok acc') :
    acc' = { acc with withdraw := store acc.withdraw (classicSource withdrawn none) } ∧
      ∀ s ∈ classicSource withdrawn none, ∃ routes, s.decoded = .ok routes := by
  unfold classicWithdraw at h
  unfold classicSource
  -- no octets are no source
  by_cases hnil : withdrawn = []
  · rw [if_neg (not_not.mpr hnil)] at h
    rw [if_pos hnil]
    obtain rfl := Except.ok.inj h
    exact ⟨rfl, by simp⟩
  · rw [if_pos hnil] at h
    rw [if_neg hnil]
    simp only [Reader.bind_eq_ok_iff] at h
    obtain ⟨routes, hr, h⟩ := h
    obtain rfl := Except.ok.inj h
    have hdec : Source.decoded ⟨.ipv4Unicast, withdrawn, none⟩ = .ok routes := hr
    refine ⟨?_, fun s hs => ⟨routes, by rw [List.mem_singleton.mp hs, hdec]⟩⟩
    rw [← Source.routes_of_decoded hdec]
    rfl

/-- The trailing NLRI field is one more source of announcements. -/
theorem classicAnnounce_ok {acc acc' : UpdateAcc} {nlri : Bytes}
    (h : classicAnnounce acc nlri = .ok acc') :
    acc' = { acc with announce := store acc.announce (classicSource nlri (some acc.nextHop)) } ∧
      ∀ s ∈ classicSource nlri (some acc.nextHop), ∃ routes, s.decoded = .ok routes := by
  unfold classicAnnounce at h
  unfold classicSource
  -- no octets are no source
  by_cases hnil : nlri = []
  · rw [if_neg (not_not.mpr hnil)] at h
    rw [if_pos hnil]
    obtain rfl := Except.ok.inj h
    exact ⟨rfl, by simp⟩
  · rw [if_pos hnil] at h
    rw [if_neg hnil]
    simp only [Reader.bind_eq_ok_iff] at h
    obtain ⟨routes, hr, h⟩ := h
    obtain rfl := Except.ok.inj h
    have hdec : Source.decoded ⟨.ipv4Unicast, nlri, some acc.nextHop⟩ = .ok routes := hr
    refine ⟨?_, fun s hs => ⟨routes, by rw [List.mem_singleton.mp hs, hdec]⟩⟩
    rw [← Source.routes_of_decoded hdec]
    rfl

/-- **What `update` reports.** The groups are what storing all sources in order
leaves, and every source decodes. -/
theorem parseUpdate_ok {body : Bytes} {asnLen : ℕ} {acc : UpdateAcc}
    (h : parseUpdate body asnLen = .ok acc) :
    ∃ r : RawUpdate, r.Enc body ∧ acc.announce = store [] r.announceSources ∧
      acc.withdraw = store [] r.withdrawSources ∧
      (∀ s ∈ r.announceSources, ∃ routes, s.decoded = .ok routes) ∧
      ∀ s ∈ r.withdrawSources, ∃ routes, s.decoded = .ok routes := by
  obtain ⟨-, r, henc, walked, hf, acc₁, hw, ha⟩ := parseUpdate_ok_iff.mp h
  -- the attributes store first, and the classic fields on top
  obtain ⟨hann, hwd, hhop, hd₁, hd₂⟩ := foldlM_attrStep hf
  obtain ⟨rfl, hdw⟩ := classicWithdraw_ok hw
  obtain ⟨rfl, hda⟩ := classicAnnounce_ok ha
  simp only [replaceNextHop_announce, replaceNextHop_withdraw, replaceNextHop_nextHop]
    at hda ⊢
  have hhop : walked.nextHop = r.nextHop := hhop
  rw [hhop] at hda ⊢
  refine ⟨r, henc, ?_, ?_, fun s hs => ?_, fun s hs => ?_⟩
  · rw [RawUpdate.announceSources, store_append, hann]
    rfl
  · rw [RawUpdate.withdrawSources, store_append, hwd]
    rfl
  · exact (List.mem_append.mp hs).elim (hd₁ s) (hda s)
  · exact (List.mem_append.mp hs).elim (hd₂ s) (hdw s)

@[simp] theorem index_announce_toJson (acc : UpdateAcc) :
    acc.toJson.index "announce" = .obj acc.announce := by
  simp [UpdateAcc.toJson, Json.index, Entries.find_cons]

@[simp] theorem index_withdraw_toJson (acc : UpdateAcc) :
    acc.toJson.index "withdraw" = .obj acc.withdraw := by
  simp [UpdateAcc.toJson, Json.index, Entries.find_cons]

/-- The routes reported for a family in one of the two groups; a label that is
missing has none. -/
def routesUnder (groups : Json) (f : Family) : List Json :=
  ((groups.index f.label).asArray).getD []

/-- **The last source of a family is reported.** -/
theorem routesUnder_store (f : Family) (sources : List Source) :
    routesUnder (.obj (store [] sources)) f
      = ((sourcesOf f sources).getLast?.map Source.routes).getD [] := by
  unfold routesUnder Json.index
  rw [Json.get_obj, find_store]
  cases (sourcesOf f sources).getLast? <;> rfl

/-! ### When an UPDATE is taken -/

/-- A multiprotocol attribute has its header. -/
def RawAttr.Headed (a : RawAttr) : Prop :=
  a.code = 14 ∨ a.code = 15 → ∃ p, mpHeader a.code a.data = .ok p

/-- A multiprotocol attribute is taken when its header is there and its routes are decoded. -/
theorem mpStep_taken {acc : UpdateAcc} {a : RawAttr} (hcode : a.code = 14 ∨ a.code = 15)
    (hh : a.Headed) (hd : ∀ s ∈ mpSource a.code a, ∃ routes, s.decoded = .ok routes) :
    ∃ acc', mpStep acc a = .ok acc' := by
  obtain ⟨⟨h, nlri⟩, hp⟩ := hh hcode
  unfold mpStep
  simp only [Reader.bind_eq_ok_iff, hp]
  by_cases hk : h.known
  · obtain ⟨f, hf⟩ := MpHeader.known_iff.mp hk
    have hself : mpSource a.code a
        = some ⟨f, nlri, if a.code = 14 then some h.nextHop else none⟩ := by
      rw [mpSource, if_pos rfl, hp]
      simp only [hf, Option.map_some]
    obtain ⟨routes, hr⟩ := hd _ hself
    rw [← mpRoutes_eq_decoded hf] at hr
    by_cases h14 : a.code = 14
    · exact ⟨_, _, rfl, by simp only [hk, if_true, hr, if_pos h14]; rfl⟩
    · exact ⟨_, _, rfl, by simp only [hk, if_true, hr, if_neg h14]; rfl⟩
  · -- an unknown family is passed over
    exact ⟨_, _, rfl, if_neg hk⟩

/-- An attribute with a header and with decoded routes is taken. -/
theorem attrStep_taken {a : RawAttr} (hh : a.Headed)
    (hd : ∀ code, code = 14 ∨ code = 15 → ∀ s ∈ mpSource code a, ∃ routes, s.decoded = .ok routes)
    (asnLen : ℕ) (acc : UpdateAcc) : ∃ acc', attrStep asnLen acc a = .ok acc' := by
  unfold attrStep
  simp only [Reader.bind_eq_ok_iff]
  by_cases hcode : a.code = 14 ∨ a.code = 15
  · simp only [if_pos hcode]
    obtain ⟨acc', h⟩ := mpStep_taken hcode hh (hd a.code hcode)
    exact ⟨_, acc', h, rfl⟩
  · simp only [if_neg hcode]
    exact ⟨_, _, rfl, rfl⟩

/-- A walk over such attributes goes through. -/
theorem foldlM_attrStep_taken {asnLen : ℕ} {attrs : List RawAttr} (hh : ∀ a ∈ attrs, a.Headed)
    (hd : ∀ code, code = 14 ∨ code = 15 →
      ∀ s ∈ attrs.filterMap (mpSource code), ∃ routes, s.decoded = .ok routes)
    (acc : UpdateAcc) : ∃ walked, attrs.foldlM (attrStep asnLen) acc = .ok walked := by
  induction attrs generalizing acc with
  | nil => exact ⟨acc, rfl⟩
  | cons a attrs ih =>
    -- a source of one attribute is one of the list
    have hmem : ∀ code, ∀ b ∈ a :: attrs, ∀ s ∈ mpSource code b,
        s ∈ (a :: attrs).filterMap (mpSource code) :=
      fun code b hb s hs => List.mem_filterMap.mpr ⟨b, hb, hs⟩
    obtain ⟨acc₁, h₁⟩ := attrStep_taken (hh a List.mem_cons_self)
      (fun code hcode s hs => hd code hcode s (hmem code a List.mem_cons_self s hs)) asnLen acc
    obtain ⟨walked, hw⟩ := ih (fun b hb => hh b (List.mem_cons_of_mem a hb))
      (fun code hcode s hs => by
        obtain ⟨b, hb, hs⟩ := List.mem_filterMap.mp hs
        exact hd code hcode s (hmem code b (List.mem_cons_of_mem a hb) s hs)) acc₁
    exact ⟨walked, by rw [List.foldlM_cons, h₁]; exact hw⟩

/-- The classic withdrawals are taken when they are decoded. -/
theorem classicWithdraw_taken {withdrawn : Bytes}
    (hd : ∀ s ∈ classicSource withdrawn none, ∃ routes, s.decoded = .ok routes) (acc : UpdateAcc) :
    ∃ acc', classicWithdraw acc withdrawn = .ok acc' := by
  unfold classicWithdraw
  by_cases hnil : withdrawn = []
  · exact ⟨_, if_neg (not_not.mpr hnil)⟩
  · rw [classicSource, if_neg hnil] at hd
    obtain ⟨routes, hr⟩ := hd _ (List.mem_singleton_self _)
    have hr : unicast withdrawn 1 none = .ok routes := hr
    exact ⟨_, by rw [if_pos hnil, hr]; rfl⟩

theorem classicAnnounce_taken {nlri : Bytes} {acc : UpdateAcc}
    (hd : ∀ s ∈ classicSource nlri (some acc.nextHop), ∃ routes, s.decoded = .ok routes) :
    ∃ acc', classicAnnounce acc nlri = .ok acc' := by
  unfold classicAnnounce
  by_cases hnil : nlri = []
  · exact ⟨_, if_neg (not_not.mpr hnil)⟩
  · rw [classicSource, if_neg hnil] at hd
    obtain ⟨routes, hr⟩ := hd _ (List.mem_singleton_self _)
    have hr : unicast nlri 1 (some acc.nextHop) = .ok routes := hr
    exact ⟨_, by rw [if_pos hnil, hr]; rfl⟩

/-- **When an UPDATE is taken**: when the headers of its multiprotocol attributes are there and
the routes of all sources are decoded. -/
theorem RawUpdate.Enc.taken {r : RawUpdate} {body : Bytes} (h : r.Enc body)
    (hh : ∀ a ∈ r.attrs, a.Headed)
    (hann : ∀ s ∈ r.announceSources, ∃ routes, s.decoded = .ok routes)
    (hwd : ∀ s ∈ r.withdrawSources, ∃ routes, s.decoded = .ok routes) {asnLen : ℕ}
    (hasn : asnLen = 2 ∨ asnLen = 4) : ∃ u, update body asnLen = .ok u := by
  have hd : ∀ code, code = 14 ∨ code = 15 →
      ∀ s ∈ r.attrs.filterMap (mpSource code), ∃ routes, s.decoded = .ok routes := by
    rintro code (rfl | rfl) s hs
    · exact hann s (List.mem_append_left _ hs)
    · exact hwd s (List.mem_append_left _ hs)
  obtain ⟨walked, hf⟩ := @foldlM_attrStep_taken asnLen r.attrs hh hd UpdateAcc.empty
  obtain ⟨-, -, hhop, -⟩ := foldlM_attrStep hf
  -- the withdrawn routes are decoded, and the announced ones behind them
  obtain ⟨acc₁, hw⟩ := classicWithdraw_taken (fun s hs => hwd s (List.mem_append_right _ hs))
    (replaceNextHop walked)
  -- the classic routes have the hop that the walk over the attributes left
  have hhop₁ : acc₁.nextHop = r.nextHop := by
    rw [(classicWithdraw_ok hw).1]
    exact (replaceNextHop_nextHop _).trans hhop
  obtain ⟨acc', ha⟩ := @classicAnnounce_taken r.nlri acc₁
    fun s hs => hann s (List.mem_append_right _ (hhop₁ ▸ hs))
  exact ⟨_, by rw [update, parseUpdate_ok_iff.mpr ⟨hasn, r, h, walked, hf, acc₁, hw, ha⟩]; rfl⟩

/-- The same of an UPDATE with attributes only. -/
theorem RawUpdate.Enc.taken_of_attrs {r : RawUpdate} {body : Bytes} (h : r.Enc body)
    (hw : r.withdrawn = []) (hn : r.nlri = []) (hh : ∀ a ∈ r.attrs, a.Headed)
    (hd : ∀ a ∈ r.attrs, ∀ code, code = 14 ∨ code = 15 →
      ∀ s ∈ mpSource code a, ∃ routes, s.decoded = .ok routes)
    {asnLen : ℕ} (hasn : asnLen = 2 ∨ asnLen = 4) : ∃ u, update body asnLen = .ok u := by
  refine h.taken hh (fun s hs => ?_) (fun s hs => ?_) hasn
  · rw [RawUpdate.announceSources, hn, classicSource, if_pos rfl, List.append_nil] at hs
    obtain ⟨a, ha, hs⟩ := List.mem_filterMap.mp hs
    exact hd a ha 14 (Or.inl rfl) s hs
  · rw [RawUpdate.withdrawSources, hw, classicSource, if_pos rfl, List.append_nil] at hs
    obtain ⟨a, ha, hs⟩ := List.mem_filterMap.mp hs
    exact hd a ha 15 (Or.inr rfl) s hs

/-! ### When no route is lost -/

/-- The routes reported for a family are those of all its sources. -/
def Collects (groups : Json) (sources : List Source) (f : Family) : Prop :=
  (routesUnder groups f).Perm ((sourcesOf f sources).flatMap Source.routes)

instance (groups : Json) (sources : List Source) (f : Family) :
    Decidable (Collects groups sources f) := inferInstanceAs (Decidable (List.Perm _ _))

/-- Every source of a family but the last is empty. -/
def Unshared (sources : List Source) (f : Family) : Prop :=
  ∀ s ∈ (sourcesOf f sources).dropLast, s.octets = []

/-- **Exactly when no route of a family is lost.** The last source is reported, so
the routes are all there if and only if the others have none. -/
theorem collects_iff {sources : List Source} (f : Family)
    (hd : ∀ s ∈ sources, ∃ routes, s.decoded = .ok routes) :
    Collects (.obj (store [] sources)) sources f ↔ Unshared sources f := by
  unfold Collects Unshared
  rw [routesUnder_store]
  -- the sources of one family are decoded as all are
  have hd' : ∀ s ∈ sourcesOf f sources, ∃ routes, s.decoded = .ok routes := fun s hs =>
    hd s (List.mem_of_mem_filter hs)
  generalize sourcesOf f sources = own at hd' ⊢
  induction own using List.reverseRecOn with
  | nil => simp
  | append_singleton front s _ =>
    rw [List.getLast?_append, List.getLast?_singleton, Option.some_or, Option.map_some,
      Option.getD_some, List.dropLast_concat, List.flatMap_append, List.flatMap_singleton]
    -- the last source of a family is stored, so the others must have had no routes
    have hfront : (∀ t ∈ front, t.octets = []) ↔ front.flatMap Source.routes = [] := by
      rw [List.flatMap_eq_nil_iff]
      refine forall₂_congr fun t ht => ?_
      obtain ⟨routes, hr⟩ := hd' t (List.mem_append_left _ ht)
      exact (Source.routes_eq_nil_iff hr).symm
    rw [hfront]
    constructor
    · intro hp
      have hlen := hp.length_eq
      rw [List.length_append] at hlen
      exact List.length_eq_zero_iff.mp (by omega)
    · intro hnil
      rw [hnil, List.nil_append]

/-- No NLRI of an UPDATE is lost. -/
def CollectsAll (v : Json) (r : RawUpdate) : Prop :=
  ∀ f, Collects (v.index "announce") r.announceSources f ∧
    Collects (v.index "withdraw") r.withdrawSources f

/-- No family has its routes in two places. -/
def UnsharedAll (r : RawUpdate) : Prop :=
  ∀ f, Unshared r.announceSources f ∧ Unshared r.withdrawSources f

/-- **When an accepted UPDATE keeps all its routes.** It does if and only if every
source of a family, other than the last, is empty; the content of the body is
unique (`RawUpdate.Enc.unique`). -/
theorem update_collectsAll_iff {body : Bytes} {asnLen : ℕ} {v : Json}
    (h : update body asnLen = .ok v) :
    ∃ r : RawUpdate, r.Enc body ∧ (CollectsAll v r ↔ UnsharedAll r) := by
  unfold update at h
  -- the body was accepted, so it was decoded
  cases hp : parseUpdate body asnLen with
  | error e =>
    rw [hp] at h
    exact absurd h (by simp [Except.map])
  | ok acc =>
    rw [hp] at h
    obtain rfl := Except.ok.inj h
    obtain ⟨r, henc, ha, hw, hda, hdw⟩ := parseUpdate_ok hp
    refine ⟨r, henc, forall_congr' fun f => and_congr ?_ ?_⟩
    · rw [← collects_iff f hda, ← ha, index_announce_toJson]
    · rw [← collects_iff f hdw, ← hw, index_withdraw_toJson]

/-- An UPDATE that withdraws 10.3.0.0/16 and announces 2001:db8::/32 in MP_REACH_NLRI and
10.2.0.0/16 in the trailing field. -/
def twoSourcesBody : Bytes :=
  [0, 3, 16, 10, 3, 0, 29, 0x80, 14, 26, 0, 2, 1, 16, 0x20, 0x01, 0x0d, 0xb8, 0, 0, 0, 0, 0, 0, 0,
    0, 0, 0, 0, 1, 0, 32, 0x20, 0x01, 0x0d, 0xb8, 16, 10, 2]

/-- It holds of this UPDATE, which has a source of each of two families. -/
theorem update_collectsAll_iff_classic : ∃ v, update twoSourcesBody 4 = .ok v ∧
    ∃ r : RawUpdate, r.Enc twoSourcesBody ∧ (CollectsAll v r ↔ UnsharedAll r) := by
  have hok : (update twoSourcesBody 4).isOk = true := by decide +kernel
  cases hv : update twoSourcesBody 4 with
  | error e =>
    rw [hv] at hok
    cases hok
  | ok v => exact ⟨v, rfl, update_collectsAll_iff hv⟩

/-- An UPDATE that announces one prefix in MP_REACH_NLRI and another in the trailing
field. -/
def mixedBody : Bytes :=
  [0, 0, 0, 15, 0x80, 14, 12, 0, 1, 1, 4, 192, 0, 2, 1, 0, 16, 10, 1, 16, 10, 2]

/-- A prefix in the classic field and another one in MP_REACH_NLRI, of one family. -/
def mixedUpdate : RawUpdate where
  withdrawn := []
  attrs := [⟨0x80, 14, [0, 1, 1, 4, 192, 0, 2, 1, 0, 16, 10, 1]⟩]
  nlri := [16, 10, 2]

/-- The prefix in the attribute is lost. -/
theorem mixedUpdate_not_collectsAll :
    ∃ v, update mixedBody 4 = .ok v ∧ mixedUpdate.Enc mixedBody ∧ ¬ CollectsAll v mixedUpdate := by
  obtain ⟨acc, hacc⟩ : ∃ acc, (parseUpdate mixedBody 4).toOption = some acc :=
    Option.isSome_iff_exists.mp (by decide +kernel)
  have hok : parseUpdate mixedBody 4 = .ok acc := by
    cases hp : parseUpdate mixedBody 4 with
    | error e => rw [hp] at hacc; cases hacc
    | ok acc' => rw [hp] at hacc; rw [Option.some.inj hacc]
  -- the announced prefix of the attribute is not in the report
  have hlost : ∀ a ∈ (parseUpdate mixedBody 4).toOption,
      ¬ Collects (a.toJson.index "announce") mixedUpdate.announceSources .ipv4Unicast := by
    decide +kernel
  have henc : RawAttr.Enc ⟨0x80, 14, [0, 1, 1, 4, 192, 0, 2, 1, 0, 16, 10, 1]⟩
      [0x80, 14, 12, 0, 1, 1, 4, 192, 0, 2, 1, 0, 16, 10, 1] := by
    unfold RawAttr.Enc
    decide
  refine ⟨acc.toJson, by rw [update, hok]; rfl, ?_,
    fun hall => hlost acc hacc (hall .ipv4Unicast).1⟩
  exact ⟨_, .cons henc .nil, by decide, by decide, rfl⟩

end Wire
