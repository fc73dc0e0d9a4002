import BgpReceiver.JsonText
import BgpReceiver.Rib.Lookup
import BgpReceiver.Wire.Sources

/-!
# The updates that the decoder returns

`apply_update` takes any JSON value, but it is only called with what `wire::update`
returns. Its routes are those of the last source of every family
(`routesOf_eq_reported`, `mem_reported_iff`), so a unicast route is a prefix and the
next hop of its source, and two routes of one kind with the same key are the same route
(`Decoded.route_unique`).

A key's canonical text determines the key (`Key.canonical_injective`). So ids tell
keys apart as far as the digest tells texts apart (`routeId_injOn`).
-/

namespace Rib

open Wire (Source)

/-- An update that `wire::update` returns. -/
def Decoded (u : Json) : Prop := ∃ body asnLen, Wire.update body asnLen = .ok u

/-! ### Groups -/

/-- The groups of an object stay sorted when sources are stored. -/
theorem store_sorted {groups : List (String × Json)} (h : Entries.Sorted groups)
    (sources : List Source) : Entries.Sorted (Wire.store groups sources) := by
  induction sources generalizing groups with
  | nil => exact h
  | cons s sources ih => exact ih (h.insert _ _)

/-- A group that is stored is the last of its family. -/
theorem mem_store {sources : List Source} {e : String × Json}
    (h : e ∈ Wire.store [] sources) :
    ∃ f, e.1 = Wire.Family.label f ∧
      ∃ s ∈ (Wire.sourcesOf f sources).getLast?, e.2 = .arr s.routes := by
  -- only a source's family is ever a key of the store
  have hlabel : ∃ f, e.1 = Wire.Family.label f := by
    induction sources using List.reverseRecOn with
    | nil => exact absurd h (by simp [Wire.store])
    | append_singleton sources s ih =>
      rw [Wire.store_append] at h
      rcases Entries.mem_insert h with rfl | h
      · exact ⟨s.family, rfl⟩
      · exact ih h
  obtain ⟨f, hf⟩ := hlabel
  have hfind := (store_sorted List.Pairwise.nil sources).find_of_mem (k := e.1) (v := e.2) h
  rw [hf, Wire.find_store] at hfind
  obtain ⟨s, hs, he⟩ := Option.map_eq_some_iff.mp hfind
  exact ⟨f, hf, s, hs, he.symm⟩

/-- The sources of the routes of one kind. -/
def sourcesFor (r : Wire.RawUpdate) : UpdateKind → List Source
  | .announce => r.announceSources
  | .withdraw => r.withdrawSources

/-- **The groups of a decoded update**: for every family that has a source, the routes
of its last one. -/
theorem groups_of_update {body : Bytes} {asnLen : ℕ} {u : Json}
    (h : Wire.update body asnLen = .ok u) :
    ∃ r : Wire.RawUpdate, r.Enc body ∧
      (∀ kind, ∀ s ∈ sourcesFor r kind, ∃ routes, s.decoded = .ok routes) ∧
      ∀ kind, (u.index kind.text).asObject = some (Wire.store [] (sourcesFor r kind)) := by
  unfold Wire.update at h
  cases hp : Wire.parseUpdate body asnLen with
  | error e =>
    rw [hp] at h
    exact absurd h (by simp [Except.map])
  | ok acc =>
    rw [hp] at h
    obtain rfl := Except.ok.inj h
    -- the groups are in the accumulator that the loops have left
    obtain ⟨r, henc, ha, hw, hda, hdw⟩ := Wire.parseUpdate_ok hp
    refine ⟨r, henc, fun kind => ?_, fun kind => ?_⟩
    · cases kind with
      | announce => exact hda
      | withdraw => exact hdw
    · cases kind with
      | announce =>
        change (acc.toJson.index "announce").asObject = _
        rw [Wire.index_announce_toJson, ha]
        rfl
      | withdraw =>
        change (acc.toJson.index "withdraw").asObject = _
        rw [Wire.index_withdraw_toJson, hw]
        rfl

/-- The routes that are reported of some sources, with their labels. -/
def reported (sources : List Source) : List (String × Json) :=
  (Wire.store [] sources).flatMap fun e => (e.2.asArray.getD []).map fun route => (e.1, route)

/-- The routes that `apply_update` walks are those that are reported for the sources. -/
theorem routesOf_eq_reported {u : Json} {kind : UpdateKind} {sources : List Source}
    (hu : (u.index kind.text).asObject = some (Wire.store [] sources)) :
    routesOf u kind = reported sources := by
  rw [routesOf, groups, hu, Option.getD_some, List.flatMap_map]
  rfl

/-- A route is reported when it is a route of the last source of its family. -/
theorem mem_reported_iff {sources : List Source} {label : String} {route : Json} :
    (label, route) ∈ reported sources ↔ ∃ f, label = Wire.Family.label f ∧
      ∃ s ∈ (Wire.sourcesOf f sources).getLast?, route ∈ s.routes := by
  unfold reported
  simp only [List.mem_flatMap, List.mem_map, Prod.mk.injEq]
  constructor
  · rintro ⟨e, he, r, hr, rfl, rfl⟩
    obtain ⟨f, hf, s, hs, hv⟩ := mem_store he
    rw [hv] at hr
    exact ⟨f, hf, s, hs, hr⟩
  · rintro ⟨f, rfl, s, hs, hr⟩
    have hfind : Entries.find f.label (Wire.store [] sources) = some (.arr s.routes) := by
      rw [Wire.find_store, hs]
      rfl
    exact ⟨(f.label, .arr s.routes), Entries.mem_of_find hfind, route, hr, rfl, rfl⟩

/-! ### Routes -/

@[simp] theorem index_prefix_routeJson (text : String) (nextHop : Option String) :
    (Wire.routeJson text nextHop).index "prefix" = .str text := by
  cases nextHop <;> simp [Wire.routeJson, Json.index, Entries.find_cons]

/-- The routes of a unicast source. -/
theorem Source.routes_unicast {s : Source} (hs : familyOf s.family.label = .unicast)
    (hd : ∃ routes, s.decoded = .ok routes) {route : Json} (hr : route ∈ s.routes) :
    ∃ text, route = Wire.routeJson text s.nextHop := by
  obtain ⟨routes, hd⟩ := hd
  rw [Source.routes_of_decoded hd] at hr
  -- the family is not one of rules
  have hsafi : s.family.safi ≠ 133 := by
    intro h
    cases hf : s.family with
    | ipv4Unicast => rw [hf] at h; exact absurd h (by decide)
    | ipv6Unicast => rw [hf] at h; exact absurd h (by decide)
    | ipv4Flowspec => rw [hf] at hs; exact absurd hs (by decide)
    | ipv6Flowspec => rw [hf] at hs; exact absurd hs (by decide)
  rw [Source.decoded, if_neg hsafi] at hd
  -- every item that is read is a route with its prefix and the next hop
  have hall : ∀ x ∈ routes, ∃ text, x = Wire.routeJson text s.nextHop := by
    refine Reader.Items.forall_mem (fun data x rest hx => ?_) (Wire.unicast_ok_iff.mp hd)
    obtain ⟨bits, raw, text, -, -, -, -, rfl⟩ := Wire.unicastRoute_ok_iff.mp hx
    exact ⟨text, rfl⟩
  exact hall route hr

theorem keyOf_label (label : String) (route : Json) : (keyOf label route).label = label := by
  unfold keyOf
  cases familyOf label <;> rfl

theorem keyOf_unicast {label : String} (h : familyOf label = .unicast) (route : Json) :
    keyOf label route = .unicast label (route.index "prefix") := by
  rw [keyOf, h]

theorem keyOf_flowspec {label : String} (h : familyOf label = .flowspec) (route : Json) :
    keyOf label route = .flowspec label route := by
  rw [keyOf, h]

/-- The prefix of a decoded unicast route is a text. -/
theorem Decoded.index_prefix {u : Json} (hu : Decoded u) {kind : UpdateKind} {label : String}
    {route : Json} (h : (label, route) ∈ routesOf u kind) (hf : familyOf label = .unicast) :
    ∃ text, route.index "prefix" = .str text := by
  obtain ⟨body, asnLen, hu⟩ := hu
  obtain ⟨r, -, hd, hg⟩ := groups_of_update hu
  obtain ⟨f, rfl, s, hs, hr⟩ := mem_reported_iff.mp (routesOf_eq_reported (hg kind) ▸ h)
  have hmem := List.mem_filter.mp (List.mem_of_mem_getLast? hs)
  obtain rfl : s.family = f := of_decide_eq_true hmem.2
  obtain ⟨text, rfl⟩ := Source.routes_unicast hf (hd kind s hmem.1) hr
  exact ⟨text, index_prefix_routeJson _ _⟩

/-- **Routes with one key are one route.** -/
theorem Decoded.route_unique {u : Json} (hu : Decoded u) {kind : UpdateKind}
    {e e' : String × Json} (h : e ∈ routesOf u kind) (h' : e' ∈ routesOf u kind)
    (hk : keyOf e.1 e.2 = keyOf e'.1 e'.2) : e = e' := by
  obtain ⟨label, route⟩ := e
  obtain ⟨label', route'⟩ := e'
  have hl : label = label' := by
    rw [← keyOf_label label route, ← keyOf_label label' route']
    exact congrArg Key.label hk
  subst hl
  obtain ⟨body, asnLen, hu⟩ := hu
  obtain ⟨r, -, hd, hg⟩ := groups_of_update hu
  obtain ⟨f, hf, s, hs, hr⟩ := mem_reported_iff.mp (routesOf_eq_reported (hg kind) ▸ h)
  obtain ⟨f', hf', s', hs', hr'⟩ := mem_reported_iff.mp (routesOf_eq_reported (hg kind) ▸ h')
  obtain rfl : f = f' := Wire.Family.label_injective (hf.symm.trans hf')
  -- one family has one reported source, the last one
  obtain rfl : s = s' := Option.mem_unique hs hs'
  have hmem := List.mem_filter.mp (List.mem_of_mem_getLast? hs)
  have hfam : s.family = f := of_decide_eq_true hmem.2
  cases hfl : familyOf label with
  | unicast =>
    -- unicast routes of one source differ in their prefix alone
    have hsu : familyOf s.family.label = .unicast := by rw [hfam, ← hf, hfl]
    obtain ⟨text, rfl⟩ := Source.routes_unicast hsu (hd kind s hmem.1) hr
    obtain ⟨text', rfl⟩ := Source.routes_unicast hsu (hd kind s hmem.1) hr'
    simp only [keyOf_unicast hfl, index_prefix_routeJson, Key.unicast.injEq, Json.str.injEq,
      true_and] at hk
    rw [hk]
  | flowspec =>
    simp only [keyOf_flowspec hfl, Key.flowspec.injEq, true_and] at hk
    rw [hk]

/-! ### Keys and ids -/

/-- Within a group the identity tells the keys. -/
theorem identity_inj {k k' : Key} (hf : k.family = k'.family) (hl : k.label = k'.label)
    (hi : k.identity = k'.identity) : k = k' := by
  cases k with
  | unicast label p =>
    cases k' with
    | unicast label' p' =>
      -- the text of a prefix is the one member of its identity
      have hp := congrArg (Json.index "prefix") hi
      simp only [Key.identity, Json.index, Json.get_object, List.reverse_singleton,
        Entries.find_cons, if_true, Option.getD_some] at hp
      have hl : label = label' := hl
      rw [hp, hl]
    | flowspec _ _ => exact absurd hf (by simp [Key.family])
  | flowspec label rule =>
    cases k' with
    | unicast _ _ => exact absurd hf (by simp [Key.family])
    | flowspec label' rule' =>
      have hl : label = label' := hl
      have hi : rule = rule' := hi
      rw [hl, hi]

/-- **A canonical text determines its key.** -/
theorem Key.canonical_injective (peer : String) : Function.Injective (Key.canonical peer) := by
  intro k k' h
  have hbytes : (Json.arr [.str k.family.text, .str k.label, .str peer, k.identity]).text
      = (Json.arr [.str k'.family.text, .str k'.label, .str peer, k'.identity]).text := by
    apply String.toByteArray_inj.mp
    exact ByteArray.ext (Array.toList_inj.mp h)
  have hjson := Json.text_injective hbytes
  simp only [Json.arr.injEq, List.cons.injEq, Json.str.injEq, and_true, true_and] at hjson
  obtain ⟨hf, hl, hi⟩ := hjson
  refine identity_inj ?_ hl hi
  cases hk : k.family <;> cases hk' : k'.family <;> rw [hk, hk'] at hf <;>
    first | rfl | exact absurd hf (by decide)

/-- Ids tell keys apart when the digest tells their texts apart. -/
theorem routeId_injOn {digest : Bytes → Vector UInt8 20} {peer : String} {keys : Set Key}
    (h : Set.InjOn (shortId digest) (Key.canonical peer '' keys)) :
    Set.InjOn (routeId digest peer) keys := by
  intro k hk k' hk' he
  exact Key.canonical_injective peer
    (h (Set.mem_image_of_mem _ hk) (Set.mem_image_of_mem _ hk') he)

end Rib
