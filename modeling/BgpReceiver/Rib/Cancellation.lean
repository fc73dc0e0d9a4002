import BgpReceiver.Rib.Refinement

/-!
# Announcements that a message takes back

An UPDATE may announce a prefix and withdraw it as well. What it announces should then
stay. `apply_update` takes the withdrawals after the announcements, so such a prefix is
gone, and a prefix that is announced in a place that is not the last one of its family
does not reach the store at all (`Wire.store`).

`KeepsAnnounced` says that all announced unicast prefixes are there afterwards, and
`Uncancelled` says of the message and the rows before it when that is so
(`update_keepsAnnounced_iff`).
-/

namespace Rib

open Wire (RawUpdate)

variable {digest : Bytes → Vector UInt8 20}

/-! ### Rows under the ids of their keys -/

/-- Every row is under the id of its key. -/
def Labelled (digest : Bytes → Vector UInt8 20) (d : Data) : Prop :=
  ∀ id r, d.byId id = some r → id = routeId digest r.peer r.key

/-- The section of a route takes the row under the id of its key. -/
def LabelledSection (digest : Bytes → Vector UInt8 20) : Section → Prop
  | .route op _ => op.entry.id = routeId digest op.entry.peer op.entry.key
  | _ => True

/-- The critical sections, with the routes as `apply_update` labels them. -/
def labelled (digest : Bytes → Vector UInt8 20) : System Data Section :=
  sections.restrict fun _ s => LabelledSection digest s

theorem Labelled.of_empty {d : Data} (h : d.ids = .empty) : Labelled digest d := by
  intro id r hr
  rw [Data.byId, h, OrdMap.find_empty] at hr
  exact absurd hr (by simp)

/-- Every section keeps the ids labelled, as long as its own one is the id of its key. -/
theorem Labelled.step {d d' : Data} (h : Labelled digest d) (hc : Consistent d) {s : Section}
    (hs : LabelledSection digest s) (hr : s.run d = some d') : Labelled digest d' := by
  -- a section leaves the store alone, clears it, or applies one route
  rcases Section.run_cases hc hr with hstore | ⟨-, hids⟩ | ⟨op, instant, existed, rfl, hop⟩
  · unfold Labelled at *
    rwa [byId_of_store_eq hstore]
  · exact .of_empty hids
  · intro id r hrow
    rw [byId_applyRoute hc hop, Function.update_apply] at hrow
    -- the row is the one that was applied, or was there
    split_ifs at hrow with hid
    · unfold RouteOp.write at hrow hid
      cases hk : op.kind with
      | withdraw =>
        rw [hk] at hrow
        exact absurd hrow (by simp)
      | announce =>
        rw [hk] at hrow
        obtain rfl := Option.some.inj hrow
        rw [hid]
        exact hs
    · exact h id r hrow

theorem labelled_labelled {d : Data} (h : (labelled digest).Reachable d) : Labelled digest d := by
  refine System.Reachable.induction ?_ ?_ h
  · rintro d ⟨output, rfl⟩
    exact .of_empty rfl
  · rintro d s d' hd hl ⟨hs, hr⟩
    exact hl.step (sections_consistent hd.of_restrict) hs hr

theorem entryOf_peer (sh : Shared) (id receivedAt label : String) (route : Json) :
    (entryOf sh id receivedAt label route).peer = sh.peer := by
  unfold entryOf
  cases familyOf label <;> rfl

/-- A decoded update takes its routes under the ids of their keys. -/
theorem UpdateSection.labelled {u : Json} (hu : Decoded u) {peer : String} {s : Section}
    (h : UpdateSection digest u peer s) : LabelledSection digest s := by
  cases h with
  | @route kind label route receivedAt instant hmem =>
    have hroute : (label, route) ∈ routesOf u kind := by
      rw [updateSteps_eq, List.mem_append, route_mem_kindSteps, route_mem_kindSteps] at hmem
      rcases hmem with ⟨rfl, hm⟩ | ⟨rfl, hm⟩
      · exact hm
      · exact hm
    change (entryOf _ _ _ _ _).id = routeId digest (entryOf _ _ _ _ _).peer (entryOf _ _ _ _ _).key
    rw [entryOf_id, entryOf_peer, entryOf_key (hu.index_prefix hroute)]
    rfl
  | _ => trivial

/-- **`apply_update` labels what it announces**: it is a run of labelled sections. -/
theorem applyUpdate_labelled {o : Outside} {u : Json} {peer : String} (hu : Decoded u) {d d' : Data}
    (h : (labelled digest).Reachable d) (ha : applyUpdate digest o u peer d = some d') :
    (labelled digest).Reachable d' := by
  obtain ⟨d'', ls, ha', hr, -⟩ :=
    applyUpdate_run digest o u peer (sections_consistent h.of_restrict)
  rw [ha] at ha'
  rw [Option.some.inj ha']
  have hstep : ∀ e s e', (updateSections digest u peer).step e s e' →
      (Rib.labelled digest).step e s e' :=
    fun _ _ _ hs => ⟨hs.1.labelled hu, hs.2⟩
  exact h.run (hr.mono hstep)

/-! ### What an UPDATE announces -/

/-- The routes that an UPDATE announces, in whichever place, with their labels. -/
def announcedIn (r : RawUpdate) : List (String × Json) :=
  r.announceSources.flatMap fun s => s.routes.map fun route => (s.family.label, route)

/-- A row of a key has the content of one of the announcements of the key. -/
def Held (u : Json) (peer : String) (r : RawUpdate) (d : Data) (k : Key) : Prop :=
  ∃ e ∈ announcedIn r, keyOf e.1 e.2 = k ∧ ∃ row ∈ d.routes.values, row.content = contentOf u peer e

/-- **Every unicast prefix that is announced is there**, with the attributes of the
update. -/
def KeepsAnnounced (u : Json) (peer : String) (r : RawUpdate) (d : Data) : Prop :=
  ∀ e ∈ announcedIn r, familyOf e.1 = .unicast → Held u peer r d (keyOf e.1 e.2)

instance (u : Json) (peer : String) (r : RawUpdate) (d : Data) (k : Key) :
    Decidable (Held u peer r d k) := inferInstanceAs (Decidable (∃ e ∈ announcedIn r, _ ∧ _))

instance (u : Json) (peer : String) (r : RawUpdate) (d : Data) :
    Decidable (KeepsAnnounced u peer r d) :=
  inferInstanceAs (Decidable (∀ e ∈ announcedIn r, _ → _))

/-- **Nothing takes an announced prefix back**: no reported withdrawal has its id, and the
last reported announcement of its id is one of the prefix. When no announcement of the
id is reported, a row is there already. -/
def Uncancelled (digest : Bytes → Vector UInt8 20) (u : Json) (peer : String) (r : RawUpdate)
    (d : Data) : Prop :=
  ∀ e ∈ announcedIn r, familyOf e.1 = .unicast →
    (∀ e' ∈ reported r.withdrawSources,
      routeId digest peer (keyOf e'.1 e'.2) ≠ routeId digest peer (keyOf e.1 e.2)) ∧
    match (reported r.announceSources).reverse.find? fun e' =>
      routeId digest peer (keyOf e'.1 e'.2) = routeId digest peer (keyOf e.1 e.2) with
    | some e' => keyOf e'.1 e'.2 = keyOf e.1 e.2
    | none => Held u peer r d (keyOf e.1 e.2)

/-- What is reported for the classic and the multiprotocol sources is announced. -/
theorem mem_announcedIn_of_reported {r : RawUpdate} {e : String × Json}
    (h : e ∈ reported r.announceSources) : e ∈ announcedIn r := by
  obtain ⟨f, hf, s, hs, hr⟩ := mem_reported_iff.mp h
  have hmem := List.mem_filter.mp (List.mem_of_mem_getLast? hs)
  have hfam : s.family = f := of_decide_eq_true hmem.2
  exact List.mem_flatMap.mpr ⟨s, hmem.1, List.mem_map.mpr ⟨e.2, hr, by rw [hfam, ← hf]⟩⟩

/-- The prefix of a unicast route is a text, in every place. -/
theorem index_prefix_of_announcedIn {r : RawUpdate}
    (hd : ∀ s ∈ r.announceSources, ∃ routes, s.decoded = .ok routes) {e : String × Json}
    (h : e ∈ announcedIn r) (hf : familyOf e.1 = .unicast) :
    ∃ text, e.2.index "prefix" = .str text := by
  obtain ⟨s, hs, he⟩ := List.mem_flatMap.mp h
  obtain ⟨route, hr, rfl⟩ := List.mem_map.mp he
  obtain ⟨text, rfl⟩ := Source.routes_unicast hf (hd s hs) hr
  exact ⟨text, index_prefix_routeJson _ _⟩

/-- The content of a row tells its key and its peer. -/
theorem key_of_content {r : Route} {u : Json} {peer : String} {e : String × Json}
    (hpfx : familyOf e.1 = .unicast → ∃ text, e.2.index "prefix" = .str text)
    (h : r.content = contentOf u peer e) : r.key = keyOf e.1 e.2 ∧ r.peer = peer := by
  rw [← entryOf_key hpfx (shared u peer) "" ""]
  have hpeer : (contentOf u peer e).peer = peer := entryOf_peer _ _ _ _ _
  unfold contentOf Route.content at h
  simp only [Content.mk.injEq] at h
  obtain ⟨hfam, hafi, hp, hpfx', -, -, -, hm, -⟩ := h
  refine ⟨?_, hp.trans hpeer⟩
  unfold Route.key
  rw [hfam, hafi, hpfx', hm]

/-- A row of a key is the row of its id. -/
theorem held_iff {u : Json} {peer : String} {r : RawUpdate} {d : Data} (hi : Indexed d)
    (hl : Labelled digest d) (hd : ∀ s ∈ r.announceSources, ∃ routes, s.decoded = .ok routes)
    {k : Key} : Held u peer r d k ↔ ∃ row, d.byId (routeId digest peer k) = some row ∧
      ∃ e ∈ announcedIn r, keyOf e.1 e.2 = k ∧ row.content = contentOf u peer e := by
  constructor
  · rintro ⟨e, he, hk, row, hrow, hcontent⟩
    obtain ⟨s, hs⟩ := d.routes.mem_values_iff.mp hrow
    obtain ⟨hkey, hpeer⟩ := key_of_content (index_prefix_of_announcedIn hd he) hcontent
    have hid := hi.byId_of_row hs
    rw [hl row.id row hid, hkey, hpeer, hk] at hid
    exact ⟨row, hid, e, he, hk, hcontent⟩
  · rintro ⟨row, hid, e, he, hk, hcontent⟩
    exact ⟨e, he, hk, row, d.routes.mem_values_iff.mpr (hi.row_of_byId hid).1, hcontent⟩

/-- **When the announced prefixes of an accepted UPDATE are all there.** -/
theorem update_keepsAnnounced_iff {d : Data} (hd : (labelled digest).Reachable d) {body : Bytes}
    {asnLen : ℕ} {u : Json} (hu : Wire.update body asnLen = .ok u) (o : Outside) (peer : String) :
    ∃ r : RawUpdate, r.Enc body ∧ ∃ d', applyUpdate digest o u peer d = some d' ∧
      (KeepsAnnounced u peer r d' ↔ Uncancelled digest u peer r d) := by
  obtain ⟨r, henc, hdec, hg⟩ := groups_of_update hu
  have hdecoded : Decoded u := ⟨body, asnLen, hu⟩
  have hc := sections_consistent hd.of_restrict
  obtain ⟨d', -, ha, -, hc'⟩ := applyUpdate_run digest o u peer hc
  have hl' := labelled_labelled (applyUpdate_labelled hdecoded hd ha)
  have hann : routesOf u .announce = reported r.announceSources :=
    routesOf_eq_reported (hg .announce)
  have hwd : routesOf u .withdraw = reported r.withdrawSources :=
    routesOf_eq_reported (hg .withdraw)
  refine ⟨r, henc, d', ha, forall₂_congr fun e _ => forall_congr' fun _ => ?_⟩
  -- only the key of the announced route matters
  generalize keyOf e.1 e.2 = k
  rw [held_iff hc'.indexed hl' (hdec .announce), ← hann, ← hwd]
  -- no withdrawn route has its id, or one has
  have hids : (∀ e' ∈ routesOf u .withdraw,
      routeId digest peer (keyOf e'.1 e'.2) ≠ routeId digest peer k) ↔
        routeId digest peer k ∉ idsOf digest u peer .withdraw := by
    simp [idsOf]
  rw [hids]
  by_cases hw : routeId digest peer k ∈ idsOf digest u peer .withdraw
  · -- the withdrawal comes last
    rw [applyUpdate_withdrawn hc ha hw]
    simp [hw]
  · rw [and_iff_right hw]
    change _ ↔ match lastOf digest u peer .announce (routeId digest peer k) with
      | some e' => keyOf e'.1 e'.2 = k
      | none => Held u peer r d k
    cases hl : lastOf digest u peer .announce (routeId digest peer k) with
    | none =>
      rw [applyUpdate_other hc ha (lastOf_eq_none_iff.mp hl) hw]
      exact (held_iff hc.indexed (labelled_labelled hd) (hdec .announce)).symm
    | some e' =>
      -- the last announced route with the id is the row
      obtain ⟨receivedAt, hrow⟩ := applyUpdate_announced hc ha hl hw
      have he' : e' ∈ announcedIn r :=
        mem_announcedIn_of_reported (hann ▸ (mem_of_lastOf hl).1)
      have hcontent := entryOf_content u peer (routeId digest peer k) receivedAt e'
      rw [hrow]
      constructor
      · rintro ⟨row, hr, e₁, he₁, hk, hc₁⟩
        obtain rfl := Option.some.inj hr
        have h₁ := key_of_content (index_prefix_of_announcedIn (hdec .announce) he₁) hc₁
        have h₂ := key_of_content (index_prefix_of_announcedIn (hdec .announce) he') hcontent
        exact h₂.1.symm.trans (h₁.1.trans hk)
      · intro hk
        exact ⟨_, rfl, e', he', hk, hcontent⟩

/-- SHA-1 on the text of the one key that the updates below mention. -/
def cancelDigest (_ : Bytes) : Vector UInt8 20 :=
  #v[0x2f, 0x9e, 0x02, 0x7f, 0xa2, 0x04, 0xa6, 0x43, 0x9d, 0x83, 0xbc, 0x4a, 0x97, 0x90,
    0x08, 0x33, 0x06, 0x24, 0xe4, 0xde]

/-- SHA-1 on the texts of three keys. -/
def sourcesDigest (data : Bytes) : Vector UInt8 20 :=
  if data = Key.canonical samplePeer (.unicast "ipv4-unicast" (.str "10.2.0.0/16")) then
    cancelDigest data
  else if data = Key.canonical samplePeer (.unicast "ipv4-unicast" (.str "10.3.0.0/16")) then
    #v[0xd2, 0xf9, 0xba, 0xc0, 0x2f, 0xd1, 0x52, 0x72, 0xc9, 0x9d, 0x81, 0x16, 0x32, 0x82,
      0x6c, 0x3f, 0xf5, 0x11, 0x1f, 0x99]
  else if data = Key.canonical samplePeer (.unicast "ipv6-unicast" (.str "2001:db8::/32")) then
    #v[0xe9, 0x9e, 0xb2, 0x2e, 0xa9, 0x44, 0x3c, 0xc4, 0xcf, 0x45, 0x04, 0x63, 0x59, 0xf8,
      0xff, 0x2f, 0xa4, 0x65, 0xa7, 0xf2]
  else Vector.replicate 20 0

/-- It holds of an UPDATE that announces a prefix in each of two places and withdraws a third. -/
theorem update_keepsAnnounced_iff_classic :
    ∃ r : RawUpdate, r.Enc Wire.twoSourcesBody ∧ ∃ d',
      applyUpdate sourcesDigest sampleOutside (updateOf Wire.twoSourcesBody 4) samplePeer
        (Data.new none) = some d' ∧
      d'.routes.values.length = 2 ∧
      (KeepsAnnounced (updateOf Wire.twoSourcesBody 4) samplePeer r d' ↔
        Uncancelled sourcesDigest (updateOf Wire.twoSourcesBody 4) samplePeer r
          (Data.new none)) := by
  -- the call is evaluated for the number of its rows only
  have hrows : (applyUpdate sourcesDigest sampleOutside (updateOf Wire.twoSourcesBody 4)
      samplePeer (Data.new none)).map (fun d => d.routes.values.length) = some 2 := by
    decide +kernel
  obtain ⟨r, henc, d', ha, hiff⟩ := @update_keepsAnnounced_iff sourcesDigest (Data.new none)
    (.init ⟨none, rfl⟩) _ 4 _ (@updateOf_ok Wire.twoSourcesBody 4 (by decide +kernel)) sampleOutside
    samplePeer
  rw [ha] at hrows
  exact ⟨r, henc, d', ha, Option.some.inj hrows, hiff⟩

/-- An UPDATE that announces 10.2.0.0/16 and withdraws it. -/
def cancelBody : Bytes := [0, 3, 16, 10, 2, 0, 0, 16, 10, 2]

/-- 10.2.0.0/16 announced and withdrawn in one UPDATE. -/
def cancelUpdate : RawUpdate := ⟨[16, 10, 2], [], [16, 10, 2]⟩

/-- The prefix is gone. -/
theorem cancelUpdate_not_keepsAnnounced :
    ∃ u d', Wire.update cancelBody 4 = .ok u ∧ cancelUpdate.Enc cancelBody ∧
      (labelled cancelDigest).Reachable (Data.new none) ∧
      applyUpdate cancelDigest sampleOutside u samplePeer (Data.new none) = some d' ∧
      ¬ KeepsAnnounced u samplePeer cancelUpdate d' := by
  have hu := @updateOf_ok cancelBody 4 (by decide)
  have henc : cancelUpdate.Enc cancelBody := ⟨_, .nil, by decide, by decide, rfl⟩
  have hreach : (labelled cancelDigest).Reachable (Data.new none) := .init ⟨none, rfl⟩
  have hc := sections_consistent hreach.of_restrict
  obtain ⟨d', -, hd', -, hc'⟩ := applyUpdate_run cancelDigest sampleOutside (updateOf cancelBody 4)
    samplePeer hc
  have hl' := labelled_labelled (applyUpdate_labelled ⟨_, _, hu⟩ hreach hd')
  obtain ⟨r, henc', hdec, -⟩ := groups_of_update hu
  obtain rfl := henc'.unique henc
  have hboth : ∃ e ∈ announcedIn cancelUpdate, familyOf e.1 = .unicast ∧
      routeId cancelDigest samplePeer (keyOf e.1 e.2)
        ∈ idsOf cancelDigest (updateOf cancelBody 4) samplePeer .withdraw := by
    decide
  obtain ⟨e, he, hf, hw⟩ := hboth
  refine ⟨_, d', hu, henc, hreach, hd', fun hkeeps => ?_⟩
  -- the withdrawal of the same id comes last
  obtain ⟨row, hrow, -⟩ := (held_iff hc'.indexed hl' (hdec .announce)).mp (hkeeps e he hf)
  rw [applyUpdate_withdrawn hc hd' hw] at hrow
  exact absurd hrow (by simp)

end Rib
