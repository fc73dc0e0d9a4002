import BgpReceiver.Rib.Decoded

/-!
# The store refines a table

What the store is for: a table that has the content of the last announcement of every
key, and nothing for a key that was withdrawn since (`Table`). An update that does not
announce and withdraw the same key changes the table at the keys it mentions
(`Table.apply`).

The store refines that table (`Refines`): the rows of a key are as many as the entries
that the table has for it, with the same content. A single update keeps this
(`applyUpdate_refines`), so whole runs of updates do (`applyCalls_refines`), and what
the table has after a run is read off the last update that mentions the key
(`tableOf_eq`). The refinement needs that ids tell keys apart, for which the digest has
to tell apart the texts that the keys are hashed as.
-/

namespace Rib

/-! ### The table -/

/-- What a row says, besides its id and the time. -/
structure Content where
  family : Family
  afi : String
  peer : String
  pfx : Option String
  nextHop : Option String
  asPath : List ℕ
  communities : List String
  match_ : Option Json
  actions : List String
  deriving DecidableEq

/-- What a route says, without the id and the time that the program gives it. -/
def Route.content (r : Route) : Content :=
  ⟨r.family, r.afi, r.peer, r.pfx, r.nextHop, r.asPath, r.communities, r.match_, r.actions⟩

/-- What a route of an update says. -/
def contentOf (update : Json) (peer : String) (e : String × Json) : Content :=
  (entryOf (shared update peer) "" "" e.1 e.2).content

/-- The keys of the routes that an update lists under one of the kinds. -/
def keysOf (update : Json) (kind : UpdateKind) : List Key :=
  (routesOf update kind).map fun e => keyOf e.1 e.2

/-- A route of the UPDATE has one of its keys. -/
theorem keyOf_mem_keysOf {update : Json} {kind : UpdateKind} {label : String} {route : Json}
    (h : (label, route) ∈ routesOf update kind) : keyOf label route ∈ keysOf update kind :=
  List.mem_map.mpr ⟨(label, route), h, rfl⟩

/-- The keys of a kind are those of its routes. -/
theorem mem_keysOf_iff {update : Json} {kind : UpdateKind} {k : Key} :
    k ∈ keysOf update kind ↔ ∃ label route, (label, route) ∈ routesOf update kind ∧
      keyOf label route = k := by
  rw [keysOf, List.mem_map]
  exact Prod.exists

/-- An update says something about a key. -/
def Mentions (update : Json) (k : Key) : Prop :=
  k ∈ keysOf update .announce ∨ k ∈ keysOf update .withdraw

instance (update : Json) (k : Key) : Decidable (Mentions update k) :=
  inferInstanceAs (Decidable (_ ∨ _))

/-- No key is both announced and withdrawn. -/
def Separate (update : Json) : Prop :=
  ∀ k ∈ keysOf update .announce, k ∉ keysOf update .withdraw

instance (update : Json) : Decidable (Separate update) :=
  inferInstanceAs (Decidable (∀ k ∈ _, _))

/-- A table of contents. -/
def Table : Type := Key → Option Content

namespace Table

/-- The table of no routes. -/
def empty : Table := fun _ => none

/-- What an update makes of a table. -/
def apply (peer : String) (t : Table) (update : Json) : Table := fun k =>
  match (routesOf update .announce).find? fun e => keyOf e.1 e.2 = k with
  | some e => some (contentOf update peer e)
  | none => if k ∈ keysOf update .withdraw then none else t k

/-- No route is found for a key exactly when it is not announced. -/
theorem find_eq_none_iff {update : Json} {k : Key} :
    ((routesOf update .announce).find? fun e => keyOf e.1 e.2 = k) = none ↔
      k ∉ keysOf update .announce := by
  simp [keysOf]

/-- A key that is withdrawn and not announced is gone. -/
theorem apply_withdrawn {peer : String} {t : Table} {update : Json} {k : Key}
    (hann : k ∉ keysOf update .announce) (hw : k ∈ keysOf update .withdraw) :
    t.apply peer update k = none := by
  unfold apply
  rw [find_eq_none_iff.mpr hann]
  exact if_pos hw

/-- A key that the UPDATE does not mention is as it was. -/
theorem apply_other {peer : String} {t : Table} {update : Json} {k : Key}
    (h : ¬ Mentions update k) : t.apply peer update k = t k := by
  obtain ⟨hann, hw⟩ := not_or.mp h
  unfold apply
  rw [find_eq_none_iff.mpr hann]
  exact if_neg hw

/-- A key that is announced has what the UPDATE says of it. -/
theorem apply_announced {peer : String} {t : Table} {update : Json} (hu : Decoded update)
    {e : String × Json} (he : e ∈ routesOf update .announce) :
    t.apply peer update (keyOf e.1 e.2) = some (contentOf update peer e) := by
  unfold apply
  cases hf : (routesOf update .announce).find? fun e' => keyOf e'.1 e'.2 = keyOf e.1 e.2 with
  | none => exact absurd (List.mem_map_of_mem he) (find_eq_none_iff.mp hf)
  | some e' =>
    have hk : keyOf e'.1 e'.2 = keyOf e.1 e.2 := by simpa using List.find?_some hf
    change some (contentOf update peer e') = _
    rw [hu.route_unique (List.mem_of_find?_eq_some hf) he hk]

end Table

/-- The table after some updates. -/
def tableOf (peer : String) (updates : List Json) : Table :=
  updates.foldl (Table.apply peer) Table.empty

/-- The last update that mentions a key. -/
def lastMention (k : Key) (updates : List Json) : Option Json :=
  updates.reverse.find? fun u => Mentions u k

/-- **The table after a run is what the last mention of a key says.** -/
theorem tableOf_eq (peer : String) (k : Key) (updates : List Json) :
    tableOf peer updates k
      = (lastMention k updates).bind fun u => Table.apply peer Table.empty u k := by
  induction updates using List.reverseRecOn with
  | nil => rfl
  | append_singleton updates u ih =>
    rw [tableOf, List.foldl_append]
    change Table.apply peer (tableOf peer updates) u k = _
    rw [lastMention, List.reverse_append, List.reverse_singleton, List.singleton_append,
      List.find?_cons]
    by_cases hm : Mentions u k
    · simp only [hm, decide_true, Option.bind_some]
      -- the table is not asked for a key that the update mentions
      unfold Table.apply
      cases hf : (routesOf u .announce).find? fun e => keyOf e.1 e.2 = k with
      | some e => rfl
      | none =>
        have hw := hm.resolve_left (Table.find_eq_none_iff.mp hf)
        simp only [if_pos hw]
    · simp only [hm, decide_false]
      rw [Table.apply_other hm, ih]
      rfl

/-! ### Rows by key -/

/-- The key of a row. -/
def Route.key (r : Route) : Key :=
  match r.family with
  | .unicast => .unicast r.afi ((r.pfx.map Json.str).getD .null)
  | .flowspec => .flowspec r.afi (r.match_.getD .null)

/-- The rows of a key. -/
def rowsOf (d : Data) (k : Key) : List Route := d.routes.values.filter fun r => r.key = k

/-- The rows are those of some keys, under the ids of their keys. -/
def Owned (digest : Bytes → Vector UInt8 20) (peer : String) (keys : Set Key) (d : Data) : Prop :=
  ∀ id r, d.byId id = some r → r.key ∈ keys ∧ id = routeId digest peer r.key

/-- **The store refines a table.** -/
def Refines (d : Data) (t : Table) : Prop := ∀ k, (rowsOf d k).map Route.content = (t k).toList

/-- A row has the key that it was stored for. -/
theorem entryOf_key {label : String} {route : Json}
    (h : familyOf label = .unicast → ∃ text, route.index "prefix" = .str text) (sh : Shared)
    (id receivedAt : String) : (entryOf sh id receivedAt label route).key = keyOf label route := by
  unfold entryOf Route.key keyOf
  cases hf : familyOf label with
  | unicast =>
    obtain ⟨text, ht⟩ := h hf
    simp only [ht]
    rfl
  | flowspec => rfl

/-- A row says what the UPDATE says of its route. -/
theorem entryOf_content (update : Json) (peer id receivedAt : String) (e : String × Json) :
    (entryOf (shared update peer) id receivedAt e.1 e.2).content = contentOf update peer e := by
  unfold contentOf entryOf
  cases familyOf e.1 <;> rfl

theorem mem_rowsOf_iff {d : Data} {k : Key} {r : Route} :
    r ∈ rowsOf d k ↔ (∃ s, d.routes.find s = some r) ∧ r.key = k := by
  rw [rowsOf, List.mem_filter, OrdMap.mem_values_iff]
  simp

section

variable {digest : Bytes → Vector UInt8 20} {peer : String} {keys : Set Key}

/-- A key that nobody has announced has no row. -/
theorem rowsOf_of_not_mem {d : Data} (h : Indexed d) (ho : Owned digest peer keys d) {k : Key}
    (hk : k ∉ keys) : rowsOf d k = [] := by
  refine List.eq_nil_iff_forall_not_mem.mpr fun r hr => ?_
  obtain ⟨⟨s, hrow⟩, rfl⟩ := mem_rowsOf_iff.mp hr
  exact hk (ho r.id r (h.byId_of_row hrow)).1

/-- A key has the one row of its id. -/
theorem rowsOf_eq {d : Data} (h : Indexed d) (ho : Owned digest peer keys d)
    (hinj : Set.InjOn (routeId digest peer) keys) {k : Key} (hk : k ∈ keys) :
    rowsOf d k = (d.byId (routeId digest peer k)).toList := by
  -- rows of one key have one id, and an id has one row
  have hmem : ∀ r, r ∈ rowsOf d k ↔ r ∈ (d.byId (routeId digest peer k)).toList := by
    intro r
    rw [mem_rowsOf_iff, Option.mem_toList]
    constructor
    · rintro ⟨⟨s, hr⟩, rfl⟩
      have hid := h.byId_of_row hr
      rwa [← (ho r.id r hid).2]
    · intro hr
      obtain ⟨hrow, -⟩ := h.row_of_byId hr
      obtain ⟨hkey, hid⟩ := ho _ r hr
      exact ⟨hrow, (hinj hk hkey hid).symm⟩
  have hnodup : (rowsOf d k).Nodup := (List.Nodup.of_map _ h.nodup).filter _
  have hperm : (rowsOf d k).Perm (d.byId (routeId digest peer k)).toList :=
    (List.perm_ext_iff_of_nodup hnodup (by cases d.byId (routeId digest peer k) <;> simp)).mpr hmem
  cases hb : d.byId (routeId digest peer k) with
  | none =>
    rw [hb] at hperm
    exact hperm.eq_nil
  | some r =>
    rw [hb] at hperm
    exact List.perm_singleton.mp hperm

/-! ### One update -/

variable {o : Outside} {update : Json}

/-- An id that tells the keys is in the UPDATE exactly when its key is. -/
theorem routeId_mem_idsOf_iff (hinj : Set.InjOn (routeId digest peer) keys) {kind : UpdateKind}
    (hkeys : ∀ k ∈ keysOf update kind, k ∈ keys) {k : Key} (hk : k ∈ keys) :
    routeId digest peer k ∈ idsOf digest update peer kind ↔ k ∈ keysOf update kind := by
  constructor
  · intro h
    obtain ⟨⟨label, route⟩, he, hid⟩ := List.mem_map.mp h
    have hmem := keyOf_mem_keysOf he
    rwa [← hinj (hkeys _ hmem) hk hid]
  · intro h
    obtain ⟨label, route, he, rfl⟩ := mem_keysOf_iff.mp h
    exact List.mem_map.mpr ⟨(label, route), he, rfl⟩

/-- The rows of the peer stay rows of the keys that have occurred. -/
theorem applyUpdate_owned {d d' : Data} (hc : Consistent d) (ho : Owned digest peer keys d)
    (hu : Decoded update) (hkeys : ∀ k, Mentions update k → k ∈ keys)
    (ha : applyUpdate digest o update peer d = some d') : Owned digest peer keys d' := by
  intro id r hr
  refine applyUpdate_rows hc ha ho (fun label route receivedAt hm => ?_) hr
  rw [entryOf_key (hu.index_prefix hm)]
  exact ⟨hkeys _ (Or.inl (keyOf_mem_keysOf hm)), rfl⟩

/-- **An update keeps the refinement.** The rows of a key that it does not mention are
the ones that were there. -/
theorem applyUpdate_refines {d d' : Data} (hc : Consistent d) (hc' : Consistent d')
    (ho : Owned digest peer keys d) (hinj : Set.InjOn (routeId digest peer) keys)
    (hu : Decoded update) (hsep : Separate update) (hkeys : ∀ k, Mentions update k → k ∈ keys)
    (ha : applyUpdate digest o update peer d = some d') :
    (∀ k, ¬ Mentions update k → rowsOf d' k = rowsOf d k) ∧
      ∀ t, Refines d t → Refines d' (t.apply peer update) := by
  have ho' := applyUpdate_owned hc ho hu hkeys ha
  -- on the keys that occur, ids and keys mention the same
  have hids : ∀ kind, ∀ k ∈ keys,
      routeId digest peer k ∈ idsOf digest update peer kind ↔ k ∈ keysOf update kind := by
    intro kind k hk
    refine routeId_mem_idsOf_iff hinj (fun k' hk' => hkeys k' ?_) hk
    cases kind with
    | announce => exact Or.inl hk'
    | withdraw => exact Or.inr hk'
  have hframe : ∀ k, ¬ Mentions update k → rowsOf d' k = rowsOf d k := by
    intro k hm
    by_cases hk : k ∈ keys
    · obtain ⟨hann, hw⟩ := not_or.mp hm
      rw [rowsOf_eq hc'.indexed ho' hinj hk, rowsOf_eq hc.indexed ho hinj hk,
        applyUpdate_other hc ha (mt (hids _ k hk).mp hann) (mt (hids _ k hk).mp hw)]
    · rw [rowsOf_of_not_mem hc'.indexed ho' hk, rowsOf_of_not_mem hc.indexed ho hk]
  refine ⟨hframe, fun t ht k => ?_⟩
  by_cases hm : Mentions update k
  · have hk := hkeys k hm
    rw [rowsOf_eq hc'.indexed ho' hinj hk]
    by_cases hann : k ∈ keysOf update .announce
    · have hw := mt (hids .withdraw k hk).mp (hsep k hann)
      -- the announced route stays, since the UPDATE does not withdraw its key
      obtain ⟨e, hmem, hid, receivedAt, hrow⟩ :=
        applyUpdate_kept hc ha ((hids .announce k hk).mpr hann) hw
      have hkey : keyOf e.1 e.2 = k := hinj (hkeys _ (Or.inl (keyOf_mem_keysOf hmem))) hk hid
      rw [hrow, ← hkey, Table.apply_announced hu hmem, Option.toList_some, List.map_singleton,
        entryOf_content]
      rfl
    · have hw := hm.resolve_left hann
      rw [applyUpdate_withdrawn hc ha ((hids .withdraw k hk).mpr hw), Table.apply_withdrawn hann hw]
      rfl
  · rw [hframe k hm, Table.apply_other hm]
    exact ht k

end

/-! ### Runs of updates -/

/-- A call of `apply_update`. -/
structure Call where
  outside : Outside
  update : Json

section Calls

variable (digest : Bytes → Vector UInt8 20) (peer : String)

/-- The calls, one after the other. -/
def applyCalls (calls : List Call) (d : Data) : Option Data :=
  calls.foldlM (fun d c => applyUpdate digest c.outside c.update peer d) d

/-- The keys that occur in some calls. -/
def occurring (calls : List Call) : Set Key := {k | ∃ c ∈ calls, Mentions c.update k}

variable {digest peer} {keys : Set Key}

/-- What is known of the store between two calls. -/
structure Between (digest : Bytes → Vector UInt8 20) (peer : String) (keys : Set Key) (d : Data)
    (t : Table) : Prop where
  consistent : Consistent d
  owned : Owned digest peer keys d
  refines : Refines d t

/-- An empty store is the empty table, by any of the ids. -/
theorem Between.of_empty {d : Data} (h : Consistent d) (he : d.routes = .empty) :
    Between digest peer keys d Table.empty where
  consistent := h
  owned := by
    intro id r hr
    obtain ⟨⟨s, hs⟩, -⟩ := h.indexed.row_of_byId hr
    rw [he, OrdMap.find_empty] at hs
    exact absurd hs (by simp)
  refines := by
    intro k
    rw [rowsOf, he]
    rfl

/-- One call. -/
theorem Between.step {d : Data} {t : Table} (h : Between digest peer keys d t)
    (hinj : Set.InjOn (routeId digest peer) keys) {c : Call} (hu : Decoded c.update)
    (hsep : Separate c.update) (hkeys : ∀ k, Mentions c.update k → k ∈ keys) :
    ∃ d', applyUpdate digest c.outside c.update peer d = some d' ∧
      Between digest peer keys d' (t.apply peer c.update) ∧
      ∀ k, ¬ Mentions c.update k → rowsOf d' k = rowsOf d k := by
  obtain ⟨d', -, ha, -, hc'⟩ := applyUpdate_run digest c.outside c.update peer h.consistent
  obtain ⟨hframe, href⟩ :=
    applyUpdate_refines h.consistent hc' h.owned hinj hu hsep hkeys ha
  exact ⟨d', ha, ⟨hc', applyUpdate_owned h.consistent h.owned hu hkeys ha, href t h.refines⟩,
    hframe⟩

/-- All calls. -/
theorem Between.run (hinj : Set.InjOn (routeId digest peer) keys) {calls : List Call}
    (hu : ∀ c ∈ calls, Decoded c.update) (hsep : ∀ c ∈ calls, Separate c.update)
    (hkeys : occurring calls ⊆ keys) {d : Data} {t : Table} (h : Between digest peer keys d t) :
    ∃ d', applyCalls digest peer calls d = some d' ∧
      Between digest peer keys d' ((calls.map Call.update).foldl (Table.apply peer) t) := by
  -- call by call: the first one leads to a store between the tables, and the others on from there
  induction calls generalizing d t with
  | nil => exact ⟨d, rfl, h⟩
  | cons c calls ih =>
    have hc : ∀ k, Mentions c.update k → k ∈ keys := fun k hk =>
      hkeys ⟨c, List.mem_cons_self, hk⟩
    obtain ⟨d₁, ha, h₁, -⟩ :=
      h.step hinj (hu c List.mem_cons_self) (hsep c List.mem_cons_self) hc
    have hrest : occurring calls ⊆ keys := fun k hk =>
      hkeys (hk.imp fun _ hc => ⟨List.mem_cons_of_mem _ hc.1, hc.2⟩)
    obtain ⟨d', hr, h'⟩ := ih (fun c hc => hu c (List.mem_cons_of_mem _ hc))
      (fun c hc => hsep c (List.mem_cons_of_mem _ hc)) hrest h₁
    refine ⟨d', ?_, h'⟩
    rw [applyCalls, List.foldlM_cons, ha]
    exact hr

/-- What a run of calls leaves in the store. -/
structure RunFacts (digest : Bytes → Vector UInt8 20) (peer : String) (calls : List Call)
    (d₀ d : Data) : Prop where
  /-- The store refines the table. -/
  table : Refines d (tableOf peer (calls.map Call.update))
  /-- A key that was announced last has one row, with the content of that announcement. -/
  announced : ∀ k u, lastMention k (calls.map Call.update) = some u →
    ∀ e ∈ routesOf u .announce, keyOf e.1 e.2 = k →
      ∃ r, rowsOf d k = [r] ∧ r.content = contentOf u peer e
  /-- Any other key has no row. -/
  absent : ∀ k, (∀ u, lastMention k (calls.map Call.update) = some u → k ∉ keysOf u .announce) →
    rowsOf d k = []
  /-- A call leaves the rows alone whose keys it does not mention. -/
  frame : ∀ before c after, calls = before ++ c :: after →
    ∃ d₁ d₂, applyCalls digest peer before d₀ = some d₁ ∧
      applyUpdate digest c.outside c.update peer d₁ = some d₂ ∧
      ∀ k, ¬ Mentions c.update k → rowsOf d₂ k = rowsOf d₁ k

/-- **The store refines the table over whole runs.** -/
theorem applyCalls_runFacts {d₀ : Data} (h₀ : sections.Reachable d₀) (he : d₀.routes = .empty)
    {calls : List Call} (hu : ∀ c ∈ calls, Decoded c.update)
    (hsep : ∀ c ∈ calls, Separate c.update)
    (hinj : Set.InjOn (shortId digest) (Key.canonical peer '' occurring calls)) :
    ∃ d, applyCalls digest peer calls d₀ = some d ∧ RunFacts digest peer calls d₀ d := by
  -- ids that tell the canonical texts tell the keys
  have hids := routeId_injOn hinj
  have hstart : Between digest peer (occurring calls) d₀ Table.empty :=
    .of_empty (sections_consistent h₀) he
  obtain ⟨d, ha, hd⟩ := hstart.run hids hu hsep subset_rfl
  refine ⟨d, ha, hd.refines, ?_, ?_, ?_⟩
  · intro k u hlast e hmem hk
    -- the last call that mentions the key decides its row
    have hmention : u ∈ calls.map Call.update :=
      List.mem_reverse.mp (List.mem_of_find?_eq_some hlast)
    obtain ⟨c, hc, rfl⟩ := List.mem_map.mp hmention
    have ht : tableOf peer (calls.map Call.update) k = some (contentOf c.update peer e) := by
      rw [tableOf_eq, hlast, Option.bind_some, ← hk]
      exact Table.apply_announced (hu c hc) hmem
    have hrows := hd.refines k
    rw [show (calls.map Call.update).foldl (Table.apply peer) Table.empty k = _ from ht] at hrows
    obtain ⟨r, hr, hcontent⟩ := List.map_eq_singleton_iff.mp hrows
    exact ⟨r, hr, hcontent⟩
  · -- a key that was withdrawn last, or never mentioned, has no row
    intro k hlast
    have ht : tableOf peer (calls.map Call.update) k = none := by
      rw [tableOf_eq]
      cases hm : lastMention k (calls.map Call.update) with
      | none => rfl
      | some u =>
        have hmention : Mentions u k := by simpa using List.find?_some hm
        exact Table.apply_withdrawn (hlast u hm) (hmention.resolve_left (hlast u hm))
    have hrows := hd.refines k
    rw [show (calls.map Call.update).foldl (Table.apply peer) Table.empty k = _ from ht] at hrows
    exact List.map_eq_nil_iff.mp hrows
  · -- the run up to the call, and the call itself
    intro before c after hsplit
    have hbefore : ∀ c' ∈ before, c' ∈ calls := by
      intro c' hc'
      rw [hsplit]
      exact List.mem_append_left _ hc'
    have hc : c ∈ calls := by
      rw [hsplit]
      simp
    obtain ⟨d₁, h₁, hd₁⟩ := hstart.run hids (fun c' hc' => hu c' (hbefore c' hc'))
      (fun c' hc' => hsep c' (hbefore c' hc'))
      (fun k hk => hk.imp fun c' hc' => ⟨hbefore c' hc'.1, hc'.2⟩)
    obtain ⟨d₂, h₂, -, hframe⟩ := hd₁.step hids (hu c hc) (hsep c hc) fun k hk => ⟨c, hc, hk⟩
    exact ⟨d₁, d₂, h₁, h₂, hframe⟩

end Calls

/-! Two prefixes are announced, and one of them is withdrawn again. -/

/-- The update of a body. -/
def updateOf (body : Bytes) (asnLen : ℕ) : Json := (Wire.update body asnLen).toOption.getD .null

/-- A body that is accepted is decoded to its update. -/
theorem updateOf_ok {body : Bytes} {asnLen : ℕ} (h : (Wire.update body asnLen).isOk = true) :
    Wire.update body asnLen = .ok (updateOf body asnLen) := by
  cases hu : Wire.update body asnLen with
  | error e =>
    rw [hu] at h
    exact absurd h (by simp [Except.isOk, Except.toBool])
  | ok u =>
    rw [updateOf, hu]
    rfl

/-- 192.0.2.0/24 and 198.51.100.0/24 announced, and the first of them withdrawn. -/
def sampleBodies : List Bytes :=
  [[0, 0, 0, 7, 0x40, 3, 4, 192, 0, 2, 1, 24, 192, 0, 2, 24, 198, 51, 100],
    [0, 4, 24, 192, 0, 2, 0, 0]]

/-- A clock that stands still, and announcements reported first. -/
def sampleOutside : Outside :=
  ⟨fun _ => "2026-06-25T12:00:00.000000Z", fun _ => 0, fun _ => "2026-06-25T12:00:00.000000Z", true⟩

/-- The calls for these bodies. -/
def sampleCalls : List Call := sampleBodies.map fun body => ⟨sampleOutside, updateOf body 4⟩

/-- An address of a peer. -/
def samplePeer : String := "192.0.2.1"

/-- The keys that the sample calls mention. -/
def sampleKeys : List Key :=
  [.unicast "ipv4-unicast" (.str "192.0.2.0/24"), .unicast "ipv4-unicast" (.str "198.51.100.0/24")]

/-- SHA-1 on the texts of these keys. -/
def sampleDigest (data : Bytes) : Vector UInt8 20 :=
  if data = Key.canonical samplePeer (.unicast "ipv4-unicast" (.str "192.0.2.0/24")) then
    #v[0xb1, 0x22, 0x2d, 0xdc, 0x9d, 0xd2, 0xdb, 0xf2, 0x09, 0xe0, 0xf0, 0xce, 0x62, 0x55, 0x62,
      0x09, 0xf1, 0x22, 0xbe, 0x0c]
  else if data = Key.canonical samplePeer (.unicast "ipv4-unicast" (.str "198.51.100.0/24")) then
    #v[0x3f, 0xa1, 0x8c, 0x59, 0xbd, 0x37, 0xd6, 0x67, 0x77, 0xe9, 0x30, 0x1a, 0xa5, 0x3a, 0x55,
      0xc2, 0x40, 0x60, 0xb1, 0x2f]
  else Vector.replicate 20 0

theorem sampleCalls_decoded : ∀ c ∈ sampleCalls, Decoded c.update := by
  have hok : ∀ body ∈ sampleBodies, (Wire.update body 4).isOk = true := by decide
  intro c hc
  obtain ⟨body, hb, rfl⟩ := List.mem_map.mp hc
  exact ⟨body, 4, updateOf_ok (hok body hb)⟩

/-- The keys that occur in them are the sample's. -/
theorem sampleCalls_occurring {k : Key} (h : k ∈ occurring sampleCalls) : k ∈ sampleKeys := by
  have hkeys : ∀ c ∈ sampleCalls,
      ∀ k ∈ keysOf c.update .announce ++ keysOf c.update .withdraw, k ∈ sampleKeys := by
    decide
  obtain ⟨c, hc, hm⟩ := h
  exact hkeys c hc k (List.mem_append.mpr hm)

theorem sampleKeys_injOn : Set.InjOn (routeId sampleDigest samplePeer) {k | k ∈ sampleKeys} := by
  have hinj : ∀ k ∈ sampleKeys, ∀ k' ∈ sampleKeys,
      routeId sampleDigest samplePeer k = routeId sampleDigest samplePeer k' → k = k' := by
    decide
  exact fun k hk k' hk' => hinj k hk k' hk'

/-- The short ids tell the canonical texts of the sample's keys apart. -/
theorem sampleDigest_injOn : Set.InjOn (shortId sampleDigest)
    (Key.canonical samplePeer '' occurring sampleCalls) := by
  rintro - ⟨k, hk, rfl⟩ - ⟨k', hk', rfl⟩ h
  rw [sampleKeys_injOn (sampleCalls_occurring hk) (sampleCalls_occurring hk') h]

/-- The run of these calls from an empty table. -/
theorem sampleCalls_runFacts : ∃ d,
    applyCalls sampleDigest samplePeer sampleCalls (Data.new none) = some d ∧
      RunFacts sampleDigest samplePeer sampleCalls (Data.new none) d :=
  applyCalls_runFacts (.init ⟨none, rfl⟩) rfl sampleCalls_decoded (by decide)
    sampleDigest_injOn

end Rib
