import BgpReceiver.Rib.Refinement
import BgpReceiver.Wire.Network

/-!
# Longest-prefix search

`search` of `app.rs` splits the text of every unicast row at the slash, reads both parts
again and compares the address with the one that was asked for under a mask. Among the
rows that agree it reports one of the longest.

Reading addresses back is what the standard library does; `parse` stands for it, and the
results need that an address is read from its own text. Then a row agrees exactly when
the network that was announced for it contains the address (`prefixMatchLen_eq_some_iff`).
So after any calls of `apply_update` the answer is the row of the longest network around
the address (`search_exact`). There is no second one of the same length: networks of one
length around an address have one text, hence one key, one id and one row
(`row_unique`).
-/

namespace Rib

open Wire (Ip Net RawPrefix RawUpdate Source)

/-! ### The request -/

/-- An arm of `prefix_match_len`, for addresses of `w` bits. -/
def matchLen (w : ℕ) (net ip : Bytes) (len : ℕ) : Option ℕ :=
  if len ≤ w then
    let mask : BitVec w := if len = 0 then 0 else BitVec.allOnes w <<< (w - len)
    if BitVec.ofNat w (Wire.fromBeBytes net) &&& mask
        = BitVec.ofNat w (Wire.fromBeBytes ip) &&& mask then
      some len
    else none
  else none

/-- The arms of `prefix_match_len`. -/
def matchNet (net ip : Ip) (len : ℕ) : Option ℕ :=
  match net, ip with
  | .v4 net, .v4 ip => matchLen 32 net.toList ip.toList len
  | .v6 net, .v6 ip => matchLen 128 net.toList ip.toList len
  | _, _ => none

section Search

variable (parse : String → Option Ip)

/-- `prefix_match_len`; `parse` is `str::parse::<IpAddr>`. -/
def prefixMatchLen (pfx : String) (ip : Ip) : Option ℕ := do
  let (net, len) ← Text.splitOnce pfx '/'
  let len ← Text.parseU8 len
  let net ← parse net
  matchNet net ip len

/-- `max_by_key`: the last of the elements with the greatest key. -/
def maxByKey {α : Type} (f : α → ℕ) (l : List α) : Option α := l.reverse.argmax f

/-- The rows that agree with the address, with the lengths of their prefixes. -/
def matching (routes : List Route) (ip : Ip) : List (ℕ × Route) :=
  (routes.filter fun r => r.family = .unicast).filterMap fun r => do
    let pfx ← r.pfx
    let len ← prefixMatchLen parse pfx ip
    return (len, r)

/-- The answer with a row. -/
def found (len : ℕ) (route : Route) : Json :=
  .object [("match", .bool true), ("length", .num len), ("route", route.toJson)]

/-- The answer without a row. -/
def notFound : Json := .object [("match", .bool false)]

/-- An error that a handler returns. -/
structure ApiError where
  status : ℕ
  body : Json

/-- `bad`. -/
def bad (message : String) : ApiError := ⟨400, .object [("error", .str message)]⟩

/-- `search`. -/
def search (d : Data) (q : String) : Except ApiError Json :=
  match parse (Text.trim q) with
  | none => .error (bad "invalid ip")
  | some ip =>
    .ok (match maxByKey Prod.fst (matching parse d.routes.values ip) with
      | some (len, route) => found len route
      | none => notFound)

end Search

/-! ### What a row is compared with -/

/-- The octets match when their leading bits are the same. -/
theorem matchLen_eq_some_iff {w : ℕ} {net ip : Bytes} (hnet : 8 * net.length = w)
    (hip : 8 * ip.length = w) {len n : ℕ} (hlen : len ≤ w) :
    matchLen w net ip len = some n ↔
      (∀ i < len, Bits.bitAt net i = Bits.bitAt ip i) ∧ n = len := by
  have hmask := Bits.and_prefixMask_inj hlen (BitVec.ofNat w (Wire.fromBeBytes net))
    (BitVec.ofNat w (Wire.fromBeBytes ip))
  -- the masked values agree when the addresses do in each bit under the mask
  have hbits : (∀ i < len, (BitVec.ofNat w (Wire.fromBeBytes net)).getMsbD i
      = (BitVec.ofNat w (Wire.fromBeBytes ip)).getMsbD i) ↔
      ∀ i < len, Bits.bitAt net i = Bits.bitAt ip i := by
    refine forall₂_congr fun i hi => ?_
    rw [← Bits.getMsbD_value hnet (hi.trans_le hlen), ← Bits.getMsbD_value hip (hi.trans_le hlen)]
    exact Iff.rfl
  have heq : matchLen w net ip len = if BitVec.ofNat w (Wire.fromBeBytes net) &&&
      Bits.prefixMask w len = BitVec.ofNat w (Wire.fromBeBytes ip) &&& Bits.prefixMask w len
      then some len else none := if_pos hlen
  rw [heq]
  constructor
  · intro h
    split_ifs at h with hc
    exact ⟨hbits.mp (hmask.mp hc), (Option.some.inj h).symm⟩
  · rintro ⟨h, rfl⟩
    exact if_pos (hmask.mpr (hbits.mpr h))

/-- Addresses of one family match when their leading bits are the same. -/
theorem matchNet_eq_some_iff {net ip : Ip} {len n : ℕ} (hlen : len ≤ Wire.maxBits net.afi) :
    matchNet net ip len = some n ↔
      ip.afi = net.afi ∧ (∀ i < len, Bits.bitAt net.octets i = Bits.bitAt ip.octets i) ∧
        n = len := by
  -- addresses of two families never match
  cases net with
  | v4 net =>
    cases ip with
    | v4 ip =>
      change matchLen 32 net.toList ip.toList len = some n ↔ _
      rw [matchLen_eq_some_iff (congrArg (8 * ·) net.length_toList)
        (congrArg (8 * ·) ip.length_toList) hlen]
      exact ⟨fun h => ⟨rfl, h⟩, fun h => h.2⟩
    | v6 ip => simp [matchNet, Ip.afi]
  | v6 net =>
    cases ip with
    | v4 ip => simp [matchNet, Ip.afi]
    | v6 ip =>
      change matchLen 128 net.toList ip.toList len = some n ↔ _
      rw [matchLen_eq_some_iff (congrArg (8 * ·) net.length_toList)
        (congrArg (8 * ·) ip.length_toList) hlen]
      exact ⟨fun h => ⟨rfl, h⟩, fun h => h.2⟩

variable {parse : String → Option Ip}

/-- **A row agrees with an address** when its network contains the address. -/
theorem prefixMatchLen_eq_some_iff (hparse : ∀ ip : Ip, parse ip.text = some ip) (n : Net) (ip : Ip)
    {len : ℕ} : prefixMatchLen parse n.text ip = some len ↔ n.Contains ip ∧ len = n.bits := by
  obtain ⟨base, htext, hafi, hbits⟩ := n.text_eq
  have hle : n.bits ≤ Wire.maxBits base.afi := hafi ▸ n.pfx.bits_le
  have hlt : n.bits < 256 := by
    have hmax : Wire.maxBits base.afi ≤ 128 := by
      unfold Wire.maxBits
      split_ifs <;> decide
    omega
  have hread : prefixMatchLen parse n.text ip = matchNet base ip n.bits := by
    rw [prefixMatchLen, htext, Text.splitOnce_append rfl base.slash_not_mem_text]
    simp only [Option.bind_eq_bind, Option.bind_some, Text.parseU8_repr _ hlt, hparse]
  -- the bits of the text are those of the prefix
  have hsame : (∀ i < n.bits, Bits.bitAt base.octets i = Bits.bitAt ip.octets i) ↔
      ∀ i < n.bits, Bits.bitAt ip.octets i = Bits.bitAt n.pfx.raw i := by
    refine forall₂_congr fun i hi => ?_
    rw [hbits i, decide_eq_true hi, Bool.true_and]
    exact eq_comm
  rw [hread, matchNet_eq_some_iff hle, hsame, hafi, ← and_assoc]
  exact Iff.rfl

/-! ### The networks of the rows -/

/-- A prefix stands in a place of an UPDATE. -/
def Lists (s : Source) (n : Net) : Prop :=
  s.family = n.family ∧ ∃ ps : List (RawPrefix n.family.afi),
    s.octets = ps.flatMap RawPrefix.octets ∧ n.pfx ∈ ps

/-- An UPDATE announces a prefix. -/
def Announces (r : RawUpdate) (n : Net) : Prop := ∃ s ∈ r.announceSources, Lists s n

/-- The prefix, as one of the calls decoded it from the wire, that a row is about. -/
def NetOf (calls : List Call) (row : Route) (n : Net) : Prop :=
  row.afi = n.family.label ∧ row.pfx = some n.text ∧
    ∃ c ∈ calls, ∃ body asnLen r, Wire.update body asnLen = .ok c.update ∧ r.Enc body ∧
      Announces r n

/-- The unicast groups are those of the SAFI 1. -/
theorem familyOf_unicast_iff (f : Wire.Family) : familyOf f.label = .unicast ↔ f.safi = 1 := by
  cases f <;> decide

/-- A unicast route of a decoded update is a prefix of the UPDATE. -/
theorem exists_net_of_mem {body : Bytes} {asnLen : ℕ} {u : Json}
    (hu : Wire.update body asnLen = .ok u) {label : String} {route : Json}
    (h : (label, route) ∈ routesOf u .announce) (hf : familyOf label = .unicast) :
    ∃ (n : Net) (r : RawUpdate), label = n.family.label ∧ route.index "prefix" = .str n.text ∧
      r.Enc body ∧ Announces r n := by
  obtain ⟨r, henc, hd, hg⟩ := groups_of_update hu
  obtain ⟨f, rfl, s, hs, hr⟩ := mem_reported_iff.mp (routesOf_eq_reported (hg .announce) ▸ h)
  obtain ⟨hmem, hsf⟩ := List.mem_filter.mp (List.mem_of_mem_getLast? hs)
  obtain rfl : s.family = f := of_decide_eq_true hsf
  obtain ⟨routes, hdec⟩ := hd .announce s hmem
  rw [Source.routes_of_decoded hdec] at hr
  have hsafi := (familyOf_unicast_iff s.family).mp hf
  have hafi : s.family.afi = 1 ∨ s.family.afi = 2 := by
    cases s.family <;> decide
  rw [Source.decoded, if_neg (by rw [hsafi]; decide)] at hdec
  -- the decoded routes are the prefixes written in the source's octets
  obtain ⟨ps, hoctets, rfl⟩ := (Wire.unicast_ok_iff_prefixes hafi).mp hdec
  obtain ⟨p, hp, rfl⟩ := List.mem_map.mp hr
  exact ⟨⟨s.family, hsafi, p⟩, r, rfl, index_prefix_routeJson _ _, henc, s, hmem, rfl, ps, hoctets,
    hp⟩

/-- Every unicast row is about a prefix on the wire. -/
def Networked (calls : List Call) (d : Data) : Prop :=
  ∀ id r, d.byId id = some r → r.family = .unicast → ∃ n, NetOf calls r n

theorem entryOf_family (sh : Shared) (id receivedAt label : String) (route : Json) :
    (entryOf sh id receivedAt label route).family = familyOf label := by
  unfold entryOf
  cases familyOf label <;> rfl

/-- One call. -/
theorem Networked.step {digest : Bytes → Vector UInt8 20} {peer : String} {calls : List Call}
    {d d' : Data} (h : Networked calls d) (hc : Consistent d) {c : Call} (hmem : c ∈ calls)
    (hu : Decoded c.update) (ha : applyUpdate digest c.outside c.update peer d = some d') :
    Networked calls d' := by
  intro id r hr
  -- a row of the call is one of its routes, and what was there is there from before
  refine applyUpdate_rows (P := fun _ r => r.family = .unicast → ∃ n, NetOf calls r n) hc ha h ?_ hr
  intro label route receivedAt hroute hfamily
  rw [entryOf_family] at hfamily
  obtain ⟨body, asnLen, hu⟩ := hu
  obtain ⟨n, r, rfl, htext, henc, hann⟩ := exists_net_of_mem hu hroute hfamily
  refine ⟨n, ?_, ?_, c, hmem, body, asnLen, r, hu, henc, hann⟩
  · unfold entryOf
    rw [hfamily]
  · unfold entryOf
    rw [hfamily]
    simp only [htext]
    rfl

/-- What is known of the store between two calls. -/
structure Searchable (digest : Bytes → Vector UInt8 20) (peer : String) (calls : List Call)
    (d : Data) : Prop where
  consistent : Consistent d
  owned : Owned digest peer Set.univ d
  networked : Networked calls d

/-- Calls keep the store searchable, one after the other. -/
theorem Searchable.run {digest : Bytes → Vector UInt8 20} {peer : String} {all calls : List Call}
    (hsub : ∀ c ∈ calls, c ∈ all) (hu : ∀ c ∈ calls, Decoded c.update) {d : Data}
    (h : Searchable digest peer all d) :
    ∃ d', applyCalls digest peer calls d = some d' ∧ Searchable digest peer all d' := by
  -- call by call
  induction calls generalizing d with
  | nil => exact ⟨d, rfl, h⟩
  | cons c calls ih =>
    have hc := hu c List.mem_cons_self
    obtain ⟨d₁, -, ha, -, hc₁⟩ := applyUpdate_run digest c.outside c.update peer h.consistent
    have h₁ : Searchable digest peer all d₁ :=
      ⟨hc₁, applyUpdate_owned h.consistent h.owned hc (fun _ _ => Set.mem_univ _) ha,
        h.networked.step h.consistent (hsub c List.mem_cons_self) hc ha⟩
    obtain ⟨d', hr, h'⟩ := ih (fun c hc => hsub c (List.mem_cons_of_mem _ hc))
      (fun c hc => hu c (List.mem_cons_of_mem _ hc)) h₁
    refine ⟨d', ?_, h'⟩
    rw [applyCalls, List.foldlM_cons, ha]
    exact hr

/-! ### The answer -/

/-- There is a largest element exactly when there is one. -/
theorem maxByKey_eq_none_iff {α : Type} {f : α → ℕ} {l : List α} :
    maxByKey f l = none ↔ l = [] := by
  rw [maxByKey, List.argmax_eq_none, List.reverse_eq_nil_iff]

/-- The largest element is in the list, and no other is above it. -/
theorem maxByKey_spec {α : Type} {f : α → ℕ} {l : List α} {a : α} (h : maxByKey f l = some a) :
    a ∈ l ∧ ∀ b ∈ l, f b ≤ f a :=
  ⟨List.mem_reverse.mp (List.argmax_mem h), fun _ hb =>
    List.le_of_mem_argmax (List.mem_reverse.mpr hb) h⟩

/-- What matches is a unicast row whose prefix matches. -/
theorem mem_matching_iff {routes : List Route} {ip : Ip} {len : ℕ} {r : Route} :
    (len, r) ∈ matching parse routes ip ↔ r ∈ routes ∧ r.family = .unicast ∧
      ∃ pfx, r.pfx = some pfx ∧ prefixMatchLen parse pfx ip = some len := by
  unfold matching
  simp only [List.mem_filterMap, List.mem_filter, decide_eq_true_eq, Option.bind_eq_bind,
    Option.bind_eq_some_iff, Option.pure_def, Option.some.injEq, Prod.mk.injEq]
  constructor
  · rintro ⟨r, ⟨hr, hf⟩, pfx, hpfx, len, hlen, rfl, rfl⟩
    exact ⟨hr, hf, pfx, hpfx, hlen⟩
  · rintro ⟨hr, hf, pfx, hpfx, hlen⟩
    exact ⟨r, ⟨hr, hf⟩, pfx, hpfx, len, hlen, rfl, rfl⟩

/-- The row under a number is unicast, and its network, of the given length, contains the
address. -/
def Covers (calls : List Call) (d : Data) (ip : Ip) (s : ℕ) (r : Route) (len : ℕ) : Prop :=
  d.routes.find s = some r ∧ r.family = .unicast ∧
    ∃ n, NetOf calls r n ∧ n.Contains ip ∧ n.bits = len

/-- What a search for an address answers. -/
structure Exact (calls : List Call) (d : Data) (ip : Ip) (answer : Json) : Prop where
  /-- Every unicast row has a network. -/
  networks : ∀ s r, d.routes.find s = some r → r.family = .unicast → ∃ n, NetOf calls r n
  /-- It has no other network. -/
  network : ∀ r n n', NetOf calls r n → NetOf calls r n' →
    n.bits = n'.bits ∧ ∀ ip, n.Contains ip ↔ n'.Contains ip
  /-- Nothing is found when no row covers the address. -/
  absent : answer = notFound ↔ ∀ s r len, ¬ Covers calls d ip s r len
  /-- A row that is found covers the address, and no other row does with that length or a
  greater one. -/
  longest : answer ≠ notFound → ∃ s r len, Covers calls d ip s r len ∧ answer = found len r ∧
    (∀ s' r' len', Covers calls d ip s' r' len' → len' ≤ len) ∧
    ∀ s' r', Covers calls d ip s' r' len → s' = s

/-- **Networks of one length around an address** belong to one row. -/
theorem row_unique {digest : Bytes → Vector UInt8 20} {peer : String} {calls : List Call} {d : Data}
    (h : Searchable digest peer calls d) {ip : Ip} {s s' len : ℕ} {r r' : Route}
    (hc : Covers calls d ip s r len) (hc' : Covers calls d ip s' r' len) : s' = s := by
  obtain ⟨hr, hf, n, ⟨hl, ht, -⟩, hn, hb⟩ := hc
  obtain ⟨hr', hf', n', ⟨hl', ht', -⟩, hn', hb'⟩ := hc'
  have htext : n.text = n'.text := Net.text_of_contains hn hn' (hb.trans hb'.symm)
  have hlabel : r.afi = r'.afi := by
    rw [hl, hl', Net.family_inj (hn.1.symm.trans hn'.1)]
  -- one key, hence one id
  have hkey : r.key = r'.key := by
    simp only [Route.key, hf, hf', hlabel, ht, ht', htext]
  have hid : r.id = r'.id := by
    rw [(h.owned _ _ (h.consistent.indexed.byId_of_row hr)).2, hkey,
      ← (h.owned _ _ (h.consistent.indexed.byId_of_row hr')).2]
  have hs := h.consistent.indexed.index s r hr
  rw [hid, h.consistent.indexed.index s' r' hr'] at hs
  exact Option.some.inj hs

/-- **What matches covers the address**, and the other way round. -/
theorem Searchable.covers_iff {digest : Bytes → Vector UInt8 20} {peer : String}
    {calls : List Call} {d : Data} (h : Searchable digest peer calls d)
    (hparse : ∀ ip : Ip, parse ip.text = some ip) {ip : Ip} {len : ℕ} {r : Route} :
    (len, r) ∈ matching parse d.routes.values ip ↔ ∃ s, Covers calls d ip s r len := by
  rw [mem_matching_iff, OrdMap.mem_values_iff]
  constructor
  · rintro ⟨⟨s, hr⟩, hf, pfx, hpfx, hlen⟩
    obtain ⟨n, hn⟩ := h.networked r.id r (h.consistent.indexed.byId_of_row hr) hf
    obtain rfl : pfx = n.text := Option.some.inj (hpfx.symm.trans hn.2.1)
    obtain ⟨hcontains, rfl⟩ := (prefixMatchLen_eq_some_iff hparse n ip).mp hlen
    exact ⟨s, hr, hf, n, hn, hcontains, rfl⟩
  · rintro ⟨s, hr, hf, n, hn, hcontains, rfl⟩
    exact ⟨⟨s, hr⟩, hf, n.text, hn.2.1,
      (prefixMatchLen_eq_some_iff hparse n ip).mpr ⟨hcontains, rfl⟩⟩

/-- An answer that finds something is another one than the one that does not. -/
theorem found_ne_notFound (len : ℕ) (r : Route) : found len r ≠ notFound := by
  intro h
  have hmatch := congrArg (Json.index "match") h
  simp [found, notFound, Json.index, Entries.find_cons] at hmatch

/-- The answer over a searchable store is exact. -/
theorem Searchable.exact {digest : Bytes → Vector UInt8 20} {peer : String} {calls : List Call}
    {d : Data} (h : Searchable digest peer calls d) (hparse : ∀ ip : Ip, parse ip.text = some ip)
    {q : String} {ip : Ip} (hq : parse (Text.trim q) = some ip) :
    ∃ answer, search parse d q = .ok answer ∧ Exact calls d ip answer := by
  have hnetworks : ∀ s r, d.routes.find s = some r → r.family = .unicast →
      ∃ n, NetOf calls r n := fun s r hr =>
    h.networked r.id r (h.consistent.indexed.byId_of_row hr)
  have hnetwork : ∀ r n n', NetOf calls r n → NetOf calls r n' →
      n.bits = n'.bits ∧ ∀ ip, n.Contains ip ↔ n'.Contains ip := fun r n n' hn hn' =>
    Net.contains_of_text (Option.some.inj (hn.2.1.symm.trans hn'.2.1))
  unfold search
  rw [hq]
  refine ⟨_, rfl, ?_⟩
  cases hm : maxByKey Prod.fst (matching parse d.routes.values ip) with
  | none =>
    -- nothing matches, so no stored network covers the address
    have hnil := maxByKey_eq_none_iff.mp hm
    refine ⟨hnetworks, hnetwork, iff_of_true rfl fun s r len hc => ?_, fun hne => absurd rfl hne⟩
    have hmem := (h.covers_iff hparse).mpr ⟨s, hc⟩
    rw [hnil] at hmem
    exact absurd hmem (by simp)
  | some best =>
    obtain ⟨len, r⟩ := best
    -- the best match is a covering row, and none covers with more bits
    obtain ⟨hmem, hmax⟩ := maxByKey_spec hm
    obtain ⟨s, hc⟩ := (h.covers_iff hparse).mp hmem
    refine ⟨hnetworks, hnetwork, iff_of_false (found_ne_notFound len r) fun hno => hno s r len hc,
      fun _ => ⟨s, r, len, hc, rfl, ?_, fun s' r' hc' => row_unique h hc hc'⟩⟩
    exact fun s' r' len' hc' => hmax (len', r') ((h.covers_iff hparse).mpr ⟨s', hc'⟩)

/-- **Longest-prefix search is exact** after any calls of `apply_update` for one peer. -/
theorem search_exact {digest : Bytes → Vector UInt8 20} {peer : String} {d₀ : Data}
    (h₀ : sections.Reachable d₀) (he : d₀.routes = .empty) {calls : List Call}
    (hu : ∀ c ∈ calls, Decoded c.update) {parse : String → Option Ip}
    (hparse : ∀ ip : Ip, parse ip.text = some ip) :
    ∃ d, applyCalls digest peer calls d₀ = some d ∧
      ∀ q ip, parse (Text.trim q) = some ip →
        ∃ answer, search parse d q = .ok answer ∧ Exact calls d ip answer := by
  have hstart : Searchable digest peer calls d₀ := by
    have hnone : ∀ id r, d₀.byId id ≠ some r := by
      intro id r hr
      obtain ⟨⟨s, hs⟩, -⟩ := (sections_consistent h₀).indexed.row_of_byId hr
      rw [he, OrdMap.find_empty] at hs
      exact absurd hs (by simp)
    exact ⟨sections_consistent h₀, fun id r hr => absurd hr (hnone id r),
      fun id r hr => absurd hr (hnone id r)⟩
  obtain ⟨d, ha, hd⟩ := hstart.run (fun c hc => hc) hu
  exact ⟨d, ha, fun q ip hq => hd.exact hparse hq⟩

/-! Two networks, one inside the other. -/

/-- The announcement of 203.0.113.0/24 and 203.0.113.128/25. -/
def nestedBody : Bytes :=
  [0, 0, 0, 7, 0x40, 3, 4, 192, 0, 2, 1, 24, 203, 0, 113, 25, 203, 0, 113, 128]

/-- Two prefixes, the one in the other. -/
def nestedCalls : List Call := [⟨sampleOutside, updateOf nestedBody 2⟩]

/-- SHA-1 on the texts of the two keys. -/
def nestedDigest (data : Bytes) : Vector UInt8 20 :=
  if data = Key.canonical samplePeer (.unicast "ipv4-unicast" (.str "203.0.113.0/24")) then
    #v[0xf5, 0xed, 0x77, 0xd7, 0xee, 0x3f, 0x2a, 0x17, 0x68, 0xad, 0xe0, 0xd4, 0xd1, 0xb0, 0x88,
      0xe9, 0x5a, 0x4c, 0xc5, 0x95]
  else if data = Key.canonical samplePeer (.unicast "ipv4-unicast" (.str "203.0.113.128/25")) then
    #v[0xa9, 0x8f, 0x82, 0x89, 0xc3, 0xb7, 0x98, 0x14, 0x6f, 0x78, 0xe3, 0x5a, 0x48, 0x23, 0x74,
      0x04, 0x93, 0x53, 0xd3, 0xf4]
  else Vector.replicate 20 0

/-- Reads the texts that `IpAddr::to_string` prints. -/
noncomputable def readBack : String → Option Ip := Function.partialInv Ip.text

/-- The store has a row of each network, and an address that both cover is looked up. -/
theorem search_exact_nested : ∃ d,
    applyCalls nestedDigest samplePeer nestedCalls (Data.new none) = some d ∧
      d.routes.values.length = 2 ∧
      ∃ answer, search readBack d " 203.0.113.130" = .ok answer ∧
        Exact nestedCalls d (.v4 #v[203, 0, 113, 130]) answer := by
  have hread : ∀ ip : Ip, readBack ip.text = some ip := Function.partialInv_left Ip.text_injective
  have hok : (Wire.update nestedBody 2).isOk = true := by decide
  have hupdate : Decoded (updateOf nestedBody 2) := ⟨nestedBody, 2, updateOf_ok hok⟩
  have hdecoded : ∀ c ∈ nestedCalls, Decoded c.update := by
    simp only [nestedCalls, List.mem_singleton, forall_eq]
    exact hupdate
  obtain ⟨d, ha, hd⟩ := @search_exact nestedDigest samplePeer _
    (.init ⟨none, rfl⟩) rfl _ hdecoded _ hread
  -- the call is evaluated for the number of its rows only
  have hrows : (applyCalls nestedDigest samplePeer nestedCalls (Data.new none)).map
      (fun d => d.routes.values.length) = some 2 := by
    decide +kernel
  rw [ha] at hrows
  refine ⟨d, ha, Option.some.inj hrows, hd _ _ ?_⟩
  -- the query has a space in front of the address
  have htrim : Text.trim " 203.0.113.130" = Ip.text (.v4 #v[203, 0, 113, 130]) := by
    decide
  rw [htrim, hread]

end Rib
