import BgpReceiver.Framework.Suffix
import BgpReceiver.Framework.System
import BgpReceiver.Rib.Apply

/-!
# What holds of the store at every moment

The critical sections are the steps of a transition system (`Rib.sections`), so its
reachable states are what the data can be whenever its lock is free, whatever the
tasks that take the lock in turn.

Three things hold there. The index and the rows match each other (`Indexed`). The
counters are a recount of the rows (`Counted`). The history is within its bounds
(`Recorded`). Together they are `Consistent`, and a consistent state lets no section
panic (`Section.run_consistent`).

`insert` alone would break the index when its id is in use. The one section that
inserts has removed the id before, which is what the proof of `applyRoute_consistent`
rests on.
-/

namespace Rib

open Data (metrics addressFamily)

/-! ### The invariants -/

/-- `ids` and `routes` match each other, and no number is above `sequence`. -/
structure Indexed (d : Data) : Prop where
  /-- An id leads to a row with that id. -/
  row : ∀ id s, d.ids.find id = some s → ∃ r, d.routes.find s = some r ∧ r.id = id
  /-- A row is where its id leads to. -/
  index : ∀ s r, d.routes.find s = some r → d.ids.find r.id = some s
  /-- Numbers that are in use have been given out. -/
  bound : ∀ s r, d.routes.find s = some r → s ≤ d.sequence

/-- The two counters a row is counted in. -/
def countKeys (r : Route) : List String := [r.family.text, addressFamily r]

/-- The counters are a recount of the rows. -/
structure Counted (d : Data) : Prop where
  counts : Tally.Totals d.counts (d.routes.values.flatMap countKeys)
  analytics : Tally.Grouped analyticsTables d.analytics (d.routes.values.flatMap metrics)

/-- The history is within its bounds. -/
structure Recorded (d : Data) : Prop where
  bytes : d.historyBytes = (d.history.map String.utf8ByteSize).sum
  size : d.historyBytes ≤ Data.historyBytesLimit
  events : d.history.length ≤ Data.historyEventsLimit

/-- What every lock section keeps: the store with its index, the statistics, and the history with
its length. -/
structure Consistent (d : Data) : Prop where
  indexed : Indexed d
  counted : Counted d
  recorded : Recorded d

/-- The part of the data that the store is. -/
def Data.store (d : Data) :
    OrdMap ℕ Route × OrdMap String ℕ × ℕ × OrdMap String ℕ × OrdMap String (OrdMap String ℕ) :=
  (d.routes, d.ids, d.sequence, d.counts, d.analytics)

/-- The part of the data that the history is. -/
def Data.log (d : Data) : List String × ℕ := (d.history, d.historyBytes)

theorem Recorded.of_eq {d d' : Data} (h : Recorded d) (hl : d'.log = d.log) : Recorded d' := by
  simp only [Data.log, Prod.mk.injEq] at hl
  obtain ⟨hh, hb⟩ := hl
  exact ⟨by rw [hh, hb, h.bytes], hb ▸ h.size, hh ▸ h.events⟩

/-- The invariants say nothing about anything else. -/
theorem Consistent.of_eq {d d' : Data} (h : Consistent d) (hs : d'.store = d.store)
    (hl : d'.log = d.log) : Consistent d' := by
  obtain ⟨⟨h₁, h₂, h₃⟩, ⟨h₄, h₅⟩, hrec⟩ := h
  simp only [Data.store, Prod.mk.injEq] at hs
  obtain ⟨hr, hi, hq, hc, ha⟩ := hs
  refine ⟨⟨?_, ?_, ?_⟩, ⟨?_, ?_⟩, hrec.of_eq hl⟩
  · rwa [hr, hi]
  · rwa [hr, hi]
  · rwa [hr, hq]
  · rwa [hr, hc]
  · rwa [hr, ha]

/-! ### Counting -/

/-- A route is counted in tables that the program has. -/
theorem metrics_table (r : Route) : ∀ e ∈ metrics r, e.1 ∈ analyticsTables := by
  intro e he
  unfold metrics at he
  -- a prefix is counted by its values, a rule by its actions and its components
  split at he
  · simp only [List.mem_append, List.mem_map] at he
    rcases he with ((⟨c, -, rfl⟩ | ⟨n, -, rfl⟩) | ⟨nh, -, rfl⟩) | ⟨p, -, rfl⟩ <;>
      simp [analyticsTables]
  · rcases List.mem_append.mp he with he | he
    · obtain ⟨a, -, rfl⟩ := List.mem_map.mp he
      simp [analyticsTables]
    · obtain ⟨t, ht, he⟩ := List.mem_flatMap.mp he
      obtain ⟨v, -, rfl⟩ := List.mem_map.mp he
      simp only [Data.matchTables, List.mem_cons, List.not_mem_nil, or_false] at ht
      rcases ht with rfl | rfl | rfl | rfl <;> simp [analyticsTables]

/-- **Counting a row in** cannot fail. -/
theorem count_add {d : Data} {l : List String} {m : List (String × String)} (r : Route)
    (hc : Tally.Totals d.counts l) (ha : Tally.Grouped analyticsTables d.analytics m) :
    ∃ c a, d.count r true = some { d with counts := c, analytics := a } ∧
      Tally.Totals c (countKeys r ++ l) ∧ Tally.Grouped analyticsTables a (metrics r ++ m) := by
  obtain ⟨c, hc, htc⟩ := hc.raise (countKeys r)
  obtain ⟨a, ha, hta⟩ := ha.raise (metrics r) (metrics_table r)
  refine ⟨c, a, ?_, htc, hta⟩
  unfold Data.count
  change (countKeys r).foldlM (Tally.bump true) d.counts >>= _ = _
  rw [hc, Option.bind_eq_bind, Option.bind_some, ha]
  rfl

/-- **Counting a row out** cannot fail when it is counted in. -/
theorem count_remove {d : Data} {l : List String} {m : List (String × String)} (r : Route)
    (hc : Tally.Totals d.counts (countKeys r ++ l))
    (ha : Tally.Grouped analyticsTables d.analytics (metrics r ++ m)) :
    ∃ c a, d.count r false = some { d with counts := c, analytics := a } ∧
      Tally.Totals c l ∧ Tally.Grouped analyticsTables a m := by
  obtain ⟨c, hc, htc⟩ := Tally.Totals.lower (countKeys r) hc
  obtain ⟨a, ha, hta⟩ := Tally.Grouped.lower (metrics r) ha (metrics_table r)
  refine ⟨c, a, ?_, htc, hta⟩
  unfold Data.count
  change (countKeys r).foldlM (Tally.bump false) d.counts >>= _ = _
  rw [hc, Option.bind_eq_bind, Option.bind_some, ha]
  rfl

/-! ### Removing and inserting -/

section

variable (d : Data) (counts : OrdMap String ℕ) (analytics : OrdMap String (OrdMap String ℕ))
  (instant : ℕ)

/-- The data without the row of an id, with the counters that are left. -/
def Data.dropped (id : String) (s : ℕ) : Data :=
  { d with
    ids := d.ids.erase id, routes := d.routes.erase s, counts := counts, analytics := analytics
    dirty := some instant }

/-- The data with one more row, with the counters that it leads to. -/
def Data.stored (r : Route) : Data :=
  { d with
    sequence := d.sequence + 1, ids := d.ids.insert r.id (d.sequence + 1)
    routes := d.routes.insert (d.sequence + 1) r, counts := counts, analytics := analytics
    dirty := some instant }

end

/-- **What `remove` does.** An id that is not there changes nothing; otherwise the row
and its index entry go, and the row is counted out. -/
theorem remove_spec {d : Data} (hi : Indexed d) (hc : Counted d) (id : String) (instant : ℕ) :
    (d.ids.find id = none ∧ d.remove id instant = some (d, false)) ∨
      ∃ s r c a, d.ids.find id = some s ∧ d.routes.find s = some r ∧ r.id = id ∧
        d.remove id instant = some (d.dropped c a instant id s, true) ∧
        Counted (d.dropped c a instant id s) := by
  cases hid : d.ids.find id with
  | none => exact Or.inl ⟨rfl, by rw [Data.remove, hid]⟩
  | some s =>
    obtain ⟨r, hr, hrid⟩ := hi.row id s hid
    -- the stored rows are the removed one and the others, in some order
    have hperm := d.routes.values_perm_erase hr
    obtain ⟨c, a, hcount, htc, hta⟩ := count_remove
      (d := { d with ids := d.ids.erase id, routes := d.routes.erase s }) r
      (hc.counts.perm (hperm.flatMap_right countKeys))
      (hc.analytics.perm (hperm.flatMap_right metrics))
    refine Or.inr ⟨s, r, c, a, rfl, hr, hrid, ?_, ⟨htc, hta⟩⟩
    unfold Data.remove
    simp only [hid, hr, Option.bind_eq_bind, Option.bind_some, hcount]
    rfl

/-- **What `insert` does**: the row is stored under the next number, and counted in. -/
theorem insert_spec {d : Data} (hi : Indexed d) (hc : Counted d) (r : Route) (instant : ℕ) :
    ∃ c a, d.insert r.id r instant = some (d.stored c a instant r) ∧
      Counted (d.stored c a instant r) := by
  obtain ⟨c, a, hcount, htc, hta⟩ := count_add r hc.counts hc.analytics
  -- the new row has the highest number, so it comes last
  have hvalues : (d.stored c a instant r).routes.values = d.routes.values ++ [r] :=
    d.routes.values_insert_fresh fun s' r' h => Nat.lt_succ_of_le (hi.bound s' r' h)
  refine ⟨c, a, ?_, ?_, ?_⟩
  · unfold Data.insert
    rw [hcount]
    rfl
  · rw [hvalues, List.flatMap_append, List.flatMap_singleton]
    exact htc.perm List.perm_append_comm
  · rw [hvalues, List.flatMap_append, List.flatMap_singleton]
    exact hta.perm List.perm_append_comm

variable {counts : OrdMap String ℕ} {analytics : OrdMap String (OrdMap String ℕ)} {instant : ℕ}

/-- A row that is dropped leaves the store and the index together. -/
theorem Indexed.dropped {d : Data} (h : Indexed d) {id : String} {s : ℕ}
    (hid : d.ids.find id = some s) : Indexed (d.dropped counts analytics instant id s) where
  row := by
    intro id' s' h'
    change (d.ids.erase id).find id' = some s' at h'
    rw [OrdMap.find_erase] at h'
    split_ifs at h' with hne
    obtain ⟨r, hr, hrid⟩ := h.row id' s' h'
    refine ⟨r, ?_, hrid⟩
    -- another id leads to another number
    have hs : s' ≠ s := by
      rintro rfl
      obtain ⟨r', hr', hrid'⟩ := h.row id s' hid
      rw [hr] at hr'
      obtain rfl := Option.some.inj hr'
      exact hne (hrid.symm.trans hrid')
    change (d.routes.erase s).find s' = some r
    rw [OrdMap.find_erase_of_ne _ hs, hr]
  index := by
    intro s' r hr
    change (d.routes.erase s).find s' = some r at hr
    rw [OrdMap.find_erase] at hr
    split_ifs at hr with hne
    have hr' := h.index s' r hr
    have hid' : r.id ≠ id := by
      rintro rfl
      rw [hid] at hr'
      exact hne (Option.some.inj hr').symm
    change (d.ids.erase id).find r.id = some s'
    rw [OrdMap.find_erase_of_ne _ hid', hr']
  bound := by
    intro s' r hr
    change (d.routes.erase s).find s' = some r at hr
    rw [OrdMap.find_erase] at hr
    split_ifs at hr
    exact h.bound s' r hr

/-- A removal that went through: the store is as it was, or the row of the id is gone. -/
theorem remove_cases {d d₁ : Data} (hi : Indexed d) (hc : Counted d) {id : String}
    {existed : Bool} (hr : d.remove id instant = some (d₁, existed)) :
    ((d.ids.find id = none ∧ d₁ = d) ∨
        ∃ c a s, d.ids.find id = some s ∧ d₁ = d.dropped c a instant id s) ∧
      Indexed d₁ ∧ Counted d₁ := by
  rcases remove_spec hi hc id instant with ⟨hid, h⟩ | ⟨s, r, c, a, hid, -, -, h, hc'⟩
  · obtain ⟨rfl, -⟩ := Prod.mk.inj (Option.some.inj (hr.symm.trans h))
    exact ⟨Or.inl ⟨hid, rfl⟩, hi, hc⟩
  · obtain ⟨rfl, -⟩ := Prod.mk.inj (Option.some.inj (hr.symm.trans h))
    exact ⟨Or.inr ⟨c, a, s, hid, rfl⟩, hi.dropped hid, hc'⟩

/-- Storing a row keeps the index when its id is not in use. -/
theorem Indexed.stored {d : Data} (h : Indexed d) {r : Route} (hid : d.ids.find r.id = none) :
    Indexed (d.stored counts analytics instant r) where
  row := by
    intro id' s' h'
    change (d.ids.insert r.id (d.sequence + 1)).find id' = some s' at h'
    change ∃ r', (d.routes.insert (d.sequence + 1) r).find s' = some r' ∧ r'.id = id'
    -- the id is that of the new row, or of an earlier one
    rw [OrdMap.find_insert] at h'
    split_ifs at h' with heq
    · obtain rfl := Option.some.inj h'
      exact ⟨r, OrdMap.find_insert_self _ _ _, heq.symm⟩
    · -- an earlier row keeps its place: the new sequence number is above all of theirs
      obtain ⟨r', hr', hrid⟩ := h.row id' s' h'
      have hs : s' ≠ d.sequence + 1 := by
        have := h.bound s' r' hr'
        omega
      exact ⟨r', by rw [OrdMap.find_insert_of_ne _ _ hs, hr'], hrid⟩
  index := by
    intro s' r' hr'
    change (d.routes.insert (d.sequence + 1) r).find s' = some r' at hr'
    change (d.ids.insert r.id (d.sequence + 1)).find r'.id = some s'
    rw [OrdMap.find_insert] at hr'
    split_ifs at hr' with heq
    · obtain rfl := Option.some.inj hr'
      rw [OrdMap.find_insert_self, heq]
    · -- an earlier row has another id, for the new one's was free
      have hi := h.index s' r' hr'
      have hne : r'.id ≠ r.id := by
        intro he
        rw [he, hid] at hi
        exact absurd hi (by simp)
      rw [OrdMap.find_insert_of_ne _ _ hne, hi]
  bound := by
    intro s' r' hr'
    change (d.routes.insert (d.sequence + 1) r).find s' = some r' at hr'
    change s' ≤ d.sequence + 1
    rw [OrdMap.find_insert] at hr'
    split_ifs at hr' with heq
    · exact heq.le
    · exact (h.bound s' r' hr').trans (Nat.le_succ _)

/-- Removing keeps the store consistent, and the id is not in use afterwards. -/
theorem remove_consistent {d : Data} (h : Consistent d) (id : String) (instant : ℕ) :
    ∃ d' existed, d.remove id instant = some (d', existed) ∧ Consistent d' ∧
      d'.ids.find id = none := by
  rcases remove_spec h.indexed h.counted id instant with ⟨hid, hr⟩ | ⟨s, r, c, a, hid, -, -, hr, hc⟩
  · exact ⟨d, false, hr, h, hid⟩
  · exact ⟨_, true, hr, ⟨h.indexed.dropped hid, hc, h.recorded.of_eq rfl⟩,
      OrdMap.find_erase_self _ _⟩

/-- The section of a route, in its two parts. -/
theorem applyRoute_eq_some_iff {d d' : Data} {op : RouteOp} {instant : ℕ} {existed : Bool} :
    d.applyRoute op instant = some (d', existed) ↔
      ∃ d₁, d.remove op.entry.id instant = some (d₁, existed) ∧
        match op.kind with
        | .announce => d₁.insert op.entry.id op.entry instant = some d'
        | .withdraw => d' = d₁ := by
  unfold Data.applyRoute
  rw [Option.bind_eq_bind, Option.bind_eq_some_iff]
  constructor
  · rintro ⟨⟨d₁, e⟩, hr, h⟩
    -- the row with the id is removed, whatever the kind
    cases hk : op.kind with
    | announce =>
      simp only [hk, Option.bind_eq_bind, Option.bind_eq_some_iff] at h
      obtain ⟨d₂, hi, he⟩ := h
      obtain ⟨rfl, rfl⟩ := Prod.mk.inj (Option.some.inj he)
      exact ⟨d₁, hr, hi⟩
    | withdraw =>
      simp only [hk] at h
      obtain ⟨rfl, rfl⟩ := Prod.mk.inj (Option.some.inj h)
      exact ⟨d₁, hr, rfl⟩
  · rintro ⟨d₁, hr, h⟩
    refine ⟨(d₁, existed), hr, ?_⟩
    cases hk : op.kind with
    | announce =>
      simp only [hk] at h ⊢
      rw [h]
      rfl
    | withdraw =>
      simp only [hk] at h ⊢
      rw [h]
      rfl

/-- **The section of a route** does not panic and keeps the store consistent: what it
inserts has been removed before. -/
theorem applyRoute_consistent {d : Data} (h : Consistent d) (op : RouteOp) (instant : ℕ) :
    ∃ d' existed, d.applyRoute op instant = some (d', existed) ∧ Consistent d' := by
  obtain ⟨d₁, existed, hr, h₁, hid⟩ := remove_consistent h op.entry.id instant
  cases hk : op.kind with
  | withdraw =>
    exact ⟨d₁, existed, applyRoute_eq_some_iff.mpr ⟨d₁, hr, by rw [hk]⟩, h₁⟩
  | announce =>
    obtain ⟨c, a, hins, hc⟩ := insert_spec h₁.indexed h₁.counted op.entry instant
    exact ⟨_, existed, applyRoute_eq_some_iff.mpr ⟨d₁, hr, by rw [hk]; exact hins⟩,
      ⟨h₁.indexed.stored hid, hc, h₁.recorded.of_eq rfl⟩⟩

/-- A table that is cleared is consistent. -/
theorem clear_consistent {d : Data} (h : Consistent d) (instant : ℕ) :
    Consistent (d.clear instant) where
  indexed := ⟨fun _ _ h => absurd h (by simp [Data.clear]),
    fun _ _ h => absurd h (by simp [Data.clear]), fun _ _ h => absurd h (by simp [Data.clear])⟩
  counted := ⟨Tally.Totals.empty, h.counted.analytics.clear⟩
  recorded := h.recorded.of_eq rfl

/-! ### The history -/

/-- There is room in the history for an event of so many bytes. -/
def Room (len : ℕ) (history : List String) : Prop :=
  history.length < Data.historyEventsLimit ∧
    (history.map String.utf8ByteSize).sum + len ≤ Data.historyBytesLimit

/-- **Making room.** With a history that adds up, what is left of it is the longest tail
that an event which is small enough fits behind. -/
theorem evict_spec {len : ℕ} (hlen : len ≤ Data.historyBytesLimit) {history : List String}
    {bytes : ℕ} (hbytes : bytes = (history.map String.utf8ByteSize).sum) :
    ∃ history' bytes', Data.evict len history bytes = some (history', bytes') ∧
      LongestSuffix (Room len) history history' ∧
      bytes' = (history'.map String.utf8ByteSize).sum := by
  induction history generalizing bytes with
  | nil =>
    -- an empty history has no bytes, so any event within the limit fits
    have hzero : bytes = 0 := hbytes
    refine ⟨[], bytes, ?_, .whole ⟨by decide, by simpa using hlen⟩, hbytes⟩
    rw [Data.evict, if_neg]
    rintro (h | h)
    · exact absurd h (by decide)
    · omega
  | cons oldest history ih =>
    rw [List.map_cons, List.sum_cons] at hbytes
    -- the loop goes on exactly while there is no room
    have hroom : ¬ (history.length + 1 ≥ Data.historyEventsLimit ∨
        bytes + len > Data.historyBytesLimit) ↔ Room len (oldest :: history) := by
      rw [Room, List.length_cons, List.map_cons, List.sum_cons, ← hbytes]
      omega
    rw [Data.evict]
    by_cases hfull : history.length + 1 ≥ Data.historyEventsLimit ∨
        bytes + len > Data.historyBytesLimit
    · rw [if_pos hfull, if_neg (by omega)]
      -- the oldest event goes, and its bytes with it
      obtain ⟨history', bytes', he, hs, hb⟩ := ih
        (show bytes - oldest.utf8ByteSize = _ by omega)
      exact ⟨history', bytes', he, hs.cons fun h => hroom.mpr h hfull, hb⟩
    · rw [if_neg hfull]
      exact ⟨_, _, rfl, .whole (hroom.mp hfull), by rw [List.map_cons, List.sum_cons, hbytes]⟩

/-- An event goes into the history, and nowhere else. -/
theorem record_frame {d d' : Data} {event : String} (hr : d.record event = some d') :
    ∃ history bytes, d' = { d with history := history, historyBytes := bytes } := by
  unfold Data.record at hr
  split_ifs at hr
  · obtain ⟨⟨history, bytes⟩, -, hr⟩ := Option.bind_eq_some_iff.mp hr
    exact ⟨_, _, (Option.some.inj hr).symm⟩
  · exact ⟨_, _, (Option.some.inj hr).symm⟩

/-- An event can always be recorded, and leaves the store alone. -/
theorem record_consistent {d : Data} (h : Consistent d) (event : String) :
    ∃ d', d.record event = some d' ∧ Consistent d' ∧ d'.store = d.store := by
  unfold Data.record
  -- an event that is longer than the whole history is not kept
  by_cases hfits : event.utf8ByteSize ≤ Data.historyBytesLimit
  · obtain ⟨history, bytes, he, hs, hb⟩ := evict_spec hfits h.recorded.bytes
    obtain ⟨hn, hl⟩ := hs.holds
    rw [if_pos hfits, he]
    refine ⟨_, rfl, ⟨⟨h.indexed.row, h.indexed.index, h.indexed.bound⟩,
      ⟨h.counted.counts, h.counted.analytics⟩, ⟨?_, hb ▸ hl, ?_⟩⟩, rfl⟩
    · simp only [List.map_append, List.sum_append, List.map_singleton, List.sum_singleton, hb]
    · simp only [List.length_append, List.length_singleton]
      omega
  · rw [if_neg hfits]
    exact ⟨d, rfl, h, rfl⟩

theorem clearHistory_consistent {d : Data} (h : Consistent d) : Consistent d.clearHistory :=
  ⟨⟨h.indexed.row, h.indexed.index, h.indexed.bound⟩, ⟨h.counted.counts, h.counted.analytics⟩,
    ⟨rfl, Nat.zero_le _, Nat.zero_le _⟩⟩

/-! ### Every section -/

/-- **No section panics, and every section keeps the store consistent.** -/
theorem Section.run_consistent {d : Data} (h : Consistent d) (s : Section) :
    ∃ d', s.run d = some d' ∧ Consistent d' := by
  -- most sections touch neither the store nor the history
  cases s with
  | record event =>
    obtain ⟨d', hr, h', -⟩ := record_consistent h event
    exact ⟨d', hr, h'⟩
  | route op instant =>
    obtain ⟨d', existed, hr, h'⟩ := applyRoute_consistent h op instant
    exact ⟨d', by rw [Section.run, hr]; rfl, h'⟩
  | stop instant =>
    exact ⟨_, rfl, (clear_consistent (clearHistory_consistent h) instant).of_eq rfl rfl⟩
  | start config instant => exact ⟨_, rfl, (clear_consistent h instant).of_eq rfl rfl⟩
  | disconnected instant => exact ⟨_, rfl, (clear_consistent h instant).of_eq rfl rfl⟩
  | runEnded instant =>
    exact ⟨_, rfl, (clear_consistent h instant).of_eq rfl rfl⟩
  | clearHistory => exact ⟨_, rfl, clearHistory_consistent h⟩
  | _ => exact ⟨_, rfl, h.of_eq rfl rfl⟩

/-- **What a section does to the store**: it leaves it alone, empties it, or takes a
route through it. -/
theorem Section.run_cases {d d' : Data} (h : Consistent d) {s : Section} (hr : s.run d = some d') :
    d'.store = d.store ∨ (d'.routes = .empty ∧ d'.ids = .empty) ∨
      ∃ op instant existed,
        s = .route op instant ∧ d.applyRoute op instant = some (d', existed) := by
  -- by section: the four that clear the table, the one that applies a route, and the others
  cases s with
  | record event =>
    obtain ⟨d'', hr', -, hs⟩ := record_consistent h event
    rw [show d.record event = some d' from hr] at hr'
    rw [Option.some.inj hr']
    exact Or.inl hs
  | route op instant =>
    obtain ⟨⟨d'', existed⟩, hr', rfl⟩ := Option.map_eq_some_iff.mp hr
    exact Or.inr (Or.inr ⟨op, instant, existed, rfl, hr'⟩)
  | stop instant | start config instant | disconnected instant | runEnded instant =>
    obtain rfl := Option.some.inj hr
    exact Or.inr (Or.inl ⟨rfl, rfl⟩)
  | _ =>
    obtain rfl := Option.some.inj hr
    exact Or.inl rfl

/-- The data of a program that starts are consistent. -/
theorem new_consistent (output : Option String) : Consistent (Data.new output) where
  indexed := ⟨fun _ _ h => absurd h (by simp [Data.new]),
    fun _ _ h => absurd h (by simp [Data.new]),
    fun _ _ h => absurd h (by simp [Data.new])⟩
  counted := by
    -- every table starts empty, whichever of the names it is found under
    have htables : ∀ name table, (Data.new output).analytics.find name = some table →
        table = OrdMap.empty := by
      intro name table h
      simp only [Data.new, analyticsTables, List.foldl_cons, List.foldl_nil, OrdMap.find_insert,
        OrdMap.find_empty] at h
      split_ifs at h <;> exact (Option.some.inj h).symm
    refine ⟨Tally.Totals.empty,
      ⟨fun name h => ?_, fun name table h _ => ?_, fun name table h _ => ?_⟩⟩
    · simp only [analyticsTables, List.mem_cons, List.not_mem_nil, or_false] at h
      simp only [Data.new, analyticsTables, List.foldl_cons, List.foldl_nil, OrdMap.find_insert,
        OrdMap.find_empty]
      rcases h with rfl | rfl | rfl | rfl | rfl | rfl | rfl <;> exact ⟨OrdMap.empty, by simp⟩
    · rw [htables name table h]
      rfl
    · rw [htables name table h, OrdMap.find_empty]
      simp
  recorded := ⟨rfl, Nat.zero_le _, Nat.zero_le _⟩

/-- The critical sections as a transition system: the data as it is whenever its lock is
free. -/
def sections : System Data Section where
  init := fun d => ∃ output, d = Data.new output
  step := fun d s d' => s.run d = some d'

/-- **The store is consistent whenever its lock is free.** -/
theorem sections_consistent {d : Data} (h : sections.Reachable d) : Consistent d := by
  refine System.Invariant.reachable ⟨?_, ?_⟩ h
  · rintro d ⟨output, rfl⟩
    exact new_consistent output
  · intro d s d' hd hs
    obtain ⟨d'', hr, hd''⟩ := s.run_consistent hd
    rw [show s.run d = some d' from hs] at hr
    rwa [Option.some.inj hr]

end Rib
