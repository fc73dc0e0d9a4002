import BgpReceiver.Rib.Invariant

/-!
# The index and the statistics

What the invariants of the store come to. `StoreFacts` says that the index and the
rows are in bijection and that neither `remove` nor `insert` can go wrong;
`StatsFacts` says that every counter is the number that counting the rows again would
give, and what `stats` reports of them. Both hold whenever the lock is free
(`reachable_storeFacts`, `reachable_statsFacts`), and an update takes the data through
such states only (`applyUpdate_run`).
-/

namespace Rib

open Data (metrics addressFamily)

/-! ### Updates as runs -/

section ApplyUpdate

variable (digest : Bytes → Vector UInt8 20) (o : Outside) (update : Json) (peer : String)

/-- The critical sections that an update is made of. -/
inductive UpdateSection : Section → Prop
  | internShared : UpdateSection (.internShared (shared update peer))
  | internLabel (label : String) : UpdateSection (.internLabel label)
  | route {kind : UpdateKind} {label : String} {route : Json} (receivedAt : String) (instant : ℕ) :
      .route kind label route ∈ updateSteps update →
        UpdateSection (.route (routeOp digest update peer kind label route receivedAt) instant)
  | record (event : String) : UpdateSection (.record event)

/-- The sections of one update. -/
def updateSections : System Data Section :=
  sections.restrict fun _ s => UpdateSection digest update peer s

/-- A step of the loops is a critical section. -/
theorem updateStep_run {p : Progress} (h : Consistent p.data) {st : UpdateStep}
    (hst : st ∈ updateSteps update) :
    ∃ p' s, updateStep digest o update peer p st = some p' ∧
      (updateSections digest update peer).step p.data s p'.data ∧ Consistent p'.data := by
  -- a step of the loop interns a label or applies a route, and either is one section
  cases st with
  | group label =>
    exact ⟨_, .internLabel label, rfl, ⟨.internLabel label, rfl⟩, h.of_eq rfl rfl⟩
  | route kind label route =>
    obtain ⟨d', existed, hr, h'⟩ := applyRoute_consistent h
      (routeOp digest update peer kind label route (o.now p.applied)) (o.instant p.applied)
    refine ⟨_, .route (routeOp digest update peer kind label route (o.now p.applied))
      (o.instant p.applied), by rw [updateStep, hr]; rfl, ⟨.route _ _ hst, ?_⟩, h'⟩
    change (Section.route _ _).run p.data = _
    rw [Section.run, hr]
    rfl

/-- Loops that went through took their first step. -/
theorem updateSteps_cons {p p' : Progress} (h : Consistent p.data) {st : UpdateStep}
    {steps : List UpdateStep} (hst : st ∈ updateSteps update)
    (hf : (st :: steps).foldlM (updateStep digest o update peer) p = some p') :
    ∃ p₁, updateStep digest o update peer p st = some p₁ ∧ Consistent p₁.data ∧
      steps.foldlM (updateStep digest o update peer) p₁ = some p' := by
  rw [List.foldlM_cons, Option.bind_eq_bind, Option.bind_eq_some_iff] at hf
  obtain ⟨p₁, h₁, hf⟩ := hf
  obtain ⟨p₂, s, h₂, -, hc⟩ := updateStep_run digest o update peer h hst
  obtain rfl := Option.some.inj (h₁.symm.trans h₂)
  exact ⟨p₁, h₁, hc, hf⟩

/-- The loop of a call is a run of its sections, and can always be made. -/
theorem updateSteps_run {p : Progress} (h : Consistent p.data) {steps : List UpdateStep}
    (hsub : ∀ st ∈ steps, st ∈ updateSteps update) :
    ∃ p' ls, steps.foldlM (updateStep digest o update peer) p = some p' ∧
      (updateSections digest update peer).Run p.data ls p'.data ∧ Consistent p'.data := by
  induction steps generalizing p with
  | nil => exact ⟨p, [], rfl, .nil, h⟩
  | cons st steps ih =>
    obtain ⟨p₁, s, h₁, hs, hc₁⟩ := updateStep_run digest o update peer h
      (hsub st List.mem_cons_self)
    obtain ⟨p₂, ls, h₂, hr, hc₂⟩ := ih hc₁ fun st' hst' => hsub st' (List.mem_cons_of_mem _ hst')
    refine ⟨p₂, [s] ++ ls, by rw [List.foldlM_cons, h₁]; exact h₂, ?_, hc₂⟩
    exact (System.Run.single hs).append hr

theorem reportBatch_run {d : Data} (h : Consistent d) (b : Batches) (kind : UpdateKind) :
    ∃ d' ls, reportBatch o update b d kind = some d' ∧
      (updateSections digest update peer).Run d ls d' ∧ Consistent d' ∧ d'.store = d.store := by
  unfold reportBatch
  split_ifs
  · exact ⟨d, [], rfl, .nil, h, rfl⟩
  · obtain ⟨d', hr, h', hs⟩ := record_consistent h
      (batchEvent update (o.reportedAt kind) kind (b.rows kind))
    exact ⟨d', [.record _], hr, .single ⟨.record _, hr⟩, h', hs⟩

theorem reportBatches_run {d : Data} (h : Consistent d) (b : Batches) (kinds : List UpdateKind) :
    ∃ d' ls, kinds.foldlM (reportBatch o update b) d = some d' ∧
      (updateSections digest update peer).Run d ls d' ∧ Consistent d' ∧ d'.store = d.store := by
  induction kinds generalizing d with
  | nil => exact ⟨d, [], rfl, .nil, h, rfl⟩
  | cons kind kinds ih =>
    obtain ⟨d₁, ls₁, h₁, hr₁, hc₁, hs₁⟩ := reportBatch_run digest o update peer h b kind
    obtain ⟨d₂, ls₂, h₂, hr₂, hc₂, hs₂⟩ := ih hc₁
    exact ⟨d₂, ls₁ ++ ls₂, by rw [List.foldlM_cons, h₁]; exact h₂, hr₁.append hr₂, hc₂,
      hs₂.trans hs₁⟩

/-- **An update is a run of its critical sections**, and none of them panics. -/
theorem applyUpdate_run {d : Data} (h : Consistent d) :
    ∃ d' ls, applyUpdate digest o update peer d = some d' ∧
      (updateSections digest update peer).Run d ls d' ∧ Consistent d' := by
  -- first what the UPDATE shares is interned
  have h₀ : Consistent (d.internShared (shared update peer)) := h.of_eq rfl rfl
  have hr₀ : (updateSections digest update peer).Run d [.internShared (shared update peer)]
      (d.internShared (shared update peer)) := .single ⟨.internShared, rfl⟩
  -- then the loop
  obtain ⟨p, ls₁, h₁, hr₁, hc₁⟩ := updateSteps_run digest o update peer
    (p := ⟨d.internShared (shared update peer), ⟨[], []⟩, 0⟩) h₀ fun st hst => hst
  -- and behind it the two reports
  obtain ⟨d', ls₂, h₂, hr₂, hc₂, -⟩ := reportBatches_run digest o update peer hc₁ p.batches
    (if o.announceFirst then [UpdateKind.announce, .withdraw] else [.withdraw, .announce])
  refine ⟨d', _, ?_, (hr₀.append hr₁).append hr₂, hc₂⟩
  unfold applyUpdate
  rw [h₁]
  exact h₂

/-- An update leads from a reachable state to a reachable state. -/
theorem applyUpdate_reachable {d d' : Data} (h : sections.Reachable d)
    (ha : applyUpdate digest o update peer d = some d') : sections.Reachable d' := by
  obtain ⟨d'', ls, ha', hr, -⟩ := applyUpdate_run digest o update peer (sections_consistent h)
  rw [ha] at ha'
  rw [Option.some.inj ha']
  have hstep : ∀ e s e', (updateSections digest update peer).step e s e' → sections.step e s e' :=
    fun _ _ _ hs => hs.2
  exact h.run (hr.mono hstep)

end ApplyUpdate

/-! ### The index -/

/-- The index and the rows, with what `remove` and `insert` rely on. -/
structure StoreFacts (d : Data) : Prop where
  /-- An index entry leads to a row with its id. -/
  row : ∀ id s, d.ids.find id = some s → ∃ r, d.routes.find s = some r ∧ r.id = id
  /-- A row is indexed under its id: no row is orphaned. -/
  index : ∀ s r, d.routes.find s = some r → d.ids.find r.id = some s
  /-- No two ids share a number. -/
  injective : ∀ id id' s, d.ids.find id = some s → d.ids.find id' = some s → id = id'
  /-- Numbers in use have been given out. -/
  bound : ∀ s r, d.routes.find s = some r → s ≤ d.sequence
  /-- `remove` finds the row that the index leads to. -/
  remove : ∀ id instant, ∃ res, d.remove id instant = some res
  /-- Behind a `remove`, `insert` overwrites neither a row nor an index entry. -/
  insert : ∀ id instant d₁ existed, d.remove id instant = some (d₁, existed) →
    d₁.routes.find (d₁.sequence + 1) = none ∧ d₁.ids.find id = none
  /-- A listing has at most one row for an id. -/
  listing : (d.routes.values.map Route.id).Nodup

theorem Indexed.fresh {d : Data} (h : Indexed d) : d.routes.find (d.sequence + 1) = none := by
  cases hf : d.routes.find (d.sequence + 1) with
  | none => rfl
  | some r =>
    have := h.bound _ r hf
    omega

theorem Indexed.nodup {d : Data} (h : Indexed d) : (d.routes.values.map Route.id).Nodup := by
  rw [OrdMap.values, List.map_map]
  refine List.Nodup.map_on ?_
    (d.routes.sorted.imp fun hab heq => absurd (congrArg Prod.fst heq) hab.ne)
  rintro ⟨s, r⟩ hr ⟨s', r'⟩ hr' hid
  have hr := d.routes.mem_entries_iff.mp hr
  have hr' := d.routes.mem_entries_iff.mp hr'
  have hid : r.id = r'.id := hid
  -- the index gives one number for an id
  obtain rfl : s = s' := by
    have h₁ := h.index s r hr
    rw [hid, h.index s' r' hr'] at h₁
    exact (Option.some.inj h₁).symm
  rw [hr] at hr'
  rw [Option.some.inj hr']

/-- What the invariant says of the store. -/
theorem Consistent.storeFacts {d : Data} (h : Consistent d) : StoreFacts d where
  row := h.indexed.row
  index := h.indexed.index
  injective := by
    intro id id' s hid hid'
    -- two ids of one number are the id of the one row there
    obtain ⟨r, hr, rfl⟩ := h.indexed.row id s hid
    obtain ⟨r', hr', rfl⟩ := h.indexed.row id' s hid'
    rw [hr] at hr'
    rw [Option.some.inj hr']
  bound := h.indexed.bound
  remove := by
    intro id instant
    obtain ⟨d₁, existed, hr, -⟩ := remove_consistent h id instant
    exact ⟨_, hr⟩
  insert := by
    intro id instant d₁ existed hr
    obtain ⟨d₂, existed', hr', hc, hid⟩ := remove_consistent h id instant
    rw [hr] at hr'
    obtain ⟨rfl, -⟩ := Prod.mk.inj (Option.some.inj hr')
    exact ⟨hc.indexed.fresh, hid⟩
  listing := h.indexed.nodup

/-- **The index is consistent whenever the lock is free.** -/
theorem reachable_storeFacts {d : Data} (h : sections.Reachable d) : StoreFacts d :=
  (sections_consistent h).storeFacts

/-! ### A state with rows -/

/-- Sections that run one after the other lead from a state that is reached to another. -/
theorem reachable_foldlM {ss : List Section} {d d' : Data} (h : sections.Reachable d)
    (hr : ss.foldlM (fun d (s : Section) => s.run d) d = some d') : sections.Reachable d' := by
  induction ss generalizing d with
  | nil => exact Option.some.inj hr ▸ h
  | cons s ss ih =>
    rw [List.foldlM_cons, Option.bind_eq_bind, Option.bind_eq_some_iff] at hr
    obtain ⟨d₁, hs, hr⟩ := hr
    exact ih (h.step hs) hr

/-- An IPv6 prefix. -/
def sampleRow6 : Route :=
  ⟨"e99eb22ea944", .unicast, "ipv6-unicast", "192.0.2.1", "2026-06-25T12:00:00.000000Z",
    some "2001:db8::/32", some "2001:db8::1", [65000, 64496, 64496], ["65000:100"], none, []⟩

/-- A rule that discards what it matches. -/
def sampleFlow : Route :=
  ⟨"5ac3e845ca5a", .flowspec, "ipv4-flowspec", "192.0.2.1", "2026-06-25T12:00:00.000000Z",
    none, none, [65000], [], some (.object [("dst-prefix", .str "192.0.2.0/24")]), ["discard"]⟩

/-- Three routes are announced, the first of them twice, and the second is withdrawn. -/
def sampleSections : List Section :=
  [.route ⟨.announce, sampleRow⟩ 0, .route ⟨.announce, sampleRow6⟩ 1,
    .route ⟨.announce, sampleFlow⟩ 2, .route ⟨.announce, sampleRow⟩ 3,
    .route ⟨.withdraw, sampleRow6⟩ 4]

/-- Three routes announced, one of them twice, and another one withdrawn. -/
def sampleData : Data :=
  (sampleSections.foldlM (fun d (s : Section) => s.run d) (Data.new none)).get (by decide +kernel)

theorem sampleData_reachable : sections.Reachable sampleData :=
  reachable_foldlM (.init ⟨none, rfl⟩) (Option.some_get _).symm

/-- The two rows that are left, and the facts about them. -/
theorem sampleData_storeFacts : sampleData.routes.values = [sampleFlow, sampleRow] ∧
    StoreFacts sampleData :=
  ⟨by decide +kernel, reachable_storeFacts sampleData_reachable⟩

/-! ### The counters -/

/-- How often an entry of an analytics table occurs in a row, over all rows. -/
def occurrences (d : Data) (table value : String) : ℕ :=
  (d.routes.values.map fun r => (metrics r).count (table, value)).sum

/-- A family is counted once for each of its rows. -/
theorem count_flatMap_countKeys (rows : List Route) (f : Family) :
    (rows.flatMap countKeys).count f.text = (rows.filter fun r => r.family = f).length := by
  induction rows with
  | nil => rfl
  | cons r rows ih =>
    rw [List.flatMap_cons, List.count_append, ih, List.filter_cons]
    -- a row is counted under the text of its family once
    have hrow : (countKeys r).count f.text = if r.family = f then 1 else 0 := by
      unfold countKeys addressFamily
      cases r.family <;> cases f <;> split_ifs <;> simp_all [Family.text]
    rw [hrow]
    by_cases hf : r.family = f
    · simp [hf, Nat.add_comm]
    · simp [hf]

theorem count_flatMap_addressFamily (rows : List Route) {a : String}
    (ha : a = "ipv4" ∨ a = "ipv6") :
    (rows.flatMap countKeys).count a = (rows.filter fun r => addressFamily r = a).length := by
  -- row by row
  induction rows with
  | nil => rfl
  | cons r rows ih =>
    rw [List.flatMap_cons, List.count_append, ih, List.filter_cons]
    have hrow : (countKeys r).count a = if addressFamily r = a then 1 else 0 := by
      unfold countKeys
      -- a route is counted under its family's text too, which is never an address family
      have hne : r.family.text ≠ a := by
        rcases ha with rfl | rfl <;> cases r.family <;> simp [Family.text]
      rw [List.count_cons, List.count_cons, List.count_nil]
      by_cases h : addressFamily r = a
      · simp [h, hne]
      · simp [h, hne]
    rw [hrow]
    by_cases h : addressFamily r = a
    · simp [h, Nat.add_comm]
    · simp [h]

/-! ### The five largest -/

/-- The order of an analytics list on entries with different names. -/
def Before (a b : String × ℕ) : Prop := b.2 < a.2 ∨ (a.2 = b.2 ∧ a.1 < b.1)

/-- The first entries of a table in that order, all of them when there are no more
than `n`. -/
def IsTop (n : ℕ) (entries rows : List (String × ℕ)) : Prop :=
  ∃ rest, entries.Perm (rows ++ rest) ∧ (rows ++ rest).Pairwise Before ∧
    rows.length = min n entries.length

/-- The order of the listed values is transitive. -/
theorem statsBefore_trans (a b c : String × ℕ) (hab : Data.statsBefore a b = true)
    (hbc : Data.statsBefore b c = true) : Data.statsBefore a c = true := by
  unfold Data.statsBefore at *
  simp only [Bool.or_eq_true, Bool.and_eq_true, decide_eq_true_eq] at *
  -- a higher count decides, and between equal counts the name
  rcases hab with h | ⟨h, hn⟩
  · left
    omega
  · rcases hbc with h' | ⟨h', hn'⟩
    · left
      omega
    · exact Or.inr ⟨h.trans h', hn.trans hn'⟩

/-- It is total: a tie is broken by the texts. -/
theorem statsBefore_total (a b : String × ℕ) :
    (Data.statsBefore a b || Data.statsBefore b a) = true := by
  unfold Data.statsBefore
  simp only [Bool.or_eq_true, Bool.and_eq_true, decide_eq_true_eq]
  rcases lt_trichotomy a.2 b.2 with h | h | h
  · exact Or.inr (Or.inl h)
  · rcases le_total a.1 b.1 with hn | hn
    · exact Or.inl (Or.inr ⟨h, hn⟩)
    · exact Or.inr (Or.inr ⟨h.symm, hn⟩)
  · exact Or.inl (Or.inl h)

/-- **`topFive` lists the five largest entries.** Names occur once in a table, so the
order between its entries is strict. -/
theorem topFive_isTop (counts : OrdMap String ℕ) :
    IsTop 5 counts.entries (Data.topFive counts) := by
  have hperm := List.mergeSort_perm counts.entries Data.statsBefore
  -- no name is counted twice, so the order is strict
  have hnames : (counts.entries.mergeSort Data.statsBefore).Pairwise fun a b => a.1 ≠ b.1 := by
    refine (hperm.pairwise_iff fun h => Ne.symm h).mpr (counts.sorted.imp fun h => h.ne)
  have hsorted := List.pairwise_mergeSort statsBefore_trans statsBefore_total counts.entries
  -- the five are the front of the sorted list, and what is left is behind them
  refine ⟨(counts.entries.mergeSort Data.statsBefore).drop 5, ?_, ?_, ?_⟩
  · rw [Data.topFive, List.take_append_drop]
    exact hperm.symm
  · rw [Data.topFive, List.take_append_drop]
    refine hsorted.imp₂ (fun a b h hne => ?_) hnames
    unfold Data.statsBefore at h
    simp only [Bool.or_eq_true, Bool.and_eq_true, decide_eq_true_eq] at h
    exact h.imp id fun h => ⟨h.1, lt_of_le_of_ne h.2 hne⟩
  · rw [Data.topFive, List.length_take, List.length_mergeSort]

/-! ### What is reported -/

/-- The statistics as a recount, and what `stats` reports. -/
structure StatsFacts (d : Data) : Prop where
  /-- The counter of a family is the number of its rows. -/
  family : ∀ f : Family,
    (d.counts.find f.text).getD 0 = (d.routes.values.filter fun r => r.family = f).length
  /-- The counter of an address family is the number of its rows. -/
  address : ∀ a, a = "ipv4" ∨ a = "ipv6" →
    (d.counts.find a).getD 0 = (d.routes.values.filter fun r => addressFamily r = a).length
  /-- The seven tables are there, and count what occurs in the rows, without a zero. -/
  tables : ∀ name ∈ analyticsTables, ∃ table, d.analytics.find name = some table ∧
    ∀ value, (table.find value).getD 0 = occurrences d name value ∧ table.find value ≠ some 0
  /-- No critical section panics: no counter falls below zero, no table is missing. -/
  sections : ∀ s : Section, ∃ d', s.run d = some d'
  /-- No update panics. -/
  updates : ∀ digest o update peer, ∃ d', applyUpdate digest o update peer d = some d'
  /-- `stats` reports totals that add up. -/
  totals : ∃ total unicast flowspec ipv4 ipv6,
    d.stats.index "total" = .num total ∧ d.stats.index "unicast" = .num unicast ∧
    d.stats.index "flowspec" = .num flowspec ∧ d.stats.index "ipv4" = .num ipv4 ∧
    d.stats.index "ipv6" = .num ipv6 ∧ total = unicast + flowspec ∧ total = ipv4 + ipv6
  /-- `stats` reports the five largest entries of each table. -/
  top : ∀ name table, d.analytics.find name = some table → ∃ rows,
    (d.stats.index "analytics").index name
      = .arr (rows.map fun row => .arr [.str row.1, .num row.2]) ∧ IsTop 5 table.entries rows

/-- A value is counted as often as it occurs, and is left out when it does not. -/
theorem Counted.occurrences_eq {d : Data} (h : Counted d) {name : String}
    {table : OrdMap String ℕ} (ht : d.analytics.find name = some table) (value : String) :
    (table.find value).getD 0 = occurrences d name value ∧ table.find value ≠ some 0 := by
  refine ⟨?_, h.analytics.positive name table ht value⟩
  rw [h.analytics.total name table ht value, List.count_flatMap]
  rfl

/-- Every row is of one of two kinds. -/
theorem length_filter_two {rows : List Route} {p q : Route → Prop} [DecidablePred p]
    [DecidablePred q] (h : ∀ r, q r ↔ ¬ p r) :
    rows.length = (rows.filter (p ·)).length + (rows.filter (q ·)).length := by
  induction rows with
  | nil => rfl
  | cons r rows ih =>
    rw [List.filter_cons, List.filter_cons, List.length_cons]
    -- every row is in exactly one of the two
    by_cases hp : p r
    · have hq : ¬ q r := fun hq => (h r).mp hq hp
      simp only [hp, hq, decide_true, decide_false, if_true, Bool.false_eq_true, if_false,
        List.length_cons]
      omega
    · have hq : q r := (h r).mpr hp
      simp only [hp, hq, decide_true, decide_false, if_true, Bool.false_eq_true, if_false,
        List.length_cons]
      omega

theorem length_values (m : OrdMap ℕ Route) : m.entries.length = m.values.length :=
  (List.length_map _).symm

/-- What the invariant says of the statistics. -/
theorem Consistent.statsFacts {d : Data} (h : Consistent d) : StatsFacts d := by
  -- the counters of the families and of the address families are those of the rows
  have hfamily : ∀ f : Family,
      (d.counts.find f.text).getD 0 = (d.routes.values.filter fun r => r.family = f).length := by
    intro f
    rw [h.counted.counts f.text, count_flatMap_countKeys]
  have haddress : ∀ a, a = "ipv4" ∨ a = "ipv6" →
      (d.counts.find a).getD 0 = (d.routes.values.filter fun r => addressFamily r = a).length := by
    intro a ha
    rw [h.counted.counts a, count_flatMap_addressFamily _ ha]
  refine ⟨hfamily, haddress, ?_, ?_, ?_, ?_, ?_⟩
  · -- the tables of the analytics hold exactly the occurrences in the stored rows
    intro name hname
    obtain ⟨table, ht⟩ := h.counted.analytics.present name hname
    exact ⟨table, ht, h.counted.occurrences_eq ht⟩
  · intro s
    obtain ⟨d', hr, -⟩ := s.run_consistent h
    exact ⟨d', hr⟩
  · intro digest o update peer
    obtain ⟨d', -, hr, -⟩ := applyUpdate_run digest o update peer h
    exact ⟨d', hr⟩
  · -- the four counters the statistics report, and the two ways they split the rows
    have hcounter : ∀ name, name = "unicast" ∨ name = "flowspec" ∨ name = "ipv4" ∨ name = "ipv6" →
        d.stats.index name = .num ((d.counts.find name).getD 0) := by
      rintro name (rfl | rfl | rfl | rfl) <;> simp [Data.stats, Json.index, Entries.find_cons]
    refine ⟨d.routes.entries.length, _, _, _, _,
      by simp [Data.stats, Json.index, Entries.find_cons], hcounter _ (by simp),
      hcounter _ (by simp), hcounter _ (by simp), hcounter _ (by simp), ?_, ?_⟩
    · rw [length_values, show (d.counts.find "unicast").getD 0 = _ from hfamily .unicast,
        show (d.counts.find "flowspec").getD 0 = _ from hfamily .flowspec]
      exact length_filter_two fun r => by cases r.family <;> simp
    · rw [length_values, haddress "ipv4" (Or.inl rfl), haddress "ipv6" (Or.inr rfl)]
      refine length_filter_two fun r => ?_
      unfold addressFamily
      split_ifs <;> simp
  · -- `stats` lists each table cut to its five most frequent entries
    intro name table ht
    refine ⟨Data.topFive table, ?_, topFive_isTop table⟩
    have hanalytics : d.stats.index "analytics"
        = .object (d.analytics.entries.map fun e => (e.1, Data.statsList e.2)) := by
      simp [Data.stats, Json.index, Entries.find_cons]
    rw [hanalytics, Json.object_of_sorted (d.analytics.sorted.map Data.statsList), Json.index,
      Json.get_obj]
    have hfind : Entries.find name (d.analytics.entries.map fun e => (e.1, Data.statsList e.2))
        = some (Data.statsList table) := by
      rw [← Option.map_some, ← ht]
      exact d.analytics.find_mapValues Data.statsList name
    rw [hfind]
    rfl

/-- **The statistics are a recount whenever the lock is free.** -/
theorem reachable_statsFacts {d : Data} (h : sections.Reachable d) : StatsFacts d :=
  (sections_consistent h).statsFacts

theorem sampleData_statsFacts : sampleData.routes.values = [sampleFlow, sampleRow] ∧
    StatsFacts sampleData :=
  ⟨by decide +kernel, reachable_statsFacts sampleData_reachable⟩

end Rib
