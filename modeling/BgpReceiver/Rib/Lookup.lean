import BgpReceiver.Framework.Writes
import BgpReceiver.Rib.Statistics

/-!
# What an update does to the rows

A row is looked up by its id (`Data.byId`). The section of a route writes to that map
once: an announcement sets the id, a withdrawal unsets it (`byId_applyRoute`). An
update is therefore the list of its writes, in the order in which `apply_update` takes
its routes (`applyUpdate_byId`).

All announcements of an update come before all of its withdrawals. So an id that is
withdrawn has no row afterwards, whether or not it is announced as well; an id that is
announced and not withdrawn has the row of its last announcement; any other id has the
row that it had (`applyUpdate_withdrawn`, `applyUpdate_announced`,
`applyUpdate_other`).
-/

namespace Rib

/-! ### Rows by id -/

/-- The row of an id. -/
def Data.byId (d : Data) (id : String) : Option Route := (d.ids.find id).bind d.routes.find

/-- What is found by an id is a matter of the store only. -/
theorem byId_of_store_eq {d d' : Data} (h : d'.store = d.store) : d'.byId = d.byId := by
  simp only [Data.store, Prod.mk.injEq] at h
  funext id
  unfold Data.byId
  rw [h.1, h.2.1]

theorem Indexed.byId_of_row {d : Data} (h : Indexed d) {s : ℕ} {r : Route}
    (hr : d.routes.find s = some r) : d.byId r.id = some r := by
  rw [Data.byId, h.index s r hr, Option.bind_some, hr]

/-- What is found by an id is a row with that id. -/
theorem Indexed.row_of_byId {d : Data} (h : Indexed d) {id : String} {r : Route}
    (hr : d.byId id = some r) : (∃ s, d.routes.find s = some r) ∧ r.id = id := by
  obtain ⟨s, hs, hr⟩ := Option.bind_eq_some_iff.mp hr
  obtain ⟨r', hr', hid⟩ := h.row id s hs
  rw [hr] at hr'
  obtain rfl := Option.some.inj hr'
  exact ⟨⟨s, hr⟩, hid⟩

section

variable {counts : OrdMap String ℕ} {analytics : OrdMap String (OrdMap String ℕ)} {instant : ℕ}

/-- A row that is dropped is not found any more, and all others are. -/
theorem byId_dropped {d : Data} (h : Indexed d) {id : String} {s : ℕ}
    (hid : d.ids.find id = some s) :
    (d.dropped counts analytics instant id s).byId = Function.update d.byId id none := by
  funext id'
  change ((d.ids.erase id).find id').bind (d.routes.erase s).find = _
  by_cases hne : id' = id
  · rw [hne, OrdMap.find_erase_self, Function.update_self]
    rfl
  · rw [OrdMap.find_erase_of_ne _ hne, Function.update_of_ne hne, Data.byId]
    cases hid' : d.ids.find id' with
    | none => rfl
    | some s' =>
      -- the other id leads to another number, which is still there
      have hs : s' ≠ s := by
        rintro rfl
        obtain ⟨r, hr, hrid⟩ := h.row id s' hid
        obtain ⟨r', hr', hrid'⟩ := h.row id' s' hid'
        rw [hr] at hr'
        obtain rfl := Option.some.inj hr'
        exact hne (hrid'.symm.trans hrid)
      rw [Option.bind_some, Option.bind_some, OrdMap.find_erase_of_ne _ hs]

/-- A row that is stored is found by its id, and all others as before. -/
theorem byId_stored {d : Data} (h : Indexed d) {r : Route} :
    (d.stored counts analytics instant r).byId = Function.update d.byId r.id (some r) := by
  funext id'
  change ((d.ids.insert r.id (d.sequence + 1)).find id').bind
    (d.routes.insert (d.sequence + 1) r).find = _
  -- another id is found where it was, since the new number is above all
  by_cases hne : id' = r.id
  · rw [hne, OrdMap.find_insert_self, Function.update_self, Option.bind_some,
      OrdMap.find_insert_self]
  · rw [OrdMap.find_insert_of_ne _ _ hne, Function.update_of_ne hne, Data.byId]
    cases hid' : d.ids.find id' with
    | none => rfl
    | some s' =>
      have hs : s' ≠ d.sequence + 1 := by
        obtain ⟨r', hr', -⟩ := h.row id' s' hid'
        have := h.bound s' r' hr'
        omega
      rw [Option.bind_some, Option.bind_some, OrdMap.find_insert_of_ne _ _ hs]

end

/-- What the section of a route writes. -/
def RouteOp.write (op : RouteOp) : String × Option Route :=
  (op.entry.id, match op.kind with | .announce => some op.entry | .withdraw => none)

/-- **The section of a route is one write.** -/
theorem byId_applyRoute {d d' : Data} (h : Consistent d) {op : RouteOp} {instant : ℕ}
    {existed : Bool} (hr : d.applyRoute op instant = some (d', existed)) :
    d'.byId = Function.update d.byId op.write.1 op.write.2 := by
  obtain ⟨d₁, hrem, hop⟩ := applyRoute_eq_some_iff.mp hr
  obtain ⟨hcases, hi, hc⟩ := remove_cases h.indexed h.counted hrem
  -- the removal leaves no row with the id
  have hb : d₁.byId = Function.update d.byId op.entry.id none := by
    rcases hcases with ⟨hid, rfl⟩ | ⟨c, a, s, hid, rfl⟩
    · rw [Function.update_eq_self_iff.mpr]
      rw [Data.byId, hid]
      rfl
    · exact byId_dropped h.indexed hid
  unfold RouteOp.write
  -- an announced route is stored behind it
  cases hk : op.kind with
  | withdraw =>
    simp only [hk] at hop
    rw [hop, hb]
  | announce =>
    simp only [hk] at hop
    obtain ⟨c, a, hins, -⟩ := insert_spec hi hc op.entry instant
    rw [hop] at hins
    rw [Option.some.inj hins, byId_stored hi, hb, Function.update_idem]

/-- The rows behind the section of a route are rows that were there, and the one that it
announces. -/
theorem applyRoute_rows {d d' : Data} (h : Consistent d) {op : RouteOp} {instant : ℕ}
    {existed : Bool} (hr : d.applyRoute op instant = some (d', existed)) {s : ℕ} {r : Route}
    (hrow : d'.routes.find s = some r) :
    (op.kind = .announce ∧ r = op.entry) ∨ ∃ s', d.routes.find s' = some r := by
  obtain ⟨d'', existed', hr', hc⟩ := applyRoute_consistent h op instant
  rw [hr] at hr'
  obtain ⟨rfl, -⟩ := Prod.mk.inj (Option.some.inj hr')
  have hid := hc.indexed.byId_of_row hrow
  rw [byId_applyRoute h hr, Function.update_apply] at hid
  split_ifs at hid
  · -- the row that was written
    unfold RouteOp.write at hid
    cases hk : op.kind with
    | announce =>
      rw [hk] at hid
      exact Or.inl ⟨rfl, (Option.some.inj hid).symm⟩
    | withdraw =>
      rw [hk] at hid
      exact absurd hid (by simp)
  · exact Or.inr (h.indexed.row_of_byId hid).1

/-- The section of a route writes to the store, its counters and the mark of a change
only. -/
theorem applyRoute_frame {d d' : Data} (h : Consistent d) {op : RouteOp} {instant : ℕ}
    {existed : Bool} (hr : d.applyRoute op instant = some (d', existed)) :
    ∃ routes ids sequence counts analytics dirty, d' = { d with
      routes := routes
      ids := ids
      sequence := sequence
      counts := counts
      analytics := analytics
      dirty := dirty } := by
  obtain ⟨d₁, hrem, hop⟩ := applyRoute_eq_some_iff.mp hr
  -- both parts of the section change these fields only
  obtain ⟨hcases, hi, hc⟩ := remove_cases h.indexed h.counted hrem
  cases hk : op.kind with
  | withdraw =>
    simp only [hk] at hop
    rcases hcases with ⟨-, rfl⟩ | ⟨c, a, s, -, rfl⟩
    · exact ⟨_, _, _, _, _, _, hop⟩
    · exact ⟨_, _, _, _, _, _, hop⟩
  | announce =>
    simp only [hk] at hop
    obtain ⟨c, a, hins, -⟩ := insert_spec hi hc op.entry instant
    rw [hop] at hins
    rcases hcases with ⟨-, rfl⟩ | ⟨c, a, s, -, rfl⟩
    · exact ⟨_, _, _, _, _, _, Option.some.inj hins⟩
    · exact ⟨_, _, _, _, _, _, Option.some.inj hins⟩

/-! ### The writes of an update -/

/-- The routes that an update lists under one of the kinds, with their labels. -/
def routesOf (update : Json) (kind : UpdateKind) : List (String × Json) :=
  (groups update kind).flatMap fun g => g.2.map fun route => (g.1, route)

/-- The steps of one kind. -/
def kindSteps (update : Json) (kind : UpdateKind) : List UpdateStep :=
  (groups update kind).flatMap fun g => .group g.1 :: g.2.map (.route kind g.1)

/-- An UPDATE is its announced routes and then its withdrawn ones. -/
theorem updateSteps_eq (update : Json) :
    updateSteps update = kindSteps update .announce ++ kindSteps update .withdraw := by
  simp [updateSteps, kindSteps]

/-- The steps of a kind are the routes of that kind. -/
theorem route_mem_kindSteps {update : Json} {kind kind' : UpdateKind} {label : String}
    {route : Json} :
    UpdateStep.route kind' label route ∈ kindSteps update kind ↔
      kind' = kind ∧ (label, route) ∈ routesOf update kind := by
  simp only [kindSteps, routesOf, List.mem_flatMap, List.mem_cons, List.mem_map, Prod.mk.injEq,
    UpdateStep.route.injEq, reduceCtorEq, false_or]
  constructor
  · rintro ⟨g, hg, r, hr, rfl, rfl, rfl⟩
    exact ⟨rfl, g, hg, r, hr, rfl, rfl⟩
  · rintro ⟨rfl, g, hg, r, hr, rfl, rfl⟩
    exact ⟨g, hg, r, hr, rfl, rfl, rfl⟩

section Update

variable (digest : Bytes → Vector UInt8 20) (o : Outside) (update : Json) (peer : String)

/-- The operations of some steps, the first of which has the given number. -/
def opsFrom : ℕ → List UpdateStep → List RouteOp
  | _, [] => []
  | n, .group _ :: steps => opsFrom n steps
  | n, .route kind label route :: steps =>
    routeOp digest update peer kind label route (o.now n) :: opsFrom (n + 1) steps

/-- The operations of two lists of steps, the second numbered behind the first. -/
theorem opsFrom_append (n : ℕ) (steps steps' : List UpdateStep) :
    ∃ m, opsFrom digest o update peer n (steps ++ steps')
      = opsFrom digest o update peer n steps ++ opsFrom digest o update peer m steps' := by
  induction steps generalizing n with
  | nil => exact ⟨n, rfl⟩
  | cons st steps ih =>
    cases st with
    | group label => exact ih n
    | route kind label route =>
      obtain ⟨m, hm⟩ := ih (n + 1)
      exact ⟨m, by rw [List.cons_append, opsFrom, hm]; rfl⟩

/-- An operation belongs to a route. -/
def OpOf (kind : UpdateKind) (op : RouteOp) (e : String × Json) : Prop :=
  ∃ receivedAt, op = routeOp digest update peer kind e.1 e.2 receivedAt

/-- The operations of one kind belong to the routes of that kind, one by one. -/
theorem opsFrom_kindSteps (n : ℕ) (kind : UpdateKind) :
    List.Forall₂ (OpOf digest update peer kind)
      (opsFrom digest o update peer n (kindSteps update kind)) (routesOf update kind) := by
  have hgroup : ∀ label (routes : List Json) n, List.Forall₂ (OpOf digest update peer kind)
      (opsFrom digest o update peer n (routes.map (.route kind label)))
      (routes.map fun route => (label, route)) := by
    intro label routes
    induction routes with
    | nil => exact fun _ => .nil
    | cons route routes ih => exact fun n => .cons ⟨o.now n, rfl⟩ (ih (n + 1))
  unfold kindSteps routesOf
  induction groups update kind generalizing n with
  | nil => exact .nil
  | cons g gs ih =>
    rw [List.flatMap_cons, List.flatMap_cons]
    -- the clock has ticked for each route of the first group
    obtain ⟨m, hm⟩ := opsFrom_append digest o update peer n
      (.group g.1 :: g.2.map (.route kind g.1))
      (gs.flatMap fun g => .group g.1 :: g.2.map (.route kind g.1))
    rw [hm]
    exact List.rel_append (hgroup g.1 g.2 n) (ih m)

/-- The loops write what their operations write. -/
theorem updateSteps_byId {p p' : Progress} (h : Consistent p.data) {steps : List UpdateStep}
    (hsub : ∀ st ∈ steps, st ∈ updateSteps update)
    (hf : steps.foldlM (updateStep digest o update peer) p = some p') :
    p'.data.byId = Writes.run p.data.byId
      ((opsFrom digest o update peer p.applied steps).map RouteOp.write) := by
  induction steps generalizing p with
  | nil =>
    obtain rfl := Option.some.inj hf
    rfl
  | cons st steps ih =>
    -- the first step, and then the others from what it leaves
    obtain ⟨p₁, h₁, hc, hf⟩ := updateSteps_cons digest o update peer h
      (hsub st List.mem_cons_self) hf
    rw [ih hc (fun st' hst' => hsub st' (List.mem_cons_of_mem _ hst')) hf]
    cases st with
    | group label =>
      obtain rfl := Option.some.inj h₁
      rfl
    | route kind label route =>
      rw [updateStep, Option.bind_eq_bind, Option.bind_eq_some_iff] at h₁
      obtain ⟨⟨d', existed⟩, hr, h₁⟩ := h₁
      obtain rfl := Option.some.inj h₁
      rw [opsFrom, List.map_cons, Writes.run_cons, ← byId_applyRoute h hr]

/-- **A call is its loop and its reports**, and the reports leave the store alone. -/
theorem applyUpdate_split {d d' : Data} (h : Consistent d)
    (ha : applyUpdate digest o update peer d = some d') :
    ∃ p, (updateSteps update).foldlM (updateStep digest o update peer)
        ⟨d.internShared (shared update peer), ⟨[], []⟩, 0⟩ = some p ∧ d'.store = p.data.store := by
  unfold applyUpdate at ha
  simp only [Option.bind_eq_bind, Option.bind_eq_some_iff] at ha
  obtain ⟨p, hp, ha⟩ := ha
  refine ⟨p, hp, ?_⟩
  -- the shares that are interned first are no matter of the store
  have h₀ : Consistent (d.internShared (shared update peer)) := h.of_eq rfl rfl
  obtain ⟨p', -, hp', -, hc⟩ := updateSteps_run digest o update peer
    (p := ⟨d.internShared (shared update peer), ⟨[], []⟩, 0⟩) h₀ fun st hst => hst
  rw [hp] at hp'
  obtain rfl := Option.some.inj hp'
  -- the reports are made, and change the history only
  obtain ⟨d'', -, hd'', -, -, hs⟩ := reportBatches_run digest o update peer hc p.batches
    (if o.announceFirst then [UpdateKind.announce, .withdraw] else [.withdraw, .announce])
  rw [ha] at hd''
  rw [Option.some.inj hd'', hs]

/-- **An update writes its announcements and then its withdrawals.** -/
theorem applyUpdate_byId {d d' : Data} (h : Consistent d)
    (ha : applyUpdate digest o update peer d = some d') :
    ∃ m, d'.byId = Writes.run d.byId
      ((opsFrom digest o update peer 0 (kindSteps update .announce)).map RouteOp.write ++
        (opsFrom digest o update peer m (kindSteps update .withdraw)).map RouteOp.write) := by
  obtain ⟨p, hp, hs⟩ := applyUpdate_split digest o update peer h ha
  have h₀ : Consistent (d.internShared (shared update peer)) := h.of_eq rfl rfl
  have hb := updateSteps_byId digest o update peer
    (p := ⟨d.internShared (shared update peer), ⟨[], []⟩, 0⟩) h₀ (fun st hst => hst) hp
  -- the announcements are operations in front of the withdrawals
  rw [updateSteps_eq] at hb
  obtain ⟨m, hm⟩ := opsFrom_append digest o update peer 0 (kindSteps update .announce)
    (kindSteps update .withdraw)
  refine ⟨m, ?_⟩
  rw [byId_of_store_eq hs, hb]
  simp only [hm, List.map_append]
  rfl

/-- The ids of the routes of one kind. -/
def idsOf (kind : UpdateKind) : List String :=
  (routesOf update kind).map fun e => routeId digest peer (keyOf e.1 e.2)

variable {digest o update peer}

/-- The ids of a kind are those of its routes. -/
theorem mem_idsOf_iff {kind : UpdateKind} {id : String} :
    id ∈ idsOf digest update peer kind ↔
      ∃ label route, (label, route) ∈ routesOf update kind ∧
        routeId digest peer (keyOf label route) = id := by
  rw [idsOf, List.mem_map]
  exact Prod.exists

/-- The last route of one kind with an id. -/
def lastOf (digest : Bytes → Vector UInt8 20) (update : Json) (peer : String) (kind : UpdateKind)
    (id : String) : Option (String × Json) :=
  (routesOf update kind).reverse.find? fun e => routeId digest peer (keyOf e.1 e.2) = id

/-- There is a last route with an id exactly when there is one. -/
theorem lastOf_eq_none_iff {kind : UpdateKind} {id : String} :
    lastOf digest update peer kind id = none ↔ id ∉ idsOf digest update peer kind := by
  simp [lastOf, idsOf]

/-- The last route with an id is a route of the UPDATE. -/
theorem mem_of_lastOf {kind : UpdateKind} {id : String} {e : String × Json}
    (h : lastOf digest update peer kind id = some e) :
    e ∈ routesOf update kind ∧ routeId digest peer (keyOf e.1 e.2) = id := by
  refine ⟨List.mem_reverse.mp (List.mem_of_find?_eq_some h), ?_⟩
  simpa using List.find?_some h

/-- A route has the id that it is stored under. -/
theorem entryOf_id (sh : Shared) (id receivedAt label : String) (route : Json) :
    (entryOf sh id receivedAt label route).id = id := by
  unfold entryOf
  cases familyOf label <;> rfl

/-- Two lists that are related element by element are searched with related results. -/
theorem find?_rel {α β : Type} {R : α → β → Prop} {p : α → Bool} {q : β → Bool}
    (hpq : ∀ a b, R a b → p a = q b) {l : List α} {l' : List β} (h : List.Forall₂ R l l') :
    Option.Rel R (l.find? p) (l'.find? q) := by
  induction h with
  | nil => exact .none
  | cons hr _ ih =>
    rw [List.find?_cons, List.find?_cons, hpq _ _ hr]
    split
    · exact .some hr
    · exact ih

variable (digest o update peer) in
/-- The writes of one kind leave what the last route with an id writes. -/
theorem run_kindSteps (t : String → Option Route) (n : ℕ) (kind : UpdateKind) (id : String) :
    Option.elim (lastOf digest update peer kind id)
      (Writes.run t ((opsFrom digest o update peer n (kindSteps update kind)).map RouteOp.write) id
        = t id)
      fun e => ∃ receivedAt,
        Writes.run t ((opsFrom digest o update peer n (kindSteps update kind)).map RouteOp.write) id
          = (routeOp digest update peer kind e.1 e.2 receivedAt).write.2 := by
  -- the last write of an id is the one of the last route with that id
  have hrel : Option.Rel (fun w e => ∃ receivedAt,
        w = (routeOp digest update peer kind e.1 e.2 receivedAt).write)
      (((opsFrom digest o update peer n (kindSteps update kind)).map RouteOp.write).reverse.find?
        fun w => w.1 = id)
      (lastOf digest update peer kind id) := by
    refine find?_rel ?_ (List.forall₂_reverse_iff.mpr (List.forall₂_map_left_iff.mpr
      ((opsFrom_kindSteps digest o update peer n kind).imp ?_)))
    · rintro w e ⟨receivedAt, rfl⟩
      rw [RouteOp.write, routeOp, entryOf_id]
    · rintro op e ⟨receivedAt, rfl⟩
      exact ⟨receivedAt, rfl⟩
  rw [Writes.run_eq]
  generalize lastOf digest update peer kind id = last at hrel
  generalize List.find? _ _ = found at hrel
  cases hrel with
  | none => rfl
  | some hw =>
    obtain ⟨receivedAt, rfl⟩ := hw
    exact ⟨receivedAt, rfl⟩

/-- **A withdrawn id has no row**, even when the update announces it too. -/
theorem applyUpdate_withdrawn {d d' : Data} (h : Consistent d)
    (ha : applyUpdate digest o update peer d = some d') {id : String}
    (hw : id ∈ idsOf digest update peer .withdraw) : d'.byId id = none := by
  obtain ⟨m, hb⟩ := applyUpdate_byId digest o update peer h ha
  -- the last withdrawal of the id is behind all announcements
  have hrun := run_kindSteps digest o update peer
    (Writes.run d.byId ((opsFrom digest o update peer 0 (kindSteps update .announce)).map
      RouteOp.write)) m .withdraw id
  rw [hb, Writes.run_append]
  cases hl : lastOf digest update peer .withdraw id with
  | none => exact absurd hw (lastOf_eq_none_iff.mp hl)
  | some e =>
    rw [hl] at hrun
    obtain ⟨receivedAt, hrun⟩ := hrun
    exact hrun

/-- Behind its announcements, an update does not touch an id that it does not withdraw. -/
theorem applyUpdate_not_withdrawn {d d' : Data} (h : Consistent d)
    (ha : applyUpdate digest o update peer d = some d') {id : String}
    (hw : id ∉ idsOf digest update peer .withdraw) :
    d'.byId id = Writes.run d.byId
      ((opsFrom digest o update peer 0 (kindSteps update .announce)).map RouteOp.write) id := by
  obtain ⟨m, hb⟩ := applyUpdate_byId digest o update peer h ha
  have hrun := run_kindSteps digest o update peer
    (Writes.run d.byId ((opsFrom digest o update peer 0 (kindSteps update .announce)).map
      RouteOp.write)) m .withdraw id
  rw [lastOf_eq_none_iff.mpr hw] at hrun
  rw [hb, Writes.run_append]
  exact hrun

/-- **An announced id that is not withdrawn** has the row of its last announcement. -/
theorem applyUpdate_announced {d d' : Data} (h : Consistent d)
    (ha : applyUpdate digest o update peer d = some d') {id : String} {e : String × Json}
    (hlast : lastOf digest update peer .announce id = some e)
    (hw : id ∉ idsOf digest update peer .withdraw) :
    ∃ receivedAt, d'.byId id = some (entryOf (shared update peer) id receivedAt e.1 e.2) := by
  have hrun := run_kindSteps digest o update peer d.byId 0 .announce id
  rw [hlast] at hrun
  obtain ⟨receivedAt, hrun⟩ := hrun
  refine ⟨receivedAt, ?_⟩
  rw [applyUpdate_not_withdrawn h ha hw, hrun, ← (mem_of_lastOf hlast).2]
  rfl

/-- **An id that is not mentioned** keeps its row. -/
theorem applyUpdate_other {d d' : Data} (h : Consistent d)
    (ha : applyUpdate digest o update peer d = some d') {id : String}
    (hann : id ∉ idsOf digest update peer .announce)
    (hw : id ∉ idsOf digest update peer .withdraw) : d'.byId id = d.byId id := by
  have hrun := run_kindSteps digest o update peer d.byId 0 .announce id
  rw [lastOf_eq_none_iff.mpr hann] at hrun
  rw [applyUpdate_not_withdrawn h ha hw]
  exact hrun

/-- So there is a row of an announced id that is not withdrawn. -/
theorem applyUpdate_kept {d d' : Data} (h : Consistent d)
    (ha : applyUpdate digest o update peer d = some d') {id : String}
    (hann : id ∈ idsOf digest update peer .announce)
    (hw : id ∉ idsOf digest update peer .withdraw) :
    ∃ e ∈ routesOf update .announce, routeId digest peer (keyOf e.1 e.2) = id ∧
      ∃ receivedAt, d'.byId id = some (entryOf (shared update peer) id receivedAt e.1 e.2) := by
  cases hl : lastOf digest update peer .announce id with
  | none => exact absurd hann (lastOf_eq_none_iff.mp hl)
  | some e =>
    obtain ⟨hmem, hid⟩ := mem_of_lastOf hl
    exact ⟨e, hmem, hid, applyUpdate_announced h ha hl hw⟩

/-- **What an update keeps of the rows.** What holds of the rows that are there and of
those that it announces holds of the rows behind it. -/
theorem applyUpdate_rows {P : String → Route → Prop} {d d' : Data} (h : Consistent d)
    (ha : applyUpdate digest o update peer d = some d') (hold : ∀ id r, d.byId id = some r → P id r)
    (hnew : ∀ label route receivedAt, (label, route) ∈ routesOf update .announce →
      P (routeId digest peer (keyOf label route)) (entryOf (shared update peer)
        (routeId digest peer (keyOf label route)) receivedAt label route))
    {id : String} {r : Route} (hr : d'.byId id = some r) : P id r := by
  by_cases hw : id ∈ idsOf digest update peer .withdraw
  · rw [applyUpdate_withdrawn h ha hw] at hr
    exact absurd hr (by simp)
  cases hl : lastOf digest update peer .announce id with
  | none =>
    -- a row the UPDATE does not touch is an old one
    rw [applyUpdate_other h ha (lastOf_eq_none_iff.mp hl) hw] at hr
    exact hold id r hr
  | some e =>
    obtain ⟨receivedAt, hrow⟩ := applyUpdate_announced h ha hl hw
    obtain ⟨hmem, hid⟩ := mem_of_lastOf hl
    rw [hr] at hrow
    rw [Option.some.inj hrow, ← hid]
    exact hnew e.1 e.2 receivedAt hmem

end Update

end Rib
