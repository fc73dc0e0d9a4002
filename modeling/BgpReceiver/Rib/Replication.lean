import BgpReceiver.Rib.Cancellation

/-!
# The events of an update as a replication log

`apply_update` takes the routes of an update through the store one by one, the announced
ones first, and reports them afterwards: one event for the announced rows and one for the
withdrawn rows, out of a `HashMap` whose order is not fixed (`eventsOf`). A consumer that
adds the ids of the announced rows and removes those of the withdrawn ones (`replay`)
keeps a set of ids.

The rows of the events are the routes of the update, in its order (`EventFacts`). The
consumer's set is that of the store as long as the two orders make no difference, that is,
unless the withdrawals of an update are reported first and one of them is of an id that the
update announces as well (`replicates_iff`).
-/

namespace Rib

/-! ### The events -/

/-- An event of an update: its kind and its rows. -/
structure UpdateEvent where
  kind : UpdateKind
  rows : List Json

/-- The events of the batches that have a row, in the order in which they are reported. -/
def eventsOf (o : Outside) (b : Batches) : List UpdateEvent :=
  ((if o.announceFirst then [UpdateKind.announce, .withdraw] else [.withdraw, .announce]).filter
    fun kind => b.rows kind ≠ []).map fun kind => ⟨kind, b.rows kind⟩

/-- The ids in the store. -/
def Data.idSet (d : Data) : Finset String := (d.routes.values.map Route.id).toFinset

section ApplyReporting

variable (digest : Bytes → Vector UInt8 20) (o : Outside) (update : Json) (peer : String)

/-- The loops of `apply_update`. -/
def updateLoops (d : Data) : Option Progress :=
  (updateSteps update).foldlM (updateStep digest o update peer)
    ⟨d.internShared (shared update peer), ⟨[], []⟩, 0⟩

/-- `apply_update`, together with the events that it emits. -/
def applyReporting (d : Data) : Option (Data × List UpdateEvent) := do
  let p ← updateLoops digest o update peer d
  let d ← (eventsOf o p.batches).foldlM
    (fun d e => d.record (batchEvent update (o.reportedAt e.kind) e.kind e.rows)) p.data
  return (d, eventsOf o p.batches)

end ApplyReporting

/-! ### The consumer -/

/-- The id of a row. -/
def rowId (row : Json) : String := (row.index "id").asStr.getD ""

/-- What the consumer does with an event. -/
def UpdateEvent.fold (ids : Finset String) (e : UpdateEvent) : Finset String :=
  match e.kind with
  | .announce => e.rows.foldl (fun ids row => insert (rowId row) ids) ids
  | .withdraw => e.rows.foldl (fun ids row => ids.erase (rowId row)) ids

/-- The consumer's set after some events. -/
def replay (ids : Finset String) (events : List UpdateEvent) : Finset String :=
  events.foldl UpdateEvent.fold ids

/-- The ids behind some rows that are added. -/
theorem mem_foldl_insert {rows : List Json} {ids : Finset String} {id : String} :
    id ∈ rows.foldl (fun ids row => insert (rowId row) ids) ids ↔
      id ∈ ids ∨ id ∈ rows.map rowId := by
  induction rows generalizing ids with
  | nil => simp
  | cons row rows ih =>
    rw [List.foldl_cons, ih, Finset.mem_insert, List.map_cons, List.mem_cons]
    tauto

/-- The ids behind some rows that are taken out. -/
theorem mem_foldl_erase {rows : List Json} {ids : Finset String} {id : String} :
    id ∈ rows.foldl (fun ids row => ids.erase (rowId row)) ids ↔
      id ∈ ids ∧ id ∉ rows.map rowId := by
  induction rows generalizing ids with
  | nil => simp
  | cons row rows ih =>
    rw [List.foldl_cons, ih, Finset.mem_erase, List.map_cons, List.mem_cons]
    tauto

/-- The consumer's set after the events of some batches. -/
theorem mem_replay_eventsOf {o : Outside} {b : Batches} {ids : Finset String} {id : String} :
    id ∈ replay ids (eventsOf o b) ↔
      if o.announceFirst then
        (id ∈ ids ∨ id ∈ b.announce.map rowId) ∧ id ∉ b.withdraw.map rowId
      else (id ∈ ids ∧ id ∉ b.withdraw.map rowId) ∨ id ∈ b.announce.map rowId := by
  -- an event without a row would change nothing, so that it is left out makes no difference
  have hfold : ∀ kinds : List UpdateKind, ∀ ids,
      replay ids ((kinds.filter fun kind => b.rows kind ≠ []).map fun kind => ⟨kind, b.rows kind⟩)
        = replay ids (kinds.map fun kind => ⟨kind, b.rows kind⟩) := by
    intro kinds
    induction kinds with
    | nil => exact fun _ => rfl
    | cons kind kinds ih =>
      intro ids
      by_cases hb : b.rows kind = []
      · have hskip : UpdateEvent.fold ids ⟨kind, b.rows kind⟩ = ids := by
          rw [hb]
          cases kind <;> rfl
        rw [List.filter_cons_of_neg (by simpa using hb), ih, List.map_cons, replay, replay,
          List.foldl_cons, hskip]
      · rw [List.filter_cons_of_pos (by simpa using hb), List.map_cons, List.map_cons, replay,
          List.foldl_cons]
        exact ih _
  unfold eventsOf
  rw [hfold]
  cases o.announceFirst with
  | true =>
    show id ∈ UpdateEvent.fold (UpdateEvent.fold ids ⟨.announce, b.announce⟩)
      ⟨.withdraw, b.withdraw⟩ ↔ _
    rw [UpdateEvent.fold, UpdateEvent.fold, mem_foldl_erase, mem_foldl_insert, if_pos rfl]
  | false =>
    show id ∈ UpdateEvent.fold (UpdateEvent.fold ids ⟨.withdraw, b.withdraw⟩)
      ⟨.announce, b.announce⟩ ↔ _
    rw [UpdateEvent.fold, UpdateEvent.fold, mem_foldl_insert, mem_foldl_erase,
      if_neg Bool.false_ne_true]

/-- An id is in the set exactly when a row is found by it. -/
theorem Indexed.mem_idSet_iff {d : Data} (h : Indexed d) {id : String} :
    id ∈ d.idSet ↔ (d.byId id).isSome := by
  rw [Data.idSet, List.mem_toFinset, List.mem_map, Option.isSome_iff_exists]
  constructor
  · rintro ⟨r, hr, rfl⟩
    obtain ⟨s, hs⟩ := d.routes.mem_values_iff.mp hr
    exact ⟨r, h.byId_of_row hs⟩
  · rintro ⟨r, hr⟩
    obtain ⟨⟨s, hs⟩, hid⟩ := h.row_of_byId hr
    exact ⟨r, d.routes.mem_values_iff.mpr ⟨s, hs⟩, hid⟩

/-! ### The rows -/

/-- The row that is reported for an operation. -/
def RouteOp.row (op : RouteOp) (existed : Bool) : Json :=
  op.entry.toJson.set "route_id"
    (if op.kind = .announce ∨ existed then .str op.entry.id else .null)

/-- A row of an event tells its id, unless it withdraws what was not there. -/
@[simp] theorem RouteOp.index_routeId_row (op : RouteOp) (existed : Bool) :
    (op.row existed).index "route_id"
      = if op.kind = .announce ∨ existed then .str op.entry.id else .null := by
  simp [RouteOp.row, Route.toJson, Json.index]

/-- The id that a reader takes from a row is that of the operation, with or without the text. -/
@[simp] theorem RouteOp.rowId_row (op : RouteOp) (existed : Bool) :
    rowId (op.row existed) = op.entry.id := by
  -- `id` is the first member, and no other member has its name
  have hid : (op.entry.toJson).get "id" = some (.str op.entry.id) := by
    have hmember : ∀ (v : Option Json) (key : String), key ≠ "id" →
        Entries.find "id" (v.toList.map fun v => (key, v)).reverse = none := by
      intro v key hkey
      cases v <;> simp [Entries.find_cons, Ne.symm hkey]
    have hmembers : ∀ (vs : List Json) (key : String), key ≠ "id" →
        Entries.find "id" (if vs = [] then [] else [(key, Json.arr vs)]).reverse = none := by
      intro vs key hkey
      split_ifs <;> simp [Entries.find_cons, Ne.symm hkey]
    rw [Route.toJson, Json.get_object, Route.fields]
    simp only [List.reverse_append, Entries.find_append]
    rw [hmembers _ _ (by decide), hmember _ _ (by decide), hmembers _ _ (by decide),
      hmembers _ _ (by decide), hmember _ _ (by decide), hmember _ _ (by decide)]
    rfl
  rw [rowId, RouteOp.row, Json.index, Route.toJson, Json.get_set_object, if_neg (by decide),
    ← Route.toJson, hid]
  rfl

/-- The rows of some operations, from the table of the rows that are there before. -/
def rowsFrom : (String → Option Route) → List RouteOp → List (UpdateKind × Json)
  | _, [] => []
  | t, op :: ops =>
    (op.kind, op.row (t op.entry.id).isSome)
      :: rowsFrom (Function.update t op.write.1 op.write.2) ops

/-- The rows of operations behind others, from the table that these leave. -/
theorem rowsFrom_append (t : String → Option Route) (ops ops' : List RouteOp) :
    rowsFrom t (ops ++ ops')
      = rowsFrom t ops ++ rowsFrom (Writes.run t (ops.map RouteOp.write)) ops' := by
  induction ops generalizing t with
  | nil => rfl
  | cons op ops ih =>
    rw [List.cons_append, rowsFrom, rowsFrom, ih, List.map_cons, Writes.run_cons, List.cons_append]

/-- The kinds of the rows are those of the operations. -/
theorem map_fst_rowsFrom (t : String → Option Route) (ops : List RouteOp) :
    (rowsFrom t ops).map Prod.fst = ops.map RouteOp.kind := by
  induction ops generalizing t with
  | nil => rfl
  | cons op ops ih => rw [rowsFrom, List.map_cons, List.map_cons, ih]

/-- The row of an operation says whether the id is there when its turn comes. -/
theorem getElem?_rowsFrom (t : String → Option Route) (ops : List RouteOp) (j : ℕ) :
    (rowsFrom t ops)[j]? = ops[j]?.map fun op =>
      (op.kind, op.row (Writes.run t ((ops.take j).map RouteOp.write) op.entry.id).isSome) := by
  induction ops generalizing t j with
  | nil => rfl
  | cons op ops ih =>
    cases j with
    | zero => rfl
    | succ j =>
      rw [rowsFrom, List.getElem?_cons_succ, ih, List.getElem?_cons_succ]
      rfl

/-- The section of a route finds out whether its id is there. -/
theorem applyRoute_existed {d d' : Data} (h : Consistent d) {op : RouteOp} {instant : ℕ}
    {existed : Bool} (hr : d.applyRoute op instant = some (d', existed)) :
    existed = (d.byId op.entry.id).isSome := by
  obtain ⟨d₁, hrem, -⟩ := applyRoute_eq_some_iff.mp hr
  -- whether there was a row is what the removal says
  rcases remove_spec h.indexed h.counted op.entry.id instant with
    ⟨hid, hr'⟩ | ⟨s, r, c, a, hid, hrow, -, hr', -⟩
  · rw [hrem] at hr'
    obtain ⟨-, rfl⟩ := Prod.mk.inj (Option.some.inj hr')
    rw [Data.byId, hid]
    rfl
  · rw [hrem] at hr'
    obtain ⟨-, rfl⟩ := Prod.mk.inj (Option.some.inj hr')
    rw [Data.byId, hid, Option.bind_some, hrow]
    rfl

/-- The ids of the rows are those of the operations. -/
theorem map_rowId_rowsFrom (t : String → Option Route) (ops : List RouteOp) :
    (rowsFrom t ops).map (fun r => rowId r.2) = ops.map fun op => op.entry.id := by
  induction ops generalizing t with
  | nil => rfl
  | cons op ops ih => rw [rowsFrom, List.map_cons, List.map_cons, ih, RouteOp.rowId_row]

/-! ### The batches -/

/-- Some rows go to the batches of their kinds. -/
def Batches.pushAll (b : Batches) (rows : List (UpdateKind × Json)) : Batches :=
  rows.foldl (fun b r => b.push r.1 r.2) b

/-- A batch gets the rows of its kind, in their order. -/
theorem Batches.rows_pushAll (b : Batches) (rows : List (UpdateKind × Json)) (kind : UpdateKind) :
    (b.pushAll rows).rows kind
      = b.rows kind ++ (rows.filter fun r => r.1 = kind).map Prod.snd := by
  induction rows generalizing b with
  | nil => simp [pushAll]
  | cons r rows ih =>
    -- one row goes to the batch of its kind
    have hpush : (b.push r.1 r.2).rows kind
        = b.rows kind ++ (if r.1 = kind then [r.2] else []) := by
      obtain ⟨k, row⟩ := r
      cases k <;> cases kind <;> simp [push, Batches.rows]
    show ((b.push r.1 r.2).pushAll rows).rows kind = _
    rw [ih, hpush, List.filter_cons, List.append_assoc]
    congr 1
    by_cases hk : r.1 = kind <;> simp [hk]

section Update

variable (digest : Bytes → Vector UInt8 20) (o : Outside) (update : Json) (peer : String)

/-- The loops report what their operations find. -/
theorem updateSteps_batches {p p' : Progress} (h : Consistent p.data) {steps : List UpdateStep}
    (hsub : ∀ st ∈ steps, st ∈ updateSteps update)
    (hf : steps.foldlM (updateStep digest o update peer) p = some p') :
    p'.batches = p.batches.pushAll
      (rowsFrom p.data.byId (opsFrom digest o update peer p.applied steps)) := by
  induction steps generalizing p with
  | nil =>
    obtain rfl := Option.some.inj hf
    rfl
  | cons st steps ih =>
    -- the first step, and then the others from what it leaves
    obtain ⟨p₁, h₁, hc, hf⟩ := updateSteps_cons digest o update peer h
      (hsub st List.mem_cons_self) hf
    rw [ih hc (fun st' hst' => hsub st' (List.mem_cons_of_mem _ hst')) hf]
    cases st with
    | group label =>
      obtain rfl := Option.some.inj h₁
      rfl
    | route kind label route =>
      rw [updateStep, Option.bind_eq_bind, Option.bind_eq_some_iff] at h₁
      obtain ⟨⟨d', existed⟩, hr, h₁⟩ := h₁
      obtain rfl := Option.some.inj h₁
      rw [opsFrom, rowsFrom, ← byId_applyRoute h hr, ← applyRoute_existed h hr]
      rfl

/-- The operations of a kind have this kind. -/
theorem kind_of_mem_opsFrom (n : ℕ) (kind : UpdateKind) :
    ∀ op ∈ opsFrom digest o update peer n (kindSteps update kind), op.kind = kind := by
  have hrel := opsFrom_kindSteps digest o update peer n kind
  generalize opsFrom digest o update peer n (kindSteps update kind) = ops at hrel ⊢
  generalize routesOf update kind = routes at hrel
  induction hrel with
  | nil => exact fun _ h => absurd h List.not_mem_nil
  | cons hop _ ih =>
    obtain ⟨receivedAt, rfl⟩ := hop
    exact List.forall_mem_cons.mpr ⟨rfl, ih⟩

/-- The operations of one kind have the ids of its routes. -/
theorem map_id_opsFrom (n : ℕ) (kind : UpdateKind) :
    (opsFrom digest o update peer n (kindSteps update kind)).map (fun op => op.entry.id)
      = idsOf digest update peer kind := by
  have hrel := opsFrom_kindSteps digest o update peer n kind
  unfold idsOf
  generalize opsFrom digest o update peer n (kindSteps update kind) = ops at hrel ⊢
  generalize routesOf update kind = routes at hrel ⊢
  induction hrel with
  | nil => rfl
  | cons hop _ ih =>
    obtain ⟨receivedAt, rfl⟩ := hop
    rw [List.map_cons, List.map_cons, ih, routeOp, entryOf_id]

/-- What the loops leave: the table after the two groups of operations, and the rows of
each group. -/
theorem updateLoops_spec {d : Data} (h : Consistent d) :
    ∃ p m, updateLoops digest o update peer d = some p ∧ Consistent p.data ∧
      p.batches.announce = (rowsFrom d.byId
        (opsFrom digest o update peer 0 (kindSteps update .announce))).map Prod.snd ∧
      p.batches.withdraw = (rowsFrom (Writes.run d.byId
        ((opsFrom digest o update peer 0 (kindSteps update .announce)).map RouteOp.write))
        (opsFrom digest o update peer m (kindSteps update .withdraw))).map Prod.snd ∧
      p.data.byId = Writes.run (Writes.run d.byId
        ((opsFrom digest o update peer 0 (kindSteps update .announce)).map RouteOp.write))
        ((opsFrom digest o update peer m (kindSteps update .withdraw)).map RouteOp.write) := by
  have h₀ : Consistent (d.internShared (shared update peer)) := h.of_eq rfl rfl
  obtain ⟨p, -, hp, -, hc⟩ := updateSteps_run digest o update peer
    (p := ⟨d.internShared (shared update peer), ⟨[], []⟩, 0⟩) h₀ fun st hst => hst
  -- what the loop leaves in the batches and in the store, by its operations
  have hbatches := updateSteps_batches digest o update peer
    (p := ⟨d.internShared (shared update peer), ⟨[], []⟩, 0⟩) h₀ (fun st hst => hst) hp
  have htable := updateSteps_byId digest o update peer
    (p := ⟨d.internShared (shared update peer), ⟨[], []⟩, 0⟩) h₀ (fun st hst => hst) hp
  obtain ⟨m, hm⟩ := opsFrom_append digest o update peer 0 (kindSteps update .announce)
    (kindSteps update .withdraw)
  rw [updateSteps_eq] at hbatches htable
  -- the rows of a loop are all of its own kind
  have hkinds : ∀ t n kind kind', ((rowsFrom t (opsFrom digest o update peer n
      (kindSteps update kind))).filter fun r => r.1 = kind')
        = if kind = kind' then rowsFrom t (opsFrom digest o update peer n (kindSteps update kind))
          else [] := by
    intro t n kind kind'
    have hall : ∀ r ∈ rowsFrom t (opsFrom digest o update peer n (kindSteps update kind)),
        r.1 = kind := by
      intro r hr
      have hmem := List.mem_map_of_mem (f := Prod.fst) hr
      rw [map_fst_rowsFrom] at hmem
      obtain ⟨op, hop, hk⟩ := List.mem_map.mp hmem
      rw [← hk, kind_of_mem_opsFrom digest o update peer n kind op hop]
    split_ifs with hk
    · rw [List.filter_eq_self]
      intro r hr
      simpa [hk] using hall r hr
    · rw [List.filter_eq_nil_iff]
      intro r hr
      simpa [hall r hr] using hk
  -- a batch has the rows of its kind
  have hrows : ∀ kind, p.batches.rows kind = ((rowsFrom d.byId
      (opsFrom digest o update peer 0 (kindSteps update .announce) ++
        opsFrom digest o update peer m (kindSteps update .withdraw))).filter
          fun r => r.1 = kind).map Prod.snd := by
    intro kind
    rw [hbatches, Batches.rows_pushAll]
    show Batches.rows ⟨[], []⟩ kind ++ ((rowsFrom d.byId (opsFrom digest o update peer 0 _)).filter
      _).map _ = _
    rw [hm]
    cases kind <;> rfl
  refine ⟨p, m, hp, hc, ?_, ?_, ?_⟩
  · show p.batches.rows .announce = _
    rw [hrows, rowsFrom_append, List.filter_append, hkinds, hkinds]
    simp
  · show p.batches.rows .withdraw = _
    rw [hrows, rowsFrom_append, List.filter_append, hkinds, hkinds]
    simp
  · rw [htable]
    show Writes.run d.byId ((opsFrom digest o update peer 0 _).map _) = _
    rw [hm, List.map_append, Writes.run_append]

/-- Whether the id of the route at a place of its group is in the store when its turn comes:
the announced routes come first. -/
def PresentAt (d : Data) (kind : UpdateKind) (j : ℕ) (id : String) : Prop :=
  match kind with
  | .announce => id ∈ d.idSet ∨ id ∈ (idsOf digest update peer .announce).take j
  | .withdraw =>
    (id ∈ d.idSet ∨ id ∈ idsOf digest update peer .announce) ∧
      id ∉ (idsOf digest update peer .withdraw).take j

/-- The row of the route at a place of its group: its entry, and a `route_id` that is its
id, or `null` for a withdrawal of a route that is not there. -/
def RowOf (d : Data) (kind : UpdateKind) (j : ℕ) (e : String × Json) (row : Json) : Prop :=
  ∃ receivedAt reported,
    row = (entryOf (shared update peer) (routeId digest peer (keyOf e.1 e.2)) receivedAt e.1
      e.2).toJson.set "route_id" reported ∧
    (reported = .null ∨ reported = .str (routeId digest peer (keyOf e.1 e.2))) ∧
    (reported = .null ↔
      kind = .withdraw ∧
        ¬ PresentAt digest update peer d kind j (routeId digest peer (keyOf e.1 e.2)))

/-- What the events of an update say about it. -/
structure EventFacts (d : Data) (events : List UpdateEvent) : Prop where
  /-- There is one event for each kind that the update has routes of. -/
  kinds : (events.map UpdateEvent.kind).Perm
    ([UpdateKind.announce, .withdraw].filter fun kind => routesOf update kind ≠ [])
  /-- The rows of an event are the routes of its kind, in order. -/
  rows : ∀ e ∈ events, e.rows.length = (routesOf update e.kind).length ∧
    ∀ j route row, (routesOf update e.kind)[j]? = some route → e.rows[j]? = some row →
      RowOf digest update peer d e.kind j route row

/-- The rows of one kind, when the table is right about what is there. -/
theorem rowOf_rowsFrom {d : Data} {t : String → Option Route} {n : ℕ} {kind : UpdateKind}
    (ht : ∀ j id, (Writes.run t (((opsFrom digest o update peer n (kindSteps update kind)).take
      j).map RouteOp.write) id).isSome ↔ PresentAt digest update peer d kind j id)
    {j : ℕ} {route : String × Json} {row : Json} (hroute : (routesOf update kind)[j]? = some route)
    (hrow : ((rowsFrom t (opsFrom digest o update peer n (kindSteps update kind))).map
      Prod.snd)[j]? = some row) :
    RowOf digest update peer d kind j route row := by
  rw [List.getElem?_map, getElem?_rowsFrom, Option.map_map] at hrow
  obtain ⟨op, hop, rfl⟩ := Option.map_eq_some_iff.mp hrow
  -- the operation at this place belongs to the route at this place
  have hof : OpOf digest update peer kind op route := by
    have hrel := opsFrom_kindSteps digest o update peer n kind
    obtain ⟨hj, rfl⟩ := List.getElem?_eq_some_iff.mp hop
    obtain ⟨hj', rfl⟩ := List.getElem?_eq_some_iff.mp hroute
    exact hrel.get hj hj'
  obtain ⟨receivedAt, rfl⟩ := hof
  have hid : (routeOp digest update peer kind route.1 route.2 receivedAt).entry.id
      = routeId digest peer (keyOf route.1 route.2) := entryOf_id _ _ _ _ _
  have hpresent := ht j (routeId digest peer (keyOf route.1 route.2))
  refine ⟨receivedAt, _, rfl, ?_, ?_⟩
  · split_ifs
    · exact Or.inr (congrArg Json.str hid)
    · exact Or.inl rfl
  · rw [hid, ← hpresent]
    cases kind <;> simp [routeOp]

/-- The keys that the first operations of one kind write to. -/
theorem map_fst_writes (n : ℕ) (kind : UpdateKind) (j : ℕ) :
    (((opsFrom digest o update peer n (kindSteps update kind)).take j).map RouteOp.write).map
      Prod.fst = (idsOf digest update peer kind).take j := by
  rw [← map_id_opsFrom digest o update peer n kind, List.map_map, List.map_take]
  rfl

/-- The announcements on their way through the table. -/
theorem isSome_run_announce (t : String → Option Route) (n j : ℕ) (id : String) :
    (Writes.run t (((opsFrom digest o update peer n (kindSteps update .announce)).take j).map
      RouteOp.write) id).isSome ↔
        (t id).isSome ∨ id ∈ (idsOf digest update peer .announce).take j := by
  rw [Writes.isSome_run_of_set ?_, map_fst_writes]
  intro w hw
  obtain ⟨op, hop, rfl⟩ := List.mem_map.mp hw
  rw [RouteOp.write, kind_of_mem_opsFrom digest o update peer n .announce op
    (List.mem_of_mem_take hop)]
  rfl

/-- The withdrawals on their way through the table. -/
theorem isSome_run_withdraw (t : String → Option Route) (n j : ℕ) (id : String) :
    (Writes.run t (((opsFrom digest o update peer n (kindSteps update .withdraw)).take j).map
      RouteOp.write) id).isSome ↔
        (t id).isSome ∧ id ∉ (idsOf digest update peer .withdraw).take j := by
  rw [Writes.isSome_run_of_unset ?_, map_fst_writes]
  intro w hw
  obtain ⟨op, hop, rfl⟩ := List.mem_map.mp hw
  rw [RouteOp.write, kind_of_mem_opsFrom digest o update peer n .withdraw op
    (List.mem_of_mem_take hop)]

/-- The events of a call are recorded as they are emitted. -/
theorem record_eventsOf (b : Batches) (d : Data) :
    (eventsOf o b).foldlM
      (fun d e => d.record (batchEvent update (o.reportedAt e.kind) e.kind e.rows)) d
        = (if o.announceFirst then [UpdateKind.announce, .withdraw]
          else [.withdraw, .announce]).foldlM (reportBatch o update b) d := by
  unfold eventsOf
  generalize (if o.announceFirst then [UpdateKind.announce, .withdraw]
    else [.withdraw, .announce]) = kinds
  -- kind by kind, in the order of the emission; a batch of no rows is not reported
  induction kinds generalizing d with
  | nil => rfl
  | cons kind kinds ih =>
    rw [List.foldlM_cons, reportBatch]
    by_cases hb : b.rows kind = []
    · rw [List.filter_cons_of_neg (by simpa using hb), if_pos hb, ih]
      rfl
    · rw [List.filter_cons_of_pos (by simpa using hb), if_neg hb, List.map_cons, List.foldlM_cons]
      exact bind_congr fun d => ih d

/-- What the loops leave, in terms of the ids. -/
theorem updateLoops_facts {d : Data} (h : Consistent d) :
    ∃ p, updateLoops digest o update peer d = some p ∧ Consistent p.data ∧
      (∀ kind, (p.batches.rows kind).map rowId = idsOf digest update peer kind) ∧
      (∀ kind j route row, (routesOf update kind)[j]? = some route →
        (p.batches.rows kind)[j]? = some row → RowOf digest update peer d kind j route row) ∧
      ∀ id, id ∈ p.data.idSet ↔ (id ∈ d.idSet ∨ id ∈ idsOf digest update peer .announce) ∧
        id ∉ idsOf digest update peer .withdraw := by
  obtain ⟨p, m, hp, hc, ha, hw, htable⟩ := updateLoops_spec digest o update peer h
  -- the table between the announcements and the withdrawals
  have hbetween : ∀ id, (Writes.run d.byId ((opsFrom digest o update peer 0
      (kindSteps update .announce)).map RouteOp.write) id).isSome ↔
        id ∈ d.idSet ∨ id ∈ idsOf digest update peer .announce := by
    intro id
    have hrun := isSome_run_announce digest o update peer d.byId 0
      (idsOf digest update peer .announce).length id
    rw [List.take_length, ← map_id_opsFrom digest o update peer 0 .announce, List.length_map,
      List.take_length, map_id_opsFrom digest o update peer 0 .announce] at hrun
    rw [hrun, h.indexed.mem_idSet_iff]
  refine ⟨p, hp, hc, ?_, ?_, ?_⟩
  · rintro (_ | _)
    · show p.batches.announce.map rowId = _
      rw [ha, List.map_map, ← map_id_opsFrom digest o update peer 0 .announce]
      exact map_rowId_rowsFrom _ _
    · show p.batches.withdraw.map rowId = _
      rw [hw, List.map_map, ← map_id_opsFrom digest o update peer m .withdraw]
      exact map_rowId_rowsFrom _ _
  · rintro (_ | _) j route row hroute hrow
    · refine rowOf_rowsFrom digest o update peer (n := 0) ?_ hroute (by rw [← ha]; exact hrow)
      intro j id
      rw [isSome_run_announce, PresentAt, h.indexed.mem_idSet_iff]
    · refine rowOf_rowsFrom digest o update peer (n := m) ?_ hroute (by rw [← hw]; exact hrow)
      intro j id
      rw [isSome_run_withdraw, PresentAt, hbetween]
  · intro id
    have hrun := isSome_run_withdraw digest o update peer (Writes.run d.byId
      ((opsFrom digest o update peer 0 (kindSteps update .announce)).map RouteOp.write)) m
      (idsOf digest update peer .withdraw).length id
    rw [List.take_length, ← map_id_opsFrom digest o update peer m .withdraw, List.length_map,
      List.take_length, map_id_opsFrom digest o update peer m .withdraw, hbetween] at hrun
    rw [hc.indexed.mem_idSet_iff, htable, hrun]

/-- **One update**, from a store whose ids the consumer has: its events are its routes, and
behind them the consumer has the ids of the store if and only if the announcements are
reported first or nothing is both announced and withdrawn. -/
theorem applyReporting_spec {d : Data} (h : Consistent d) :
    ∃ d' events, applyReporting digest o update peer d = some (d', events) ∧
      applyUpdate digest o update peer d = some d' ∧ Consistent d' ∧
      EventFacts digest update peer d events ∧
      (replay d.idSet events = d'.idSet ↔ o.announceFirst = true ∨
        ∀ id ∈ idsOf digest update peer .announce, id ∉ idsOf digest update peer .withdraw) := by
  obtain ⟨p, hp, hc, hids, hrows, hset⟩ := updateLoops_facts digest o update peer h
  obtain ⟨d', -, hreport, -, hc', hs⟩ := reportBatches_run digest o update peer hc p.batches
    (if o.announceFirst then [UpdateKind.announce, .withdraw] else [.withdraw, .announce])
  refine ⟨d', eventsOf o p.batches, ?_, ?_, hc', ⟨?_, ?_⟩, ?_⟩
  · rw [applyReporting, hp, Option.bind_eq_bind, Option.bind_some, record_eventsOf, hreport]
    rfl
  · show (updateLoops digest o update peer d).bind _ = some d'
    rw [hp, Option.bind_some, hreport]
  -- a batch is empty exactly when the UPDATE has no route of its kind
  · have hempty : ∀ kind, p.batches.rows kind = [] ↔ routesOf update kind = [] := by
      intro kind
      rw [← List.map_eq_nil_iff (f := rowId), hids, idsOf, List.map_eq_nil_iff]
    rw [eventsOf, List.map_map]
    have hfilter : ∀ kinds : List UpdateKind, (kinds.filter fun kind => p.batches.rows kind ≠ [])
        = kinds.filter fun kind => routesOf update kind ≠ [] := fun kinds =>
      List.filter_congr fun kind _ => by simp only [ne_eq, hempty]
    simp only [Function.comp_def, List.map_id', hfilter]
    -- the order of the two reports does not matter here
    cases o.announceFirst with
    | true => exact .refl _
    | false => exact (List.Perm.swap _ _ _).filter _
  · intro e he
    obtain ⟨kind, -, rfl⟩ := List.mem_map.mp he
    refine ⟨?_, hrows kind⟩
    rw [← List.length_map (f := rowId), hids, idsOf, List.length_map]
  · -- the reports leave the store as the loops left it
    have hd' : d'.idSet = p.data.idSet := by
      ext id
      rw [hc'.indexed.mem_idSet_iff, hc.indexed.mem_idSet_iff, byId_of_store_eq hs]
    have hann := hids .announce
    have hwd := hids .withdraw
    simp only [Batches.rows] at hann hwd
    rw [hd', Finset.ext_iff]
    simp only [mem_replay_eventsOf, hset, hann, hwd]
    cases o.announceFirst with
    | true => simp
    | false =>
      simp only [Bool.false_eq_true, if_false, false_or]
      constructor
      · -- an id in both would be announced last, and is not in the store
        intro hsame id hid hid'
        exact ((hsame id).mp (Or.inr hid)).2 hid'
      · intro hapart id
        have := hapart id
        tauto

end Update

/-! ### Runs -/

section Runs

variable (digest : Bytes → Vector UInt8 20) (peer : String)

/-- **The events replicate the store** along some updates: they say what the updates say,
and after each update the consumer has the ids of the store. -/
def Replicates : Data → Finset String → List Call → Prop
  | _, _, [] => True
  | d, ids, c :: calls =>
    ∃ d' events, applyReporting digest c.outside c.update peer d = some (d', events) ∧
      applyUpdate digest c.outside c.update peer d = some d' ∧
      EventFacts digest c.update peer d events ∧
      replay ids events = d'.idSet ∧ Replicates d' (replay ids events) calls

/-- The order of the two reports of an update makes no difference, or it is the order in
which the routes are applied. -/
def InOrder (c : Call) : Prop :=
  c.outside.announceFirst = true ∨
    ∀ id ∈ idsOf digest c.update peer .announce, id ∉ idsOf digest c.update peer .withdraw

variable {digest peer}

/-- **A reader that starts with the ids of the table keeps them** exactly when the calls are in
order. -/
theorem replicates_idSet_iff {d : Data} (h : Consistent d) {calls : List Call} :
    Replicates digest peer d d.idSet calls ↔ ∀ c ∈ calls, InOrder digest peer c := by
  -- call by call: a reader that is right before a call is right behind it when the call is in order
  induction calls generalizing d with
  | nil => simp [Replicates]
  | cons c calls ih =>
    obtain ⟨d', events, hrep, happ, hc', hfacts, hiff⟩ :=
      applyReporting_spec digest c.outside c.update peer h
    rw [List.forall_mem_cons]
    constructor
    · rintro ⟨d'', events', hrep', -, -, hsame, hrest⟩
      rw [hrep] at hrep'
      obtain ⟨rfl, rfl⟩ := Prod.mk.inj (Option.some.inj hrep')
      rw [hsame] at hrest
      exact ⟨hiff.mp hsame, (ih hc').mp hrest⟩
    · rintro ⟨hc, hcalls⟩
      have hsame := hiff.mpr hc
      refine ⟨d', events, hrep, happ, hfacts, hsame, ?_⟩
      rw [hsame]
      exact (ih hc').mpr hcalls

/-- **When the events are a replication log**: of a session's updates, each reports its
announcements first or announces nothing that it withdraws. -/
theorem replicates_iff {d : Data} (h : sections.Reachable d) (he : d.routes = .empty)
    (calls : List Call) :
    Replicates digest peer d ∅ calls ↔ ∀ c ∈ calls, InOrder digest peer c := by
  have hempty : d.idSet = ∅ := by
    rw [Data.idSet, he]
    rfl
  rw [← hempty]
  exact replicates_idSet_iff (sections_consistent h)

end Runs

/-- The events of the sample tell its table. -/
theorem sampleCalls_replicates :
    Replicates sampleDigest samplePeer (Data.new none) ∅ sampleCalls := by
  refine (replicates_iff (.init ⟨none, rfl⟩) rfl sampleCalls).mpr fun c hc => Or.inl ?_
  obtain ⟨body, -, rfl⟩ := List.mem_map.mp hc
  rfl

/-! 10.2.0.0/16 is withdrawn and announced, and the withdrawal is reported first. -/

/-- A prefix announced and withdrawn in one body. -/
def crossedBody : Bytes :=
  [0, 3, 16, 10, 2, 0, 14, 0x40, 1, 1, 0, 0x40, 2, 0, 0x40, 3, 4, 192, 0, 2, 1, 16, 10, 2]

/-- The withdrawals are reported first. -/
def crossedOutside : Outside := { sampleOutside with announceFirst := false }

/-- A reader that takes the events in this order keeps a route that the table does not have. -/
theorem crossedBody_not_replicates :
    Wire.update crossedBody 4 = .ok (updateOf crossedBody 4) ∧
      ¬ Replicates cancelDigest samplePeer (Data.new none) ∅
        [⟨crossedOutside, updateOf crossedBody 4⟩] := by
  have hok : (Wire.update crossedBody 4).isOk = true := by decide
  have hempty : (Data.new none).idSet = ∅ := rfl
  have hids : ∃ id ∈ idsOf cancelDigest (updateOf crossedBody 4) samplePeer .announce,
      id ∈ idsOf cancelDigest (updateOf crossedBody 4) samplePeer .withdraw := by
    decide
  refine ⟨updateOf_ok hok, ?_⟩
  generalize updateOf crossedBody 4 = update at hids ⊢
  intro hrep
  rw [← hempty, replicates_idSet_iff (new_consistent none)] at hrep
  -- the id is in both groups, and the withdrawal is reported first
  obtain ⟨id, hann, hwd⟩ := hids
  rcases hrep _ List.mem_cons_self with hfirst | hapart
  · exact absurd hfirst Bool.false_ne_true
  · exact hapart id hann hwd

end Rib
