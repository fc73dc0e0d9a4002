import BgpReceiver.Rib.Refinement

/-!
# The table in the middle of an update

`apply_update` takes the lock anew for every route, so that other tasks find the store with
a part of an update in it. What they find under an id is what the operations that are
through have written (`Midway`); the rest of the update is still to come.

Whenever that is, the rows of a key are those before the update or those behind it
(`Midway.between`): an announced row is replaced in one section, and announcing a key twice
in one update announces the same route twice. When nothing is left to do, the store refines
the table of the updates (`Midway.refines`).
-/

namespace Rib

section

variable (digest : Bytes → Vector UInt8 20) (peer : String)

/-- The operations of a call, in order. -/
def Call.ops (c : Call) : List RouteOp :=
  opsFrom digest c.outside c.update peer 0 (updateSteps c.update)

/-- The operations of some calls, in order. -/
def opsOf (calls : List Call) : List RouteOp := calls.flatMap (Call.ops digest peer)

/-- What some operations leave of an empty store. -/
def rowsAfter (ops : List RouteOp) : String → Option Route :=
  Writes.run (fun _ => none) (ops.map RouteOp.write)

/-- The operations of all calls but the last are through, and those of the last up to the
given ones. -/
def Midway (calls : List Call) (todo : List RouteOp) (d : Data) : Prop :=
  ∃ done, opsOf digest peer calls = done ++ todo ∧ opsOf digest peer calls.dropLast <+: done ∧
    d.byId = rowsAfter done

variable {digest peer}

/-- Operations behind others are done on what these leave. -/
theorem rowsAfter_append (ops ops' : List RouteOp) :
    rowsAfter (ops ++ ops') = Writes.run (rowsAfter ops) (ops'.map RouteOp.write) := by
  rw [rowsAfter, List.map_append, Writes.run_append]
  rfl

theorem opsOf_concat (calls : List Call) (c : Call) :
    opsOf digest peer (calls ++ [c]) = opsOf digest peer calls ++ c.ops digest peer := by
  simp [opsOf]

/-- An operation of a call is one of its routes. -/
theorem mem_ops {c : Call} {op : RouteOp} (h : op ∈ c.ops digest peer) :
    ∃ kind label route receivedAt, (label, route) ∈ routesOf c.update kind ∧
      op = routeOp digest c.update peer kind label route receivedAt := by
  unfold Call.ops at h
  rw [updateSteps_eq] at h
  obtain ⟨m, hm⟩ := opsFrom_append digest c.outside c.update peer 0
    (kindSteps c.update .announce) (kindSteps c.update .withdraw)
  rw [hm, List.mem_append] at h
  -- the operations of one kind go with the routes of that kind
  have hkind : ∀ n kind, op ∈ opsFrom digest c.outside c.update peer n (kindSteps c.update kind) →
      ∃ label route receivedAt, (label, route) ∈ routesOf c.update kind ∧
        op = routeOp digest c.update peer kind label route receivedAt := by
    intro n kind hop
    obtain ⟨i, hi, rfl⟩ := List.mem_iff_getElem.mp hop
    have hrel := opsFrom_kindSteps digest c.outside c.update peer n kind
    obtain ⟨receivedAt, hr⟩ := hrel.get hi (by rwa [← hrel.length_eq])
    exact ⟨_, _, receivedAt, List.getElem_mem _, hr⟩
  rcases h with h | h
  · exact ⟨_, hkind 0 .announce h⟩
  · exact ⟨_, hkind m .withdraw h⟩

/-- **A call, as its operations.** -/
theorem applyUpdate_ops {d d' : Data} (h : Consistent d) {c : Call}
    (ha : applyUpdate digest c.outside c.update peer d = some d') :
    d'.byId = Writes.run d.byId ((c.ops digest peer).map RouteOp.write) := by
  obtain ⟨p, hp, hs⟩ := applyUpdate_split digest c.outside c.update peer h ha
  have h₀ : Consistent (d.internShared (shared c.update peer)) := h.of_eq rfl rfl
  rw [byId_of_store_eq hs]
  exact updateSteps_byId digest c.outside c.update peer
    (p := ⟨d.internShared (shared c.update peer), ⟨[], []⟩, 0⟩) h₀ (fun st hst => hst) hp

/-- **The store behind some calls** is that of their operations one after the other. -/
theorem applyCalls_ops {calls : List Call} {d d' : Data} (h : Consistent d)
    (ha : applyCalls digest peer calls d = some d') :
    d'.byId = Writes.run d.byId ((opsOf digest peer calls).map RouteOp.write) := by
  -- call by call, each of which adds its operations
  induction calls generalizing d with
  | nil =>
    obtain rfl := Option.some.inj ha
    rfl
  | cons c calls ih =>
    rw [applyCalls, List.foldlM_cons, Option.bind_eq_bind, Option.bind_eq_some_iff] at ha
    obtain ⟨d₁, h₁, ha⟩ := ha
    obtain ⟨d₁', -, h₁', -, hc⟩ := applyUpdate_run digest c.outside c.update peer h
    rw [h₁] at h₁'
    obtain rfl := Option.some.inj h₁'
    rw [ih hc ha, applyUpdate_ops h h₁, ← Writes.run_append, ← List.map_append]
    rfl

variable {keys : Set Key}

/-- Whose rows there are is a matter of what is found by the ids. -/
theorem Owned.of_byId {d d' : Data} (h : Owned digest peer keys d) (hb : d'.byId = d.byId) :
    Owned digest peer keys d' := by
  unfold Owned
  rw [hb]
  exact h

/-- Two stores with the same rows under the ids have the same rows of the keys. -/
theorem rowsOf_of_byId {d d' : Data} (h : Indexed d) (h' : Indexed d')
    (ho : Owned digest peer keys d) (hinj : Set.InjOn (routeId digest peer) keys)
    (hb : d'.byId = d.byId) (k : Key) : rowsOf d' k = rowsOf d k := by
  have ho' := ho.of_byId hb
  by_cases hk : k ∈ keys
  · rw [rowsOf_eq h ho hinj hk, rowsOf_eq h' ho' hinj hk, hb]
  · rw [rowsOf_of_not_mem h ho hk, rowsOf_of_not_mem h' ho' hk]

/-- What is found under an id behind some operations. -/
theorem run_ops_cases (t : String → Option Route) (ops : List RouteOp) (id : String) :
    Writes.run t (ops.map RouteOp.write) id = t id ∨
      ∃ op ∈ ops, op.entry.id = id ∧ Writes.run t (ops.map RouteOp.write) id = op.write.2 := by
  rw [Writes.run_eq]
  cases hf : (ops.map RouteOp.write).reverse.find? fun w => w.1 = id with
  | none => exact Or.inl rfl
  | some w =>
    obtain ⟨op, hop, rfl⟩ := List.mem_map.mp (List.mem_reverse.mp (List.mem_of_find?_eq_some hf))
    have hid : op.write.1 = id := by simpa using List.find?_some hf
    exact Or.inr ⟨op, hop, hid, rfl⟩

/-- What holds of the calls: they are decoded, their keys are separate, and an id has one
key. -/
structure Sane (digest : Bytes → Vector UInt8 20) (peer : String) (keys : Set Key)
    (calls : List Call) : Prop where
  injOn : Set.InjOn (routeId digest peer) keys
  decoded : ∀ c ∈ calls, Decoded c.update
  separate : ∀ c ∈ calls, Separate c.update
  keys : occurring calls ⊆ keys

/-- Some of the calls are sane when all of them are. -/
theorem Sane.mono {calls calls' : List Call} (h : Sane digest peer keys calls)
    (hsub : ∀ c ∈ calls', c ∈ calls) : Sane digest peer keys calls' where
  injOn := h.injOn
  decoded := fun c hc => h.decoded c (hsub c hc)
  separate := fun c hc => h.separate c (hsub c hc)
  keys := fun _ hk => h.keys (hk.imp fun c hc => ⟨hsub c hc.1, hc.2⟩)

/-- Some store that has taken the calls. -/
theorem Sane.store {calls : List Call} (h : Sane digest peer keys calls) :
    ∃ d, Between digest peer keys d (tableOf peer (calls.map Call.update)) ∧
      d.byId = rowsAfter (opsOf digest peer calls) := by
  have hstart : Between digest peer keys (Data.new none) Table.empty :=
    .of_empty (new_consistent none) rfl
  obtain ⟨d, ha, hd⟩ := hstart.run h.injOn h.decoded h.separate h.keys
  refine ⟨d, hd, ?_⟩
  rw [applyCalls_ops (new_consistent none) ha]
  congr 1

/-- **When nothing is left to do, the store refines the table.** -/
theorem Midway.refines {calls : List Call} {d : Data} (hm : Midway digest peer calls [] d)
    (hd : Indexed d) (h : Sane digest peer keys calls) :
    Refines d (tableOf peer (calls.map Call.update)) := by
  obtain ⟨done, hdone, -, hb⟩ := hm
  obtain ⟨d₀, h₀, hb₀⟩ := h.store
  rw [List.append_nil] at hdone
  intro k
  rw [rowsOf_of_byId h₀.consistent.indexed hd h₀.owned h.injOn (by rw [hb, hb₀, hdone])]
  exact h₀.refines k

/-- **At any moment a key shows the table before the last update, or the one behind it.** -/
theorem Midway.between {calls : List Call} {todo : List RouteOp} {d : Data}
    (hm : Midway digest peer calls todo d) (hd : Indexed d) (h : Sane digest peer keys calls)
    (k : Key) :
    (rowsOf d k).map Route.content
        = (tableOf peer (calls.map Call.update).dropLast k).toList ∨
      (rowsOf d k).map Route.content = (tableOf peer (calls.map Call.update) k).toList := by
  obtain ⟨done, hdone, hbefore, hb⟩ := hm
  rcases List.eq_nil_or_concat calls with rfl | ⟨before, c, rfl⟩
  · -- no call: nothing has been written
    obtain ⟨rfl, rfl⟩ := List.append_eq_nil_iff.mp hdone.symm
    have hnil : Midway digest peer [] [] d := ⟨[], rfl, List.prefix_rfl, hb⟩
    exact Or.inr (hnil.refines hd h k)
  · rw [List.concat_eq_append] at *
    rw [List.dropLast_concat] at hbefore
    obtain ⟨part, rfl⟩ := hbefore
    rw [opsOf_concat, List.append_assoc, List.append_cancel_left_eq] at hdone
    obtain ⟨d₀, h₀, hb₀⟩ := (h.mono fun c' hc' => List.mem_append_left [c] hc').store
    have hcalls : c ∈ before ++ [c] := by simp
    -- what is found under an id was there before, or is of an operation of the last call
    have hcases : ∀ id, d.byId id = d₀.byId id ∨ ∃ kind label route receivedAt,
        (label, route) ∈ routesOf c.update kind ∧ routeId digest peer (keyOf label route) = id ∧
        d.byId id = (routeOp digest c.update peer kind label route receivedAt).write.2 := by
      intro id
      rw [hb, rowsAfter_append, ← hb₀]
      refine (run_ops_cases d₀.byId part id).imp (fun hsame => hsame) ?_
      rintro ⟨op, hop, rfl, hwrite⟩
      have hmem : op ∈ c.ops digest peer := by
        rw [hdone]
        exact List.mem_append_left _ hop
      obtain ⟨kind, label, route, receivedAt, hroute, rfl⟩ := mem_ops hmem
      exact ⟨kind, label, route, receivedAt, hroute, (entryOf_id _ _ _ _ _).symm, hwrite⟩
    have hmentions : ∀ {kind label route}, (label, route) ∈ routesOf c.update kind →
        keyOf label route ∈ keys := by
      intro kind label route hroute
      refine h.keys ⟨c, hcalls, ?_⟩
      cases kind with
      | announce => exact Or.inl (keyOf_mem_keysOf hroute)
      | withdraw => exact Or.inr (keyOf_mem_keysOf hroute)
    have ho : Owned digest peer keys d := by
      intro id r hr
      rcases hcases id with hsame | ⟨kind, label, route, receivedAt, hroute, rfl, hwrite⟩
      · exact h₀.owned id r (hsame.symm.trans hr)
      · rw [hr] at hwrite
        cases kind with
        | withdraw => exact absurd hwrite (by simp [RouteOp.write, routeOp])
        | announce =>
          obtain rfl := Option.some.inj hwrite
          have hdecoded := h.decoded c hcalls
          have hkey := entryOf_key (hdecoded.index_prefix hroute)
            (shared c.update peer) (routeId digest peer (keyOf label route)) receivedAt
          show (entryOf _ _ _ _ _).key ∈ keys ∧ _ = routeId digest peer (entryOf _ _ _ _ _).key
          rw [hkey]
          exact ⟨hmentions hroute, rfl⟩
    rw [List.map_append, List.map_singleton, List.dropLast_concat]
    show _ ∨ _ = (List.foldl (Table.apply peer) Table.empty _ k).toList
    rw [List.foldl_append, List.foldl_cons, List.foldl_nil]
    by_cases hk : k ∈ keys
    · rw [rowsOf_eq hd ho h.injOn hk]
      rcases hcases (routeId digest peer k) with
        hsame | ⟨kind, label, route, receivedAt, hroute, hid, hwrite⟩
      · -- no operation on the key is through
        left
        rw [hsame, ← rowsOf_eq h₀.consistent.indexed h₀.owned h.injOn hk]
        exact h₀.refines k
      · right
        obtain rfl := h.injOn (hmentions hroute) hk hid
        rw [hwrite]
        cases kind with
        | announce =>
          rw [Table.apply_announced (h.decoded c hcalls) hroute]
          show [(entryOf _ _ _ _ _).content] = _
          rw [entryOf_content c.update peer _ receivedAt (label, route)]
          rfl
        | withdraw =>
          -- a key that is withdrawn is not announced by the same update
          have hw := keyOf_mem_keysOf hroute
          rw [Table.apply_withdrawn (fun hann => h.separate c hcalls _ hann hw) hw]
          rfl
    · left
      rw [rowsOf_of_not_mem hd ho hk, ← rowsOf_of_not_mem h₀.consistent.indexed h₀.owned hk]
      exact h₀.refines k

end

end Rib
