import BgpReceiver.Rib.Midway
import BgpReceiver.Session.Lifecycle

/-!
# The table of a session

The program as a whole, from the frames of a connection to the store. In every run of
`lifecycle`, whatever other tasks and requests do in between, a session on its connection
has taken frames of the language of a session, and the store holds what the operations of
their UPDATEs have written so far (`OnConnection`).

So the store refines the table of the UPDATEs that were taken on this connection whenever the
session waits for the next frame, and while an UPDATE is worked off every key shows the
table before it or behind it (`lifecycle_table`).
-/

namespace Session

open Rib (Section RouteOp Midway Call opsOf)

/-! ### Frames and updates of a connection -/

/-- The frames of the connection in hand, behind one more event. -/
def hear (w : List Arrival) : Event → List Arrival
  | .connect _ | .connectFails => []
  | .frame a => w ++ [a]
  | _ => w

/-- The frames that have been taken on the connection in hand. -/
def heard (ls : List Event) : List Arrival := ls.foldl hear []

/-- What has been heard, with one more event. -/
@[simp] theorem heard_concat (ls : List Event) (e : Event) :
    heard (ls ++ [e]) = hear (heard ls) e := by
  rw [heard, List.foldl_append]
  rfl

/-- The UPDATEs among some frames, decoded. -/
noncomputable def decodedOf (w : List Frame) : List Json :=
  (w.filter (·.kind = 2)).map fun f => Rib.updateOf f.body (asnLenOf w)

/-- What is applied are the decoded UPDATEs. -/
theorem Applies.decoded {config : Config} {asnLen : ℕ} {w : List Frame} {out : List Effect}
    (h : Applies config asnLen w out) :
    updatesOf out = ((w.filter (·.kind = 2)).map fun f => Rib.updateOf f.body asnLen).map
        (fun u => (u, config.peerIp.text)) ∧
      ∀ u ∈ (w.filter (·.kind = 2)).map fun f => Rib.updateOf f.body asnLen, Rib.Decoded u := by
  unfold Applies at h
  generalize w.filter (·.kind = 2) = fs at h
  generalize updatesOf out = es at h
  -- frame by frame, each of which applies its own UPDATE
  induction h with
  | nil => exact ⟨rfl, fun _ hu => absurd hu List.not_mem_nil⟩
  | cons hfe _ ih =>
    obtain ⟨u, hu, rfl⟩ := hfe
    have hof := congrArg (fun r => (Except.toOption r).getD Json.null) hu
    change Rib.updateOf _ asnLen = u at hof
    refine ⟨?_, ?_⟩
    · rw [List.map_cons, List.map_cons, hof, ih.1]
    · rw [List.map_cons, hof]
      exact List.forall_mem_cons.mpr ⟨⟨_, asnLen, hu⟩, ih.2⟩

/-- The updates that `connected` hands over are those of the frames, and they are decoded ones. -/
theorem Phase.decoded {config : Config} {w : List Frame} {out : List Effect} {c : Conn}
    (h : Phase config w out c) :
    updatesOf out = (decodedOf w).map (fun u => (u, config.peerIp.text)) ∧
      ∀ u ∈ decodedOf w, Rib.Decoded u := by
  unfold decodedOf
  cases h with
  | start hu => exact ⟨hu, fun _ hu => absurd hu List.not_mem_nil⟩
  | opened hn hu =>
    rw [List.filter_cons_of_neg (by simp [hn.isOpen.1])]
    exact ⟨hu, fun _ hu => absurd hu List.not_mem_nil⟩
  | established hn hk _ happly =>
    -- neither the OPEN nor the KEEPALIVE is an UPDATE
    rw [List.filter_cons_of_neg (by simp [hn.isOpen.1]), List.filter_cons_of_neg (by simp [hk.1])]
    exact happly.decoded

/-- The clock of the KEEPALIVEs does not count. -/
theorem Phase.nextKeepalive {config : Config} {w : List Frame} {out : List Effect} {c : Conn}
    (h : Phase config w out c) (next : ℕ) :
    Phase config w out { c with nextKeepalive := next } := by
  cases h with
  | start hu hr he hh ha => exact .start hu hr he hh ha
  | opened hn hu hr he => exact .opened (hn.congr rfl rfl) hu hr he
  | established hn hk hrest hu hr he => exact .established (hn.congr rfl rfl) hk hrest hu hr he

/-- A frame leads to one call of `apply_update` at most. -/
theorem onFrame_updates {config : Config} {c c' : Conn} {a : Arrival} {out : List Effect}
    (h : onFrame config c a = .ok (c', out)) : (updatesOf out).length ≤ 1 := by
  obtain ⟨c₁, deadline, hd, -⟩ := onFrame_ok h
  unfold dispatch at hd
  -- only an UPDATE applies one, and it applies one
  split_ifs at hd with _ _ he
  · obtain ⟨-, -, -, -, -, -, -, rfl⟩ := onOpen_ok hd
    exact Nat.zero_le _
  · obtain ⟨-, rfl⟩ := Prod.mk.inj (Except.ok.inj hd)
    exact Nat.zero_le _
  · obtain ⟨-, rfl⟩ := Prod.mk.inj (Except.ok.inj hd)
    exact Nat.zero_le _
  · simp only [Reader.bind_eq_ok_iff] at hd
    obtain ⟨u, -, hd⟩ := hd
    obtain ⟨-, rfl⟩ := Prod.mk.inj (Except.ok.inj hd)
    exact le_rfl

/-! ### The operations among the acts -/

/-- The operation of an act. -/
def Act.op : Act → Option RouteOp
  | .route op => some op
  | _ => none

/-- The operations that are left to do. -/
def Task.ops (t : Task) : List RouteOp := t.todo.filterMap Act.op

/-- The operations of what a frame does are those of its UPDATE. -/
theorem filterMap_op_acts (digest : Bytes → Vector UInt8 20) (o : Rib.Outside) {peer : String}
    {out : List Effect} (hpeer : ∀ e ∈ updatesOf out, e.2 = peer) :
    (out.flatMap (Effect.acts digest o)).filterMap Act.op
      = opsOf digest peer ((updatesOf out).map fun e => ⟨o, e.1⟩) := by
  induction out with
  | nil => rfl
  | cons e out ih =>
    -- the effects come one after the other, and so do their operations
    have hcons : updatesOf (e :: out) = updatesOf [e] ++ updatesOf out := updatesOf_append [e] out
    have hrest := ih fun e' he' => hpeer e' (by rw [hcons]; exact List.mem_append_right _ he')
    rw [List.flatMap_cons, List.filterMap_append, hrest, hcons, List.map_append, opsOf, opsOf,
      List.flatMap_append]
    congr 1
    cases e with
    | applyUpdate u p =>
      obtain rfl : p = peer := hpeer (u, p) (by rw [hcons]; exact List.mem_cons_self)
      show ((Rib.opsFrom digest o u p 0 (Rib.updateSteps u)).map Act.route).filterMap Act.op = _
      rw [List.filterMap_map]
      show List.filterMap some _ = _ ++ []
      rw [List.filterMap_some, List.append_nil]
      rfl
    | setState | write | peerInfo | emit => rfl

/-- A free section leaves the store alone. -/
theorem free_store {s : Section} (hs : s.Free) {d d' : Rib.Data} (hr : s.run d = some d') :
    d'.store = d.store := by
  cases s with
  | record event =>
    obtain ⟨_, _, rfl⟩ := Rib.record_frame hr
    rfl
  | reclaimMemory | internShared | internLabel | flushed | clearHistory | capturing =>
    obtain rfl := Option.some.inj hr
    rfl
  | route | setState | stop | start | disconnected | runEnded | peerInfo =>
    exact absurd hs (by simp [Section.Free])

/-! ### A session on its connection -/

/-- What a session has taken, and what of it is in the store. -/
structure OnConnection (digest : Bytes → Vector UInt8 20) (ls : List Event) (w : World) (t : Task)
    (c : Conn) : Prop where
  phase : ∃ out, Phase t.config (frames (heard ls)) out c
  midway : ∃ calls : List Call, calls.map Call.update = decodedOf (frames (heard ls)) ∧
    Midway digest t.config.peerIp.text calls t.ops w.data

variable {digest : Bytes → Vector UInt8 20}

/-- An event that is no frame, with the same rows and the same operations to do. -/
theorem OnConnection.keep {ls : List Event} {w w' : World} {t t' : Task} {c : Conn}
    (h : OnConnection digest ls w t c) {e : Event} (he : heard (ls ++ [e]) = heard ls)
    (hd : w'.data.byId = w.data.byId) (hc : t'.config = t.config) (ht : t'.ops = t.ops) :
    OnConnection digest (ls ++ [e]) w' t' c := by
  obtain ⟨hphase, calls, hcalls, done, hdone, hbefore, hb⟩ := h
  rw [← he] at hphase hcalls
  rw [← hc] at hphase hdone hbefore
  exact ⟨hphase, calls, hcalls, done, by rw [ht]; exact hdone, hbefore, hd.trans hb⟩

/-- A frame is taken when nothing is left to do. -/
theorem OnConnection.frame {ls : List Event} {w : World} {t : Task} {c c' : Conn} {a : Arrival}
    {out : List Effect} (h : OnConnection digest ls w t c) (htodo : t.todo = [])
    (ha : onFrame t.config c a = .ok (c', out)) (o : Rib.Outside) :
    OnConnection digest (ls ++ [.frame a])
      { w with session := some { t with
          place := .session c', todo := out.flatMap (Effect.acts digest o) } }
      { t with place := .session c', todo := out.flatMap (Effect.acts digest o) } c' := by
  obtain ⟨⟨before, hphase⟩, calls, hcalls, done, hdone, -, hb⟩ := h
  obtain ⟨c₁, deadline, hd, rfl⟩ := onFrame_ok ha
  have hphase' : Phase t.config (frames (heard (ls ++ [.frame a]))) (before ++ out)
      { c₁ with deadline := deadline } := by
    rw [heard_concat, hear, frames, List.map_append]
    exact (hphase.dispatch hd).deadline deadline
  -- the calls are those that were there and the one of the frame
  have happlied : updatesOf out = ((updatesOf out).map Prod.fst).map
      (fun u => (u, t.config.peerIp.text)) ∧
      decodedOf (frames (heard (ls ++ [.frame a])))
        = decodedOf (frames (heard ls)) ++ (updatesOf out).map Prod.fst := by
    have hall := hphase'.decoded.1
    rw [updatesOf_append, hphase.decoded.1] at hall
    have hfst := congrArg (List.map Prod.fst) hall
    simp only [List.map_append, List.map_map, Function.comp_def, List.map_id'] at hfst
    refine ⟨?_, hfst.symm⟩
    rw [← hfst, List.map_append] at hall
    exact List.append_cancel_left hall
  -- whatever is applied is of this peer
  have hpeer : ∀ e ∈ updatesOf out, e.2 = t.config.peerIp.text := by
    intro e he
    rw [happlied.1] at he
    obtain ⟨u, -, rfl⟩ := List.mem_map.mp he
    rfl
  have hdone' : done = opsOf digest t.config.peerIp.text calls := by
    rw [hdone, Task.ops, htodo, List.filterMap_nil, List.append_nil]
  refine ⟨⟨_, hphase'⟩, calls ++ (updatesOf out).map fun e => ⟨o, e.1⟩, ?_, done, ?_, ?_, hb⟩
  · rw [happlied.2, ← hcalls, List.map_append, List.map_map]
    rfl
  · rw [Task.ops, filterMap_op_acts digest o hpeer, hdone']
    exact List.flatMap_append
  · -- there is one call more at most, so the others are through
    rw [hdone']
    have hlen := onFrame_updates ha
    cases hu : updatesOf out with
    | nil =>
      rw [List.map_nil, List.append_nil]
      cases calls.eq_nil_or_concat with
      | inl hnil => rw [hnil]; exact List.prefix_rfl
      | inr hc =>
        obtain ⟨cs, b, rfl⟩ := hc
        rw [List.concat_eq_append, List.dropLast_concat, Rib.opsOf_concat]
        exact List.prefix_append _ _
    | cons e es =>
      rw [hu, List.length_cons] at hlen
      obtain rfl := List.eq_nil_of_length_eq_zero (by omega : es.length = 0)
      rw [List.map_singleton, List.dropLast_concat]

/-- The session of a world, if it is on its connection. -/
def Told (digest : Bytes → Vector UInt8 20) (ls : List Event) (w : World) : Prop :=
  ∀ t c, w.session = some t → t.place = .session c → OnConnection digest ls w t c

/-- The next act of a session on its connection. -/
theorem OnConnection.act {ls : List Event} {w : World} {t : Task} {c : Conn}
    (h : OnConnection digest ls w t c) (hw : Rib.Consistent w.data) {a : Act} {rest : List Act}
    (htodo : t.todo = a :: rest) (ha : a.Inner) {s : Section} (hs : a.Does s) {d : Rib.Data}
    (hr : s.run w.data = some d) :
    OnConnection digest (ls ++ [.act s])
      { w.after s d with session := some { t with todo := rest } } { t with todo := rest } c := by
  have hheard : heard (ls ++ [.act s]) = heard ls := heard_concat _ _
  -- by act: only a route moves the table
  cases hs with
  | setState state | peerInfo info =>
    obtain rfl := Option.some.inj hr
    exact h.keep hheard rfl rfl (by rw [Task.ops, Task.ops, htodo]; rfl)
  | route op instant =>
    obtain ⟨⟨d', existed⟩, hroute, rfl⟩ := Option.map_eq_some_iff.mp hr
    obtain ⟨hphase, calls, hcalls, done, hdone, hbefore, hb⟩ := h
    rw [← hheard] at hphase hcalls
    -- one operation more is through
    refine ⟨hphase, calls, hcalls, done ++ [op], ?_, hbefore.trans (List.prefix_append _ _), ?_⟩
    · rw [hdone, Task.ops, Task.ops, htodo, List.append_assoc]
      rfl
    · show d'.byId = _
      rw [Rib.byId_applyRoute hw hroute, hb, Rib.rowsAfter_append]
      rfl
  | disconnected | runEnded | stop | start => exact absurd ha (by simp [Act.Inner])

/-- **Every step keeps the account of the connection.** -/
theorem Told.step {ls : List Event} {w w' : World} {e : Event} (hw : Inv w)
    (h : Told digest ls w) (hstep : Step digest w e w') : Told digest (ls ++ [e]) w' := by
  obtain ⟨sh, hs, hf⟩ := hw
  have hcons := Rib.sections_consistent hs.reachable
  intro t' c' ht' hp'
  -- by step: those of the connection move what has been told, and the others leave it
  cases hstep with
  | free hfree hr =>
    exact (h t' c' ht' hp').keep (heard_concat _ _) (Rib.byId_of_store_eq (free_store hfree hr))
      rfl rfl
  | act ht htodo hdoes hr =>
    obtain rfl := Option.some.inj ht'
    rw [ht] at hf
    have hinner := (hf.of_session.2.2 c' hp').2 _ (by rw [htodo]; exact List.mem_cons_self)
    exact (h _ c' ht hp').act hcons htodo hinner hdoes hr
  | wrote ht htodo =>
    obtain rfl := Option.some.inj ht'
    exact (h _ c' ht hp').keep (heard_concat _ _) rfl rfl (by rw [Task.ops, Task.ops, htodo]; rfl)
  | connect now o ht htodo hp =>
    obtain rfl := Option.some.inj ht'
    obtain rfl := Place.session.inj hp'
    -- no row is there while no connection is in hand
    have hempty : w.data.byId = fun _ => none := by
      rw [ht] at hf
      have hleads := hf.of_session.2.1
      rw [htodo, hp] at hleads
      funext id
      cases hid : w.data.byId id with
      | none => rfl
      | some r =>
        obtain ⟨s, hrow⟩ := (hcons.indexed.row_of_byId hid).1
        have hsh := (hs.rows s r hrow).1
        rw [show sh = ⟨.connect, true, false⟩ from hleads] at hsh
        exact absurd hsh (by simp)
    have hheard : heard (ls ++ [.connect now]) = [] := heard_concat _ _
    refine ⟨⟨[], ?_⟩, [], ?_, [], rfl, List.prefix_rfl, hempty⟩
    · rw [hheard]
      exact .start rfl rfl rfl rfl rfl
    · rw [hheard]
      rfl
  | frame o ht htodo hp ha =>
    obtain rfl := Option.some.inj ht'
    obtain rfl := Place.session.inj hp'
    exact (h _ _ ht hp).frame htodo ha o
  | @keepalive t c now ht htodo hp =>
    obtain rfl := Option.some.inj ht'
    obtain rfl := Place.session.inj hp'
    have hkeep : OnConnection digest (ls ++ [.keepalive now]) w { t with todo := [.write] } c :=
      (h t c ht hp).keep (heard_concat _ _) rfl rfl (by rw [Task.ops, Task.ops, htodo]; rfl)
    obtain ⟨⟨out, hphase⟩, hmidway⟩ := hkeep
    exact ⟨⟨out, hphase.nextKeepalive _⟩, hmidway⟩
  | request r _ _ =>
    obtain ⟨t, ht, rfl⟩ := Option.map_eq_some_iff.mp ht'
    exact (h t c' ht hp').keep (heard_concat _ _) rfl rfl rfl
  | flushFails | flushed | released => exact (h t' c' ht' hp').keep (heard_concat _ _) rfl rfl rfl
  | requestAct hreq =>
    -- there is no session beside the acts of a request
    rw [hreq] at hf
    have hnone := hf.of_acting.1
    exact absurd ht' (by simp [World.after, hnone])
  | joinedStop | joinedStart => exact absurd ht' (by simp)
  | turn | connectFails | frameFails | connectionFails | retry | stoppedIdle | stoppedConnected
  | spawned =>
    obtain rfl := Option.some.inj ht'
    exact absurd hp' (by simp)

/-- What the run tells holds in every run. -/
theorem lifecycle_told {output : Option String} {ls : List Event} {w : World}
    (h : (lifecycle digest).Run (World.new output) ls w) : Told digest ls w := by
  have hinit : (lifecycle digest).init (World.new output) := ⟨output, rfl⟩
  induction h with
  | nil => exact fun t c ht => absurd ht (by simp [World.new])
  | snoc hr hstep ih => exact ih.step (lifecycle_inv ⟨_, _, hinit, hr⟩) hstep

/-! ### The table -/

/-- The keys that occur in some updates. -/
def keysIn (us : List Json) : Set Rib.Key := {k | ∃ u ∈ us, Rib.Mentions u k}

/-- What the store holds while a session is on its connection. -/
structure TableFacts (config : Config) (w : List Frame) (d : Rib.Data) (waiting : Prop) : Prop where
  /-- The frames that were taken are those of a session. -/
  conforms : Conforms config w
  /-- A key shows the table before the last UPDATE that was taken, or the one behind it. -/
  between : ∀ k,
    (Rib.rowsOf d k).map Rib.Route.content
        = (Rib.tableOf config.peerIp.text (decodedOf w).dropLast k).toList ∨
      (Rib.rowsOf d k).map Rib.Route.content
        = (Rib.tableOf config.peerIp.text (decodedOf w) k).toList
  /-- When the next frame is due, the store refines the table of the UPDATEs. -/
  settled : waiting → Rib.Refines d (Rib.tableOf config.peerIp.text (decodedOf w))

/-- **From the frames of the connection to the store.** -/
theorem OnConnection.table {ls : List Event} {w : World} {t : Task} {c : Conn}
    (h : OnConnection digest ls w t c) (hw : Inv w)
    (hsep : ∀ u ∈ decodedOf (frames (heard ls)), Rib.Separate u)
    (hinj : Set.InjOn (Rib.shortId digest)
      (Rib.Key.canonical t.config.peerIp.text '' keysIn (decodedOf (frames (heard ls))))) :
    TableFacts t.config (frames (heard ls)) w.data (t.todo = []) := by
  obtain ⟨sh, hs, -⟩ := hw
  have hcons := Rib.sections_consistent hs.reachable
  obtain ⟨⟨out, hphase⟩, calls, hcalls, hmidway⟩ := h
  -- the calls are those of the UPDATEs that were decoded
  have hof : ∀ c ∈ calls, c.update ∈ decodedOf (frames (heard ls)) := by
    intro c hc
    rw [← hcalls]
    exact List.mem_map_of_mem hc
  -- the ids are told apart, and no UPDATE announces what it withdraws
  have hsane : Rib.Sane digest t.config.peerIp.text (keysIn (decodedOf (frames (heard ls)))) calls
      := ⟨Rib.routeId_injOn hinj, fun c hc => hphase.decoded.2 _ (hof c hc),
        fun c hc => hsep _ (hof c hc), fun k ⟨c, hc, hk⟩ => ⟨_, hof c hc, hk⟩⟩
  refine ⟨hphase.conforms, fun k => ?_, fun htodo => ?_⟩
  · rw [← hcalls]
    exact hmidway.between hcons.indexed hsane k
  · rw [← hcalls]
    have hops : t.ops = [] := by rw [Task.ops, htodo]; rfl
    rw [hops] at hmidway
    exact hmidway.refines hcons.indexed hsane

end Session
