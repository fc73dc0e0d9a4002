import BgpReceiver.Framework.Product
import BgpReceiver.Session.Completion

/-!
# The connections of a session

`run` listens for connections and opens connections itself, and has at most one of them in hand.
What arrives at the listener waits there until `incoming` accepts it, which is polled in three
places: while `run` waits for a connection, while it is in `connected`, and behind a connection.
A connection from another address than that of the peer is closed. One of the peer is used, or
closed with a warning when another one is in hand, or kept for the next turn of the loop.

The listener and the connections that the task holds (`Door`) are put beside the program of
`lifecycle` (`gated`). In every run of the two what has arrived is accepted in order, and what
is accepted is refused exactly when it is not of the peer; a connection that is neither refused
nor a duplicate is used, and the uses come in the order of the arrivals (`inbound_facts`). The
session has one connection in hand at most, and none besides the one that is kept. A connection of
the peer that waits is the next one to be used when the task gets to accept it, and the task does so
by itself (`inbound_used`).
-/

namespace Session

open Rib (Section)

/-! ### The door -/

/-- A connection that has arrived. -/
structure Inbound where
  peer : Ipv4Addr
  number : ℕ
  deriving DecidableEq

/-- What becomes of a connection that is accepted. -/
inductive Fate where
  | refused
  | duplicate
  | taken
  deriving DecidableEq

/-- A connection that is used. -/
inductive Origin where
  | inbound (c : Inbound)
  | outbound

/-- How `run` comes by a connection. -/
inductive Way where
  | queued
  | accepted
  | dialled
  deriving DecidableEq

/-- The listener of a session, and the connections that the task holds. -/
structure Door where
  config : Config
  listening : Bool
  /-- waiting to be accepted -/
  backlog : List Inbound
  queued : Option Inbound
  /-- in `connected` -/
  serving : Option Origin
  /-- all that have arrived -/
  arrived : List Inbound
  /-- all that have been accepted -/
  accepted : List (Inbound × Fate)
  /-- all that have been used -/
  used : List Origin

/-- No connection has arrived, and none is held. -/
def Door.new (config : Config) (listening : Bool) : Door :=
  ⟨config, listening, [], none, none, [], [], []⟩

/-- A connection goes into `connected`, and may come back at once. -/
def Door.serve (d : Door) (o : Origin) (kept : Bool) : Door :=
  { d with serving := if kept then some o else none, used := d.used ++ [o] }

/-- The first connection of the backlog is accepted. -/
def Door.accept (d : Door) (c : Inbound) (rest : List Inbound) (fate : Fate) : Door :=
  { d with backlog := rest, accepted := d.accepted ++ [(c, fate)] }

/-- A connection arrives, is accepted or refused, or comes to be used; the session begins or leaves
one. -/
inductive DoorEvent where
  | binds (config : Config) (bound : Bool)
  | arrives (c : Inbound)
  | refuses
  | duplicate
  | queues
  | serves (way : Way) (kept : Bool)
  | leaves

/-- What the listener of a session and the task do with the connections. -/
inductive DoorStep (d : Door) : DoorEvent → Door → Prop
  /-- `run`: the listener is there, or the passive side is disabled -/
  | binds {config : Config} {bound : Bool} : DoorStep d (.binds config bound) (.new config bound)
  | arrives {c : Inbound} : d.listening = true →
      DoorStep d (.arrives c) { d with backlog := d.backlog ++ [c], arrived := d.arrived ++ [c] }
  /-- `incoming`: another address -/
  | refuses {c : Inbound} {rest : List Inbound} : d.backlog = c :: rest →
      c.peer ≠ d.config.peerIp → DoorStep d .refuses (d.accept c rest .refused)
  | duplicate {c : Inbound} {rest : List Inbound} : d.backlog = c :: rest →
      c.peer = d.config.peerIp → DoorStep d .duplicate (d.accept c rest .duplicate)
  /-- `queued=Some(stream)` -/
  | queues {c : Inbound} {rest : List Inbound} : d.backlog = c :: rest →
      c.peer = d.config.peerIp →
      DoorStep d .queues { d.accept c rest .taken with queued := some c }
  /-- `queued.take()` -/
  | queued {c : Inbound} {kept : Bool} : d.queued = some c →
      DoorStep d (.serves .queued kept) { d.serve (.inbound c) kept with queued := none }
  | accepted {c : Inbound} {rest : List Inbound} {kept : Bool} : d.backlog = c :: rest →
      c.peer = d.config.peerIp →
      DoorStep d (.serves .accepted kept) ((d.accept c rest .taken).serve (.inbound c) kept)
  /-- `active` -/
  | dialled {kept : Bool} : DoorStep d (.serves .dialled kept) (d.serve .outbound kept)
  | leaves : DoorStep d .leaves { d with serving := none }

/-- The door by itself, without the program that decides when it moves. -/
def door : System Door DoorEvent where
  init := fun d => ∃ config, d = .new config false
  step := DoorStep

/-! ### Beside the program -/

/-- The warning about a duplicate. -/
def duplicateDropped (ts : String) : String :=
  Rib.eventText ts "session" "warning" "Duplicate passive connection dropped" []

/-- The task polls `incoming`. -/
def Task.Polls (t : Task) : Prop :=
  (t.place = .connecting false ∧ t.todo = []) ∨ (t.place = .waiting ∧ t.todo = []) ∨
    ∃ c, t.place = .session c ∧ t.Awaits

/-- The events that the door has a part in. -/
def Event.OfDoor : Event → Prop
  | .connect _ | .connectFails | .frameFails _ | .connectionFails | .retry _ | .stopped
  | .spawned => True
  | _ => False

/-- Which steps go together. -/
inductive AtDoor (w : World) : Option Event → Option DoorEvent → Prop
  | arrives {c : Inbound} : AtDoor w none (some (.arrives c))
  | refuses {t : Task} : w.session = some t → t.Polls → AtDoor w none (some .refuses)
  | duplicate {t : Task} {c : Conn} {ts : String} : w.session = some t → t.place = .session c →
      t.Awaits → AtDoor w (some (.free (.record (duplicateDropped ts)))) (some .duplicate)
  | connect {t : Task} {now : ℕ} {way : Way} : w.session = some t →
      t.place = .connecting (way = .queued) →
      AtDoor w (some (.connect now)) (some (.serves way true))
  | connectFails {t : Task} {way : Way} : w.session = some t →
      t.place = .connecting (way = .queued) →
      AtDoor w (some .connectFails) (some (.serves way false))
  | frameFails {a : Arrival} : AtDoor w (some (.frameFails a)) (some .leaves)
  | connectionFails : AtDoor w (some .connectionFails) (some .leaves)
  | queues : AtDoor w (some (.retry true)) (some .queues)
  /-- the delay is over -/
  | retry : AtDoor w (some (.retry false)) none
  | stoppedIdle {t : Task} : w.session = some t → (∀ c, t.place ≠ .session c) →
      AtDoor w (some .stopped) none
  | stoppedConnected {t : Task} {c : Conn} : w.session = some t → t.place = .session c →
      AtDoor w (some .stopped) (some .leaves)
  | spawned {config : Config} {bound : Bool} : w.request = some (.acting [] (some config)) →
      AtDoor w (some .spawned) (some (.binds config bound))
  /-- anything else is no matter of the door -/
  | apart {e : Event} : ¬ e.OfDoor → AtDoor w (some e) none

/-- **The program and its connections.** -/
def gated (digest : Bytes → Vector UInt8 20) :
    System (World × Door) (Option Event × Option DoorEvent) :=
  (lifecycle digest).product door fun w _ => AtDoor w

variable {digest : Bytes → Vector UInt8 20}

/-- A step of the program and a move of the door that go together. -/
theorem gated_step {w w' : World} {d d' : Door} {e : Option Event} {f : Option DoorEvent}
    (h : (gated digest).Reachable (w, d)) (hj : AtDoor w e f)
    (he : (lifecycle digest).Moves w e w') (hf : door.Moves d f d') :
    (gated digest).Reachable (w', d') :=
  System.Reachable.step (l := (e, f)) h ⟨hj, he, hf⟩

/-! ### What the task holds -/

/-- A connection is kept for the next turn. -/
def Place.keeps : Place → Bool
  | .loop queued | .connecting queued => queued
  | _ => false

/-- A connection is in `connected`. -/
def Place.serves : Place → Bool
  | .session _ => true
  | _ => false

/-- The task holds a connection that it has not used yet. -/
def World.keeps (w : World) : Bool := w.session.elim false fun t => t.place.keeps

/-- The task has a connection in `connected`. -/
def World.serves (w : World) : Bool := w.session.elim false fun t => t.place.serves

/-- A task in `connected` keeps none for later. -/
theorem Place.keeps_session (c : Conn) : (Place.session c).keeps = false := rfl

theorem Place.serves_session (c : Conn) : (Place.session c).serves = true := rfl

/-- What the world keeps is what its task keeps. -/
theorem World.keeps_of {w : World} {t : Task} (ht : w.session = some t) :
    w.keeps = t.place.keeps := by
  rw [World.keeps, ht, Option.elim_some]

/-- What the world serves is what its task serves. -/
theorem World.serves_of {w : World} {t : Task} (ht : w.session = some t) :
    w.serves = t.place.serves := by
  rw [World.serves, ht, Option.elim_some]

/-- The connections stay where they are. -/
structure Alike (w w' : World) : Prop where
  keeps : w'.keeps = w.keeps
  serves : w'.serves = w.serves
  config : ∀ t', w'.session = some t' → ∃ t, w.session = some t ∧ t.config = t'.config

/-- Worlds with one session are alike for the door. -/
theorem Alike.of_session {w w' : World} (h : w'.session = w.session) : Alike w w' :=
  ⟨by rw [World.keeps, h, World.keeps], by rw [World.serves, h, World.serves],
    fun t' ht' => ⟨t', h ▸ ht', rfl⟩⟩

/-- So are worlds whose tasks keep and serve alike. -/
theorem Alike.of_task {w w' : World} {t t' : Task} (ht : w.session = some t)
    (ht' : w'.session = some t') (hkeeps : t'.place.keeps = t.place.keeps)
    (hserves : t'.place.serves = t.place.serves) (hconfig : t'.config = t.config) :
    Alike w w' := by
  refine ⟨?_, ?_, fun u hu => ⟨t, ht, ?_⟩⟩
  · rw [World.keeps_of ht, World.keeps_of ht', hkeeps]
  · rw [World.serves_of ht, World.serves_of ht', hserves]
  · obtain rfl := Option.some.inj (ht'.symm.trans hu)
    exact hconfig.symm

/-- A task that has come to its end is at no other place. -/
theorem elim_of_ended {w : World}
    (hend : ∀ t, w.session = some t → t.place = .finished ∧ t.todo = []) {f : Place → Bool}
    (hf : f .finished = false) :
    (w.session.elim false fun t => f t.place) = false := by
  cases hs : w.session with
  | none => rw [Option.elim_none]
  | some t => rw [Option.elim_some, (hend t hs).1, hf]

/-- The task is joined when it has come to its end, and then holds nothing. -/
theorem Alike.of_joined {w w' : World}
    (hend : ∀ t, w.session = some t → t.place = .finished ∧ t.todo = [])
    (h' : w'.session = none) : Alike w w' := by
  refine ⟨?_, ?_, fun t' ht' => absurd (h'.symm.trans ht') nofun⟩
  · rw [World.keeps, h', Option.elim_none]
    exact (elim_of_ended hend (f := Place.keeps) rfl).symm
  · rw [World.serves, h', Option.elim_none]
    exact (elim_of_ended hend (f := Place.serves) rfl).symm

/-- A step that is no matter of the door leaves the connections where they are. -/
theorem alike_of_apart {w w' : World} {e : Event} (h : Step digest w e w') (he : ¬ e.OfDoor) :
    Alike w w' := by
  -- none of these steps gives the task a connection, or takes one from it
  cases h with
  | free | flushFails | flushed | released | requestAct => exact .of_session rfl
  | act ht | wrote ht => exact .of_task ht rfl rfl rfl rfl
  | turn ht _ hp =>
    refine .of_task ht rfl ?_ ?_ rfl
    · rw [hp]
      rfl
    · rw [hp]
      rfl
  | frame _ ht _ hp | keepalive _ ht _ hp =>
    refine .of_task ht rfl ?_ ?_ rfl
    · rw [hp]
      exact (Place.keeps_session _).trans (Place.keeps_session _).symm
    · rw [hp]
      exact (Place.serves_session _).trans (Place.serves_session _).symm
  | request =>
    -- a request may tell the task to stop, which does not move it yet
    cases hs : w.session with
    | none => exact .of_session (by dsimp only; rw [hs]; rfl)
    | some t =>
      exact @Alike.of_task _ _ t { t with stopSent := true } hs rfl rfl rfl rfl
  | joinedStop _ hend | joinedStart _ hend => exact .of_joined hend rfl
  | connect | connectFails | frameFails | connectionFails | retry | stoppedIdle
  | stoppedConnected | spawned => exact absurd trivial he

/-! ### What becomes of a connection -/

/-- The connections that have come in and have been used. -/
def Door.inbounds (d : Door) : List Inbound :=
  d.used.filterMap fun | .inbound c => some c | .outbound => none

/-- The connections that have been accepted and are neither refused nor duplicates. -/
def Door.takenIn (d : Door) : List Inbound :=
  (d.accepted.filter fun x => x.2 = .taken).map Prod.fst

/-- What holds of the door in every run. -/
structure InboundFacts (w : World) (d : Door) : Prop where
  /-- What arrives is accepted in order, -/
  order : d.arrived = d.accepted.map Prod.fst ++ d.backlog
  /-- it is refused exactly when it is not of the peer, -/
  refused : ∀ x ∈ d.accepted, x.2 = .refused ↔ x.1.peer ≠ d.config.peerIp
  /-- and what is taken is used, once and in order. -/
  used : d.takenIn = d.inbounds ++ d.queued.toList
  /-- A connection is kept for a turn of the loop that is to use it, -/
  queued : d.queued.isSome = w.keeps
  /-- and one is in hand in `connected` only. -/
  serving : d.serving.isSome = w.serves
  /-- Never are there two. -/
  single : ¬ (d.queued.isSome = true ∧ d.serving.isSome = true)
  config : ∀ t, w.session = some t → t.config = d.config

/-- A task does not keep and serve at once, wherever it is. -/
theorem Place.not_both (p : Place) : ¬ (p.keeps = true ∧ p.serves = true) := by
  cases p with
  | session c => exact fun h => absurd h.1 (by simp [Place.keeps])
  | _ => exact fun h => absurd h.2 (by simp [Place.serves])

theorem World.not_both (w : World) : ¬ (w.keeps = true ∧ w.serves = true) := by
  cases hs : w.session with
  | none => simp [World.keeps, hs]
  | some t =>
    rw [World.keeps_of hs, World.serves_of hs]
    exact t.place.not_both

/-- What a connection is accepted for. -/
def Accounted (d : Door) : Prop :=
  d.arrived = d.accepted.map Prod.fst ++ d.backlog ∧
    ∀ x ∈ d.accepted, x.2 = .refused ↔ x.1.peer ≠ d.config.peerIp

/-- A connection that is accepted is accounted for, when it is refused for its address only. -/
theorem Accounted.accept {d : Door} {c : Inbound} {rest : List Inbound} {fate : Fate}
    (h : Accounted d) (hb : d.backlog = c :: rest)
    (hfate : fate = .refused ↔ c.peer ≠ d.config.peerIp) : Accounted (d.accept c rest fate) := by
  obtain ⟨horder, hrefused⟩ := h
  refine ⟨?_, fun x hx => ?_⟩
  · rw [Door.accept, List.map_append, List.append_assoc]
    exact horder.trans (by rw [hb]; rfl)
  · rcases List.mem_append.mp hx with hx | hx
    · exact hrefused x hx
    · rw [List.mem_singleton.mp hx]
      exact hfate

/-- What is taken in is what is neither refused nor a duplicate. -/
theorem takenIn_accept (d : Door) (c : Inbound) (rest : List Inbound) (fate : Fate) :
    (d.accept c rest fate).takenIn = d.takenIn ++ if fate = .taken then [c] else [] := by
  unfold Door.accept Door.takenIn
  rw [List.filter_append, List.map_append]
  cases fate <;> rfl

/-- A connection that is used is one more that was. -/
theorem inbounds_serve (d : Door) (c : Inbound) (kept : Bool) :
    (d.serve (.inbound c) kept).inbounds = d.inbounds ++ [c] := by
  unfold Door.serve Door.inbounds
  rw [List.filterMap_append]
  rfl

/-- A connection that was dialled is none of those that arrived. -/
theorem inbounds_serve_outbound (d : Door) (kept : Bool) :
    (d.serve .outbound kept).inbounds = d.inbounds := by
  unfold Door.serve Door.inbounds
  rw [List.filterMap_append]
  exact List.append_nil _

/-- Where the connections are. -/
structure Held (w : World) (d : Door) : Prop where
  queued : d.queued.isSome = w.keeps
  serving : d.serving.isSome = w.serves
  config : ∀ t, w.session = some t → t.config = d.config

/-- What is held is a matter of the session only. -/
theorem Held.alike {w w' : World} {d : Door} (h : Held w d) (ha : Alike w w') : Held w' d := by
  refine ⟨h.queued.trans ha.keeps.symm, h.serving.trans ha.serves.symm, fun t' ht' => ?_⟩
  obtain ⟨t, ht, hconfig⟩ := ha.config t' ht'
  exact hconfig.symm.trans (h.config t ht)

theorem Held.of_task {w : World} {d : Door} {t : Task} (ht : w.session = some t)
    (hqueued : d.queued.isSome = t.place.keeps) (hserving : d.serving.isSome = t.place.serves)
    (hconfig : t.config = d.config) : Held w d := by
  refine ⟨hqueued.trans (World.keeps_of ht).symm, hserving.trans (World.serves_of ht).symm,
    fun u hu => ?_⟩
  rw [← Option.some.inj (ht.symm.trans hu)]
  exact hconfig

/-- A task that keeps no connection has none queued. -/
theorem Held.queued_none {w : World} {d : Door} (h : Held w d) {t : Task}
    (ht : w.session = some t) (hk : t.place.keeps = false) : d.queued = none := by
  rw [← Option.not_isSome_iff_eq_none, h.queued, World.keeps_of ht, hk]
  exact Bool.false_ne_true

/-- The facts are those about what was accepted, used and held. -/
theorem InboundFacts.of_parts {w : World} {d : Door} (ha : Accounted d)
    (hused : d.takenIn = d.inbounds ++ d.queued.toList) (hh : Held w d) : InboundFacts w d := by
  refine ⟨ha.1, ha.2, hused, hh.queued, hh.serving, fun hboth => ?_, hh.config⟩
  rw [hh.queued, hh.serving] at hboth
  exact w.not_both hboth

theorem InboundFacts.accounted {w : World} {d : Door} (h : InboundFacts w d) : Accounted d :=
  ⟨h.order, h.refused⟩

theorem InboundFacts.held {w : World} {d : Door} (h : InboundFacts w d) : Held w d :=
  ⟨h.queued, h.serving, h.config⟩

/-- A door that is new. -/
theorem InboundFacts.new {w : World} {config : Config} {listening : Bool}
    (hh : Held w (.new config listening)) : InboundFacts w (.new config listening) :=
  .of_parts ⟨rfl, fun _ hx => absurd hx List.not_mem_nil⟩ rfl hh

/-- A connection is accepted and closed again. -/
theorem InboundFacts.closes {w w' : World} {d : Door} {c : Inbound} {rest : List Inbound}
    {fate : Fate} (h : InboundFacts w d) (hb : d.backlog = c :: rest)
    (hfate : fate = .refused ↔ c.peer ≠ d.config.peerIp) (hne : fate ≠ .taken)
    (ha : Alike w w') : InboundFacts w' (d.accept c rest fate) := by
  have hh : Held w (d.accept c rest fate) := ⟨h.queued, h.serving, h.config⟩
  refine .of_parts (h.accounted.accept hb hfate) ?_ (hh.alike ha)
  rw [takenIn_accept, if_neg hne, List.append_nil]
  exact h.used

/-- A connection goes into `connected`, however it has come. -/
theorem InboundFacts.serves {w w' : World} {d d' : Door} {t t' : Task} {way : Way} {kept : Bool}
    (h : InboundFacts w d) (ht : w.session = some t) (hp : t.place = .connecting (way = .queued))
    (hs : DoorStep d (.serves way kept) d') (ht' : w'.session = some t')
    (hkeeps : t'.place.keeps = false) (hserves : t'.place.serves = kept)
    (hconfig : t'.config = t.config) : InboundFacts w' d' := by
  have hin : ∀ (d₁ : Door) (o : Origin), (d₁.serve o kept).serving.isSome = t'.place.serves := by
    intro d₁ o
    rw [hserves]
    cases kept <;> rfl
  have hconfig' := hconfig.trans (h.config t ht)
  cases hs with
  | @queued c _ hq =>
    -- it has been accepted before, and is the one that was still to be used
    refine .of_parts ⟨h.order, h.refused⟩ ?_ (.of_task ht' hkeeps.symm (hin d _) hconfig')
    have hused := h.used
    rw [hq] at hused
    exact hused.trans ((inbounds_serve d c kept).symm.trans (List.append_nil _).symm)
  | @accepted c rest _ hb hpeer =>
    -- none is kept where `incoming` is polled, so this one comes next
    have hnone := h.held.queued_none ht (by rw [hp]; rfl)
    refine .of_parts (h.accounted.accept hb (by simp [hpeer])) ?_
      (.of_task ht' (by rw [hkeeps]; exact congrArg Option.isSome hnone) (hin _ _) hconfig')
    change (d.accept c rest .taken).takenIn
      = ((d.accept c rest .taken).serve (.inbound c) kept).inbounds ++ d.queued.toList
    rw [inbounds_serve, takenIn_accept, if_pos rfl, h.used, hnone, Option.toList_none,
      List.append_nil, List.append_nil]
    rfl
  | dialled =>
    have hnone := h.held.queued_none ht (by rw [hp]; rfl)
    refine .of_parts ⟨h.order, h.refused⟩ ?_
      (.of_task ht' (by rw [hkeeps]; exact congrArg Option.isSome hnone) (hin _ _) hconfig')
    rw [inbounds_serve_outbound]
    exact h.used

/-- The task leaves the connection that it has in hand. -/
theorem InboundFacts.leaves {w w' : World} {d d' : Door} {t t' : Task} {c : Conn}
    (h : InboundFacts w d) (ht : w.session = some t) (hp : t.place = .session c)
    (hs : DoorStep d .leaves d') (ht' : w'.session = some t') (hkeeps : t'.place.keeps = false)
    (hserves : t'.place.serves = false) (hconfig : t'.config = t.config) :
    InboundFacts w' d' := by
  have hnone := h.held.queued_none ht (by rw [hp, Place.keeps_session])
  cases hs with
  | leaves =>
    exact .of_parts ⟨h.order, h.refused⟩ h.used
      (.of_task ht' (by rw [hkeeps]; exact congrArg Option.isSome hnone) hserves.symm
        (hconfig.trans (h.config t ht)))

/-- The task goes on without a connection that it had not. -/
theorem InboundFacts.goes {w w' : World} {d : Door} {t t' : Task} (h : InboundFacts w d)
    (ht : w.session = some t) (ht' : w'.session = some t')
    (hkeeps : t'.place.keeps = t.place.keeps) (hserves : t'.place.serves = t.place.serves)
    (hconfig : t'.config = t.config) : InboundFacts w' d :=
  .of_parts h.accounted h.used (h.held.alike (.of_task ht ht' hkeeps hserves hconfig))

/-- **Every step keeps the account.** -/
theorem InboundFacts.step {w w' : World} {d d' : Door} {e : Option Event}
    {f : Option DoorEvent} (h : InboundFacts w d) (hj : AtDoor w e f)
    (he : (lifecycle digest).Moves w e w') (hf : door.Moves d f d') : InboundFacts w' d' := by
  -- by joint step: one of the door, one of the world, or both
  cases hj with
  | @arrives c =>
    obtain rfl : w' = w := he
    cases hf with
    | arrives =>
      refine .of_parts ⟨?_, h.refused⟩ h.used ⟨h.queued, h.serving, h.config⟩
      exact (congrArg (· ++ [c]) h.order).trans (List.append_assoc _ _ _)
  | refuses =>
    obtain rfl : w' = w := he
    cases hf with
    | refuses hb hpeer => exact h.closes hb (by simp [hpeer]) nofun (.of_session rfl)
  | duplicate =>
    cases hf with
    | duplicate hb hpeer =>
      exact h.closes hb (by simp [hpeer]) nofun (alike_of_apart he id)
  | connect ht hp =>
    cases he with
    | connect _ o ht₀ _ _ =>
      obtain rfl := Option.some.inj (ht.symm.trans ht₀)
      exact h.serves ht hp hf rfl (Place.keeps_session _) (Place.serves_session _) rfl
  | connectFails ht hp =>
    -- `connected` gives up at once, so the connection is used and gone
    cases he with
    | connectFails ht₀ _ _ =>
      obtain rfl := Option.some.inj (ht.symm.trans ht₀)
      exact h.serves ht hp hf rfl rfl rfl rfl
  | frameFails =>
    cases he with
    | frameFails ht _ hp _ => exact h.leaves ht hp hf rfl rfl rfl rfl
  | connectionFails =>
    cases he with
    | connectionFails ht _ hp => exact h.leaves ht hp hf rfl rfl rfl rfl
  | queues =>
    cases he with
    | retry _ ht _ hp =>
      -- a task that retries has no connection waiting
      have hnone := h.held.queued_none ht (by rw [hp]; rfl)
      have hconfig := h.config _ ht
      have hserving : d.serving.isSome = false := by
        rw [h.serving, World.serves_of ht, hp]
        rfl
      cases hf with
      | @queues c rest hb hpeer =>
        refine .of_parts (h.accounted.accept hb (by simp [hpeer])) ?_
          (.of_task rfl rfl hserving hconfig)
        change (d.accept c rest .taken).takenIn = d.inbounds ++ [c]
        rw [takenIn_accept, if_pos rfl, h.used, hnone, Option.toList_none, List.append_nil]
  | retry =>
    -- without a connection in the backlog the task only waits again
    obtain rfl : d' = d := hf
    cases he with
    | retry _ ht _ hp => exact h.goes ht rfl (by rw [hp]; rfl) (by rw [hp]; rfl) rfl
  | stoppedIdle ht hp =>
    obtain rfl : d' = d := hf
    -- a stop is seen where no connection is kept, so none is lost
    cases he with
    | stoppedIdle ht₀ _ _ hplace =>
      rcases hplace with hplace | hplace
      · exact h.goes ht₀ rfl (by rw [hplace]; rfl) (by rw [hplace]; rfl) rfl
      · exact h.goes ht₀ rfl (by rw [hplace]; rfl) (by rw [hplace]; rfl) rfl
    | stoppedConnected ht₀ _ _ hplace =>
      obtain rfl := Option.some.inj (ht.symm.trans ht₀)
      exact absurd hplace (hp _)
  | stoppedConnected ht hp =>
    cases he with
    | stoppedIdle ht₀ _ _ hplace =>
      obtain rfl := Option.some.inj (ht.symm.trans ht₀)
      rw [hp] at hplace
      exact absurd hplace (by simp)
    | stoppedConnected ht₀ _ _ hplace => exact h.leaves ht₀ hplace hf rfl rfl rfl rfl
  | spawned hreq =>
    cases he with
    | spawned hreq₀ =>
      cases hf with
      | binds =>
        -- the door of the session before is gone with its listener
        rw [hreq] at hreq₀
        obtain ⟨-, hconfig⟩ := Stage.acting.inj (Option.some.inj hreq₀)
        exact .new (.of_task rfl rfl rfl (Option.some.inj hconfig).symm)
  | apart hapart =>
    obtain rfl : d' = d := hf
    exact .of_parts h.accounted h.used (h.held.alike (alike_of_apart he hapart))

/-- **What becomes of the connections**, in every run. -/
theorem inbound_facts {p : World × Door} (h : (gated digest).Reachable p) :
    InboundFacts p.1 p.2 := by
  refine System.Invariant.reachable (P := fun p => InboundFacts p.1 p.2) ⟨?_, ?_⟩ h
  · rintro ⟨w, d⟩ ⟨⟨output, hw⟩, ⟨config, hd⟩⟩
    obtain rfl : w = World.new output := hw
    obtain rfl : d = Door.new config false := hd
    exact .new ⟨rfl, rfl, fun t ht => absurd ht (Option.some_ne_none t).symm⟩
  · rintro p l p' hp ⟨hj, he, hf⟩
    exact hp.step hj he hf

/-! ### The next connection -/

/-- The steps of the task that wait neither for the peer nor for a timer. -/
def OwnStep : Option Event × Option DoorEvent → Prop
  | (some (.act _), none) | (some .turn, none) | (none, some .refuses)
  | (some (.retry true), some .queues) => True
  | (some (.connect _), some (.serves way true)) => way ≠ .dialled
  | _ => False

/-- The program and its connections, with these steps only. -/
def own (digest : Bytes → Vector UInt8 20) :
    System (World × Door) (Option Event × Option DoorEvent) :=
  (gated digest).restrict fun _ l => OwnStep l

/-- The task has not been told to stop, and is about to accept a connection. -/
def Task.Accepts (t : Task) : Prop :=
  t.stopSent = false ∧ (t.place = .connecting false ∨ t.place = .waiting)

/-- What is left to do is done. -/
theorem own_acts {w : World} {d : Door} (h : (lifecycle digest).Reachable w) {t : Task}
    (ht : w.session = some t) (htodo : .write ∉ t.todo) :
    ∃ ls w', (own digest).Run (w, d) ls (w', d) ∧ w'.session = some { t with todo := [] } := by
  obtain ⟨config, stopSent, place, todo⟩ := t
  -- act by act, each of which is a step of the world alone
  induction todo generalizing w with
  | nil => exact ⟨[], w, .nil, ht⟩
  | cons a todo ih =>
    obtain ⟨sh, hs, -⟩ := lifecycle_inv h
    obtain ⟨s, hdoes⟩ := Act.exists_does (List.ne_of_not_mem_cons htodo).symm
    obtain ⟨d', hrun, -⟩ := s.run_consistent (Rib.sections_consistent hs.reachable)
    have hact : Step digest w (.act s) _ := .act ht rfl hdoes hrun
    obtain ⟨ls, w', hr, ht'⟩ := ih (h.step hact) rfl (List.not_mem_of_not_mem_cons htodo)
    have hstep : (own digest).step (w, d) (some (.act s), none) (_, d) :=
      ⟨trivial, .apart id, hact, rfl⟩
    exact ⟨_, w', (System.Run.single hstep).append hr, ht'⟩

/-- The connections that are not of the peer are refused. -/
theorem own_refuses {w : World} {d : Door} {t : Task} (ht : w.session = some t) (hpolls : t.Polls)
    {others rest : List Inbound} (hb : d.backlog = others ++ rest)
    (hothers : ∀ x ∈ others, x.peer ≠ d.config.peerIp) :
    ∃ ls d', (own digest).Run (w, d) ls (w, d') ∧ d'.backlog = rest ∧ d'.config = d.config ∧
      d'.used = d.used ∧ d'.accepted = d.accepted ++ others.map (·, .refused) := by
  -- connection by connection, in the order of the backlog
  induction others generalizing d with
  | nil => exact ⟨[], d, .nil, hb, rfl, rfl, (List.append_nil _).symm⟩
  | cons x others ih =>
    obtain ⟨hx, hothers⟩ := List.forall_mem_cons.mp hothers
    have hstep : (own digest).step (w, d) (none, some .refuses) (w, d.accept x _ .refused) :=
      ⟨trivial, .refuses ht hpolls, rfl, .refuses hb hx⟩
    obtain ⟨ls, d', hr, hrest, hconfig, hused, haccepted⟩ :=
      ih (d := d.accept x _ .refused) rfl hothers
    refine ⟨_, d', (System.Run.single hstep).append hr, hrest, hconfig, hused, ?_⟩
    rw [haccepted, Door.accept, List.append_assoc]
    rfl

/-- The connection has come to be used: some have been accepted for it, and the rest waits. -/
structure Used (d d' : Door) (accepted : List (Inbound × Fate)) (c : Inbound)
    (rest : List Inbound) : Prop where
  serving : d'.serving = some (.inbound c)
  used : d'.used = d.used ++ [.inbound c]
  accepted : d'.accepted = d.accepted ++ accepted
  backlog : d'.backlog = rest

/-- The connection comes to be used, by steps of the task. -/
def Uses (digest : Bytes → Vector UInt8 20) (p : World × Door) (accepted : List (Inbound × Fate))
    (c : Inbound) (rest : List Inbound) : Prop :=
  ∃ ls p', (own digest).Run p ls p' ∧ Used p.2 p'.2 accepted c rest

/-- Steps of the task may be in front of it. -/
theorem Uses.after {p p₁ : World × Door} {ls : List (Option Event × Option DoorEvent)}
    {front accepted : List (Inbound × Fate)} {c : Inbound} {rest : List Inbound}
    (h : Uses digest p₁ accepted c rest) (hr : (own digest).Run p ls p₁)
    (hused : p₁.2.used = p.2.used) (haccepted : p₁.2.accepted = p.2.accepted ++ front) :
    Uses digest p (front ++ accepted) c rest := by
  obtain ⟨ls', p', hr', hserving, hused', haccepted', hrest⟩ := h
  refine ⟨ls ++ ls', p', hr.append hr', hserving, hused ▸ hused', ?_, hrest⟩
  rw [haccepted', haccepted, List.append_assoc]

/-- At the head of the loop a connection that is queued is used. -/
theorem uses_queued {w : World} {d : Door} (h : (lifecycle digest).Reachable w) {t : Task}
    (ht : w.session = some t) (htodo : t.todo = []) (hp : t.place = .loop true) {c : Inbound}
    (hq : d.queued = some c) : Uses digest (w, d) [] c d.backlog := by
  -- the session turns round, does what it has to, and takes the queued connection
  have hturn : Step digest w .turn _ := .turn ht htodo hp
  have hstep₁ : (own digest).step (w, d) (some .turn, none) (_, d) :=
    ⟨trivial, .apart id, hturn, rfl⟩
  obtain ⟨ls, w₂, hr₂, ht₂⟩ := own_acts (d := d) (h.step hturn) rfl (by simp)
  have hconnect : Step digest w₂ (.connect 0) _ :=
    .connect 0 ⟨fun _ => "", fun _ => 0, fun _ => "", true⟩ ht₂ rfl rfl
  have hstep₃ : (own digest).step (w₂, d) (some (.connect 0), some (.serves .queued true))
      (_, _) := ⟨nofun, .connect ht₂ rfl, hconnect, .queued hq⟩
  have hnil : d.accepted = d.accepted ++ [] := (List.append_nil _).symm
  have huses : Uses digest (w₂, d) [] c d.backlog := ⟨_, _, .single hstep₃, rfl, rfl, hnil, rfl⟩
  exact (huses.after hr₂ rfl hnil).after (.single hstep₁) rfl hnil

/-- **A connection of the peer is the next one to be used**, when those that have arrived before it
are not of the peer and the task is about to accept one; the task gets there by itself. The
others are refused. -/
theorem inbound_used {p : World × Door} (h : (gated digest).Reachable p) {t : Task}
    (ht : p.1.session = some t) (haccepts : t.Accepts) {others rest : List Inbound} {c : Inbound}
    (hb : p.2.backlog = others ++ c :: rest)
    (hothers : ∀ x ∈ others, x.peer ≠ p.2.config.peerIp) (hc : c.peer = p.2.config.peerIp) :
    Uses digest p (others.map (·, .refused) ++ [(c, .taken)]) c rest := by
  obtain ⟨w, d⟩ := p
  have hw : (lifecycle digest).Reachable w := by
    obtain ⟨p₀, ls, h₀, hr⟩ := h
    exact ⟨p₀.1, _, h₀.1, hr.left⟩
  have hnot : ∀ c, t.place ≠ .session c := by
    rintro c hc
    rcases haccepts.2 with hp | hp
    · exact absurd (hp.symm.trans hc) nofun
    · exact absurd (hp.symm.trans hc) nofun
  obtain ⟨ls₁, w₁, hr₁, ht₁⟩ := own_acts (d := d) hw ht ((lifecycle_ready hw).write ht hnot)
  have hw₁ : (lifecycle digest).Reachable w₁ := hw.run hr₁.of_restrict.left
  have hpolls : Task.Polls { t with todo := [] } :=
    haccepts.2.imp (⟨·, rfl⟩) fun hp => .inl ⟨hp, rfl⟩
  obtain ⟨ls₂, d₂, hr₂, hb₂, hconfig, hused, haccepted⟩ := own_refuses ht₁ hpolls hb hothers
  rw [← hconfig] at hc
  -- what the task has left to do and the refusals are behind it
  suffices huses : Uses digest (w₁, d₂) [(c, .taken)] c rest from
    @Uses.after _ (w, d) (w₁, d) ls₁ [] _ c rest (huses.after hr₂ hused haccepted) hr₁ rfl
      (List.append_nil _).symm
  rcases haccepts.2 with hp | hp
  · -- it is taken in hand at once
    have hconnect : Step digest w₁ (.connect 0) _ :=
      .connect 0 ⟨fun _ => "", fun _ => 0, fun _ => "", true⟩ ht₁ rfl hp
    have hstep : (own digest).step (w₁, d₂) (some (.connect 0), some (.serves .accepted true))
        (_, _) := ⟨nofun, .connect ht₁ hp, hconnect, .accepted hb₂ hc⟩
    exact ⟨_, _, .single hstep, rfl, rfl, rfl, rfl⟩
  · -- it is kept for the next turn, which comes at once
    have hretry : Step digest w₁ (.retry true) _ := .retry true ht₁ rfl hp
    have hstep : (own digest).step (w₁, d₂) (some (.retry true), some .queues) (_, _) :=
      ⟨trivial, .queues, hretry, .queues hb₂ hc⟩
    exact (uses_queued (hw₁.step hretry) rfl rfl rfl rfl).after (.single hstep) rfl rfl

/-- The caller of the sample session. -/
def samplePeer : Inbound := ⟨sampleConfig.peerIp, 1⟩

/-- A caller from elsewhere. -/
def sampleStranger : Inbound := ⟨⟨#v[198, 51, 100, 7]⟩, 0⟩

/-- The session waits for a connection, and two have arrived. -/
theorem exists_calling : ∃ p : World × Door, (gated sampleDigest).Reachable p ∧
    p.1.session = some ⟨sampleConfig, false, .connecting false, [.setState .connect]⟩ ∧
    p.2.config = sampleConfig ∧ p.2.backlog = [sampleStranger, samplePeer] ∧
    p.2.accepted = [] := by
  have h₀ : (gated sampleDigest).Reachable (World.new none, .new sampleConfig false) :=
    .init ⟨⟨none, rfl⟩, ⟨sampleConfig, rfl⟩⟩
  -- a start is requested, carried out, and its session listens
  have h₁ := gated_step h₀ (e := some (.request (.start sampleConfig))) (.apart id)
    (.request _ rfl fun config hc => Request.start.inj hc ▸ sampleConfig_valid) rfl
  have h₂ := gated_step h₁ (e := some .joined) (.apart id)
    (.joinedStart rfl fun t ht => absurd ht nofun) rfl
  have h₃ := gated_step h₂ (e := some .flushed) (.apart id) (.flushed rfl) rfl
  have h₄ := gated_step h₃ (e := some (.requestAct (.start sampleConfig 0))) (.apart id)
    (.requestAct rfl (.start sampleConfig 0) rfl) rfl
  have h₅ := gated_step h₄ (e := some .spawned) (f := some (.binds sampleConfig true))
    (.spawned rfl) (.spawned rfl) .binds
  -- a stranger calls first, and the peer behind it
  have h₆ := gated_step h₅ (e := none) (f := some (.arrives sampleStranger)) .arrives rfl
    (.arrives rfl)
  have h₇ := gated_step h₆ (e := none) (f := some (.arrives samplePeer)) .arrives rfl (.arrives rfl)
  have h₈ := gated_step h₇ (e := some .turn) (.apart id) (.turn rfl rfl rfl) rfl
  exact ⟨_, h₈, rfl, rfl, rfl, rfl⟩

/-- The stranger has been refused, and the connection of the peer is in hand. -/
theorem exists_serving : ∃ p, (gated sampleDigest).Reachable p ∧
    p.2.accepted = [(sampleStranger, .refused), (samplePeer, .taken)] ∧
    p.2.serving = some (.inbound samplePeer) := by
  obtain ⟨⟨w, d⟩, h, ht, hconfig, hb, haccepted⟩ := exists_calling
  have hw : (lifecycle sampleDigest).Reachable w := by
    obtain ⟨p₀, ls, h₀, hr⟩ := h
    exact ⟨p₀.1, _, h₀.1, hr.left⟩
  obtain ⟨ls, w₁, hr, ht₁⟩ := own_acts (d := d) hw ht (by simp)
  have h₁ := h.run hr.of_restrict
  have hstranger : sampleStranger.peer ≠ d.config.peerIp := by
    rw [hconfig]
    decide
  have hpeer : samplePeer.peer = d.config.peerIp := by
    rw [hconfig]
    rfl
  -- the stranger is refused, and the peer is served
  have h₂ := gated_step h₁ (e := none) (f := some .refuses) (.refuses ht₁ (.inl ⟨rfl, rfl⟩)) rfl
    (.refuses hb hstranger)
  have h₃ := gated_step h₂ (e := some (.connect 0)) (f := some (.serves .accepted true))
    (.connect ht₁ rfl) (.connect 0 sampleOutside ht₁ rfl rfl) (.accepted rfl hpeer)
  refine ⟨_, h₃, ?_, rfl⟩
  change (d.accepted ++ [(sampleStranger, .refused)]) ++ [(samplePeer, .taken)] = _
  rw [haccepted]
  rfl

/-- The account of a session that two have called. -/
theorem inbound_facts_arrived : ∃ p : World × Door,
    p.2.accepted = [(sampleStranger, .refused), (samplePeer, .taken)] ∧
      p.2.serving = some (.inbound samplePeer) ∧ InboundFacts p.1 p.2 := by
  obtain ⟨p, h, haccepted, hserving⟩ := exists_serving
  exact ⟨p, haccepted, hserving, inbound_facts h⟩

/-- The stranger is refused, and the peer is used. -/
theorem inbound_used_arrived : ∃ p, (gated sampleDigest).Reachable p ∧
    Uses sampleDigest p [(sampleStranger, .refused), (samplePeer, .taken)] samplePeer [] := by
  obtain ⟨p, h, ht, hconfig, hb, -⟩ := exists_calling
  refine ⟨p, h, ?_⟩
  refine @inbound_used sampleDigest p h _ ht ⟨rfl, .inl rfl⟩ [sampleStranger] [] samplePeer hb ?_ ?_
  · intro x hx
    rw [List.mem_singleton.mp hx, hconfig]
    decide
  · rw [hconfig]
    rfl

end Session
