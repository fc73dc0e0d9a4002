import BgpReceiver.Rib.Cancellation
import BgpReceiver.Session.Connected

/-!
# The life of a session

`App::start`, `App::stop`, `session::run` and `connected` as one transition system. A
request holds the control lock until it is done (`Stage`), and the session task runs
beside it (`Task`, `Place`). What a task does between two decisions is a list of acts,
each a critical section or a wait for the connection (`Act`).

Critical sections that write neither to the routes nor to the state, the running flag or
the peer info are free: any task may take one at any moment (`Rib.Section.Free`). The
records of `emit`, the intern pool, the end of a flush, the history and the capture flag
are of that kind.

A `Shape` is what the rest relies on: the label of the state, whether the session is
running, and whether a connection is in hand. Every place has its shape, and the acts
that are left lead from the shape of the data to that of the place (`Leads`). Rows are
there only in the shape of an established session on a connection, and only rows of that
connection (`Shaped`), which gives `lifecycle_facts`.

The connection in hand is that of the current turn of the loop of `run`, until `run` has
cleaned up behind it. Every connection has a number of its own, and the rows that are
announced on it are recorded with that number.
-/

namespace Rib

/-- The sections that leave routes, state, running flag and peer info alone. -/
def Section.Free : Section → Prop
  | .record _ | .reclaimMemory _ | .internShared _ | .internLabel _ | .flushed | .clearHistory
  | .capturing _ => True
  | _ => False

end Rib

namespace Session

open Rib (Data Section SessionState RouteOp Route)

/-! ### Acts -/

/-- What a task does in one go. -/
inductive Act where
  /-- `set_state` -/
  | setState (state : SessionState)
  /-- `data.peer_info = info` -/
  | peerInfo (info : Json)
  /-- the section of a route -/
  | route (op : RouteOp)
  /-- the wait for a `write_all` -/
  | write
  /-- the section behind a connection -/
  | disconnected
  /-- the section at the end of `run` -/
  | runEnded
  /-- the section of `App::stop` -/
  | stop
  /-- the section of `App::start` -/
  | start (config : Config)

/-- The sections that an act can be. -/
inductive Act.Does : Act → Section → Prop
  | setState (state : SessionState) : Does (.setState state) (.setState state)
  | peerInfo (info : Json) : Does (.peerInfo info) (.peerInfo info)
  | route (op : RouteOp) (instant : ℕ) : Does (.route op) (.route op instant)
  | disconnected (instant : ℕ) : Does .disconnected (.disconnected instant)
  | runEnded (instant : ℕ) : Does .runEnded (.runEnded instant)
  | stop (instant : ℕ) : Does .stop (.stop instant)
  | start (config : Config) (instant : ℕ) : Does (.start config) (.start config instant)

/-- The acts of an effect of `connected`; the routes of an update are taken through the
store in order. -/
def Effect.acts (digest : Bytes → Vector UInt8 20) (o : Rib.Outside) : Effect → List Act
  | .setState state => [.setState state]
  | .write _ => [.write]
  | .peerInfo info => [.peerInfo info]
  | .emit _ _ _ _ => []
  | .applyUpdate u peer => (Rib.opsFrom digest o u peer 0 (Rib.updateSteps u)).map .route

/-! ### Tasks and requests -/

/-- Where the session task is, once its acts are done. -/
inductive Place where
  /-- at the head of the loop of `run`; an inbound connection may be queued -/
  | loop (queued : Bool)
  /-- waiting for a connection, or with the queued one -/
  | connecting (queued : Bool)
  /-- in `connected`, waiting for a frame -/
  | session (c : Conn)
  /-- behind a connection, waiting for the next turn -/
  | waiting
  /-- behind the loop -/
  | finished

/-- The session task. -/
structure Task where
  config : Config
  stopSent : Bool
  place : Place
  todo : List Act

/-- The task waits, for a frame or for a write. -/
def Task.Awaits (t : Task) : Prop := t.todo = [] ∨ ∃ rest, t.todo = .write :: rest

/-- The two requests that change the session. -/
inductive Request where
  | start (config : Config)
  | stop

/-- How far the request is that holds the control lock. -/
inductive Stage where
  /-- `stop_task`: waiting for the session task -/
  | joining (r : Request)
  /-- `start`: flushing behind the old session -/
  | flushing (config : Config)
  /-- what is left to do, and the session to spawn then -/
  | acting (todo : List Act) (spawn : Option Config)

/-- The data and the session task, the request that holds the control lock, and what has been on the
connections so far. -/
structure World where
  data : Data
  /-- `control.session` -/
  session : Option Task
  /-- the holder of the control lock -/
  request : Option Stage
  /-- the connection in hand -/
  connection : Option ℕ
  /-- how many connections there were -/
  opened : ℕ
  /-- the rows that were announced, with their connections -/
  announced : List (ℕ × Route)
  /-- the values that `data.state` has had -/
  written : List SessionState

/-- What a section writes to `data.state`. -/
def writtenBy : Section → List SessionState
  | .setState state => [state]
  | .runEnded _ | .stop _ => [.idle]
  | _ => []

/-- The rows that a section announces. -/
def announcedBy : Section → List Route
  | .route op _ => match op.kind with | .announce => [op.entry] | .withdraw => []
  | _ => []

/-- The world behind a section. -/
def World.after (w : World) (s : Section) (d : Data) : World :=
  { w with
    data := d
    connection := match s with | .disconnected _ => none | _ => w.connection
    announced := w.announced ++
      w.connection.toList.flatMap fun n => (announcedBy s).map fun r => (n, r)
    written := w.written ++ writtenBy s }

/-- A section that writes no state adds no value. -/
theorem World.after_written {w : World} {s : Section} {d : Data} (h : writtenBy s = []) :
    (w.after s d).written = w.written := by
  show w.written ++ writtenBy s = w.written
  rw [h, List.append_nil]

/-- The world with a connection in hand. -/
def World.connect (w : World) : World :=
  { w with connection := some w.opened, opened := w.opened + 1 }

/-! ### Steps -/

/-- A section of a handler, a step of the session task, or one of the request. -/
inductive Event where
  | free (s : Section)
  | act (s : Section)
  | wrote
  | turn
  | connect (now : ℕ)
  | connectFails
  | frame (a : Arrival)
  | frameFails (a : Arrival)
  | keepalive (now : ℕ)
  | connectionFails
  | retry (queued : Bool)
  | stopped
  | request (r : Request)
  | joined
  | flushFails
  | flushed
  | requestAct (s : Section)
  | spawned
  | released

/-- What follows a connection: the rows go before the state does. -/
def afterConnection : List Act := [.disconnected, .setState .idle]

/-- One step. -/
inductive Step (digest : Bytes → Vector UInt8 20) : World → Event → World → Prop
  /-- a critical section of whatever task -/
  | free {w : World} {s : Section} {d : Data} : s.Free → s.run w.data = some d →
      Step digest w (.free s) { w with data := d }
  /-- the next act of the session task -/
  | act {w : World} {t : Task} {a : Act} {rest : List Act} {s : Section} {d : Data} :
      w.session = some t → t.todo = a :: rest → a.Does s → s.run w.data = some d →
      Step digest w (.act s) { w.after s d with session := some { t with todo := rest } }
  | wrote {w : World} {t : Task} {rest : List Act} :
      w.session = some t → t.todo = .write :: rest →
      Step digest w .wrote { w with session := some { t with todo := rest } }
  /-- `run`: the loop is entered again -/
  | turn {w : World} {t : Task} {queued : Bool} :
      w.session = some t → t.todo = [] → t.place = .loop queued →
      Step digest w .turn { w with
        session := some { t with place := .connecting queued, todo := [.setState .connect] } }
  /-- `run`: a connection, inbound or outbound -/
  | connect {w : World} {t : Task} {queued : Bool} (now : ℕ) (o : Rib.Outside) :
      w.session = some t → t.todo = [] → t.place = .connecting queued →
      Step digest w (.connect now) { w.connect with
        session := some { t with
          place := .session (Conn.start t.config now)
          todo := (startEffects t.config).flatMap (Effect.acts digest o) } }
  /-- `connected`: `set_nodelay` fails -/
  | connectFails {w : World} {t : Task} {queued : Bool} :
      w.session = some t → t.todo = [] → t.place = .connecting queued →
      Step digest w .connectFails { w.connect with
        session := some { t with place := .waiting, todo := afterConnection } }
  /-- `connected`: a frame is taken -/
  | frame {w : World} {t : Task} {c c' : Conn} {a : Arrival} {out : List Effect} (o : Rib.Outside) :
      w.session = some t → t.todo = [] → t.place = .session c →
      onFrame t.config c a = .ok (c', out) →
      Step digest w (.frame a) { w with
        session := some { t with
          place := .session c', todo := out.flatMap (Effect.acts digest o) } }
  /-- `connected`: a frame ends the session -/
  | frameFails {w : World} {t : Task} {c : Conn} {a : Arrival} {e : String} :
      w.session = some t → t.todo = [] → t.place = .session c → onFrame t.config c a = .error e →
      Step digest w (.frameFails a) { w with
        session := some { t with place := .waiting, todo := afterConnection } }
  /-- `connected`: a KEEPALIVE is due -/
  | keepalive {w : World} {t : Task} {c : Conn} (now : ℕ) :
      w.session = some t → t.todo = [] → t.place = .session c → c.receivedOpen = true → 0 < c.hold →
      Step digest w (.keepalive now) { w with
        session := some { t with
          place := .session { c with nextKeepalive := now + fromSecs (keepalivePeriod c.hold) }
          todo := [.write] } }
  /-- `connected`: the hold timer expires, or reading or writing fails -/
  | connectionFails {w : World} {t : Task} {c : Conn} :
      w.session = some t → t.Awaits → t.place = .session c →
      Step digest w .connectionFails { w with
        session := some { t with place := .waiting, todo := afterConnection } }
  /-- `run`: the delay is over, or an inbound connection is there -/
  | retry {w : World} {t : Task} (queued : Bool) :
      w.session = some t → t.todo = [] → t.place = .waiting →
      Step digest w (.retry queued) { w with session := some { t with place := .loop queued } }
  /-- `run`: stopped while no connection is in hand -/
  | stoppedIdle {w : World} {t : Task} :
      w.session = some t → t.todo = [] → t.stopSent = true →
      t.place = .connecting false ∨ t.place = .waiting →
      Step digest w .stopped { w with
        session := some { t with place := .finished, todo := [.runEnded] } }
  /-- `run`: stopped while in `connected` -/
  | stoppedConnected {w : World} {t : Task} {c : Conn} :
      w.session = some t → t.Awaits → t.stopSent = true → t.place = .session c →
      Step digest w .stopped { w with
        session := some { t with place := .finished, todo := afterConnection ++ [.runEnded] } }
  /-- a request takes the control lock and tells the session to stop -/
  | request {w : World} (r : Request) :
      w.request = none → (∀ config, r = .start config → config.validate = .ok ()) →
      Step digest w (.request r) { w with
        request := some (.joining r)
        session := w.session.map fun t => { t with stopSent := true } }
  /-- the session has ended -/
  | joinedStop {w : World} :
      w.request = some (.joining .stop) →
      (∀ t, w.session = some t → t.place = .finished ∧ t.todo = []) →
      Step digest w .joined { w with session := none, request := some (.acting [.stop] none) }
  | joinedStart {w : World} {config : Config} :
      w.request = some (.joining (.start config)) →
      (∀ t, w.session = some t → t.place = .finished ∧ t.todo = []) →
      Step digest w .joined { w with session := none, request := some (.flushing config) }
  | flushFails {w : World} {config : Config} :
      w.request = some (.flushing config) → Step digest w .flushFails { w with request := none }
  | flushed {w : World} {config : Config} :
      w.request = some (.flushing config) →
      Step digest w .flushed { w with request := some (.acting [.start config] (some config)) }
  /-- the next act of the request -/
  | requestAct {w : World} {a : Act} {rest : List Act} {spawn : Option Config} {s : Section}
      {d : Data} :
      w.request = some (.acting (a :: rest) spawn) → a.Does s → s.run w.data = some d →
      Step digest w (.requestAct s) { w.after s d with request := some (.acting rest spawn) }
  | spawned {w : World} {config : Config} :
      w.request = some (.acting [] (some config)) →
      Step digest w .spawned
        { w with session := some ⟨config, false, .loop false, []⟩, request := none }
  | released {w : World} :
      w.request = some (.acting [] none) → Step digest w .released { w with request := none }

/-- The world behind `App::new`. -/
def World.new (output : Option String) : World :=
  ⟨Data.new output, none, none, none, 0, [], [.idle]⟩

/-- **The program.** -/
def lifecycle (digest : Bytes → Vector UInt8 20) : System World Event where
  init := fun w => ∃ output, w = World.new output
  step := Step digest

/-! ### Shapes -/

/-- The order in which the values of `data.state` follow each other. -/
def Follows : SessionState → SessionState → Prop
  | .idle, .connect | .connect, .openSent | .openSent, .openConfirmed
  | .openConfirmed, .established | _, .idle => True
  | _, _ => False

/-- The states of a session that has sent its OPEN. -/
def Live (state : SessionState) : Prop :=
  state = .openSent ∨ state = .openConfirmed ∨ state = .established

/-- What the rest of the program relies on. -/
structure Shape where
  label : SessionState
  running : Bool
  inHand : Bool

/-- The shape behind an act. -/
def Shape.next (sh : Shape) : Act → Shape
  | .setState state => { sh with label := state }
  | .peerInfo _ | .route _ | .write => sh
  | .disconnected => { sh with inHand := false }
  | .runEnded | .stop => ⟨.idle, false, sh.inHand⟩
  | .start _ => { sh with running := true }

/-- What an act asks of the shape. A state that is left on a connection has no rows, and
the peer info stays with the states that may have it. -/
def Shape.Allows (sh : Shape) : Act → Prop
  | .setState state => Follows sh.label state ∧
      (sh.inHand = true → Live state ∧ sh.label ≠ .established)
  | .peerInfo _ => sh.inHand = true ∧ Live sh.label
  | .route _ => sh = ⟨.established, true, true⟩
  | .write | .disconnected => True
  | .runEnded | .stop | .start _ => sh.inHand = false

/-- The acts lead from one shape to another. -/
def Leads : Shape → List Act → Shape → Prop
  | sh, [], sh' => sh = sh'
  | sh, a :: acts, sh' => sh.Allows a ∧ Leads (sh.next a) acts sh'

/-- Acts behind others lead on from where these have led. -/
theorem Leads.append {sh sh' sh'' : Shape} {acts acts' : List Act} (h : Leads sh acts sh')
    (h' : Leads sh' acts' sh'') : Leads sh (acts ++ acts') sh'' := by
  induction acts generalizing sh with
  | nil =>
    rw [show sh = sh' from h]
    exact h'
  | cons a acts ih => exact ⟨h.1, ih h.2⟩

/-- The acts of a session on its connection. -/
def Act.Inner : Act → Prop
  | .setState _ | .peerInfo _ | .route _ | .write => True
  | _ => False

/-- They leave the running flag and the connection alone. -/
theorem Leads.inner {sh sh' : Shape} {acts : List Act} (h : Leads sh acts sh')
    (hinner : ∀ a ∈ acts, a.Inner) : sh'.running = sh.running ∧ sh'.inHand = sh.inHand := by
  -- act by act: inner work keeps the session running and in hand
  induction acts generalizing sh with
  | nil =>
    rw [show sh = sh' from h]
    exact ⟨rfl, rfl⟩
  | cons a acts ih =>
    obtain ⟨hr, hc⟩ := ih h.2 fun b hb => hinner b (List.mem_cons_of_mem _ hb)
    have ha := hinner a List.mem_cons_self
    rw [hr, hc]
    cases a with
    | setState | peerInfo | route | write => exact ⟨rfl, rfl⟩
    | disconnected | runEnded | stop | start => exact absurd ha (by simp [Act.Inner])

/-- The label of a session on its connection. -/
def Conn.label (c : Conn) : SessionState :=
  match c.receivedOpen, c.established with
  | false, _ => .openSent
  | true, false => .openConfirmed
  | true, true => .established

/-- The shape of a place. -/
def Place.shape : Place → Shape
  | .loop _ | .waiting => ⟨.idle, true, false⟩
  | .connecting _ => ⟨.connect, true, false⟩
  | .session c => ⟨c.label, true, true⟩
  | .finished => ⟨.idle, false, false⟩

/-! ### The acts of a session -/

/-- The acts of routes belong to a connection. -/
theorem route_acts_inner {ops : List RouteOp} : ∀ a ∈ ops.map Act.route, a.Inner := by
  intro a ha
  obtain ⟨op, -, rfl⟩ := List.mem_map.mp ha
  trivial

/-- So do the acts of whatever `connected` does. -/
theorem acts_inner (digest : Bytes → Vector UInt8 20) (o : Rib.Outside) (out : List Effect) :
    ∀ a ∈ out.flatMap (Effect.acts digest o), a.Inner := by
  intro a ha
  obtain ⟨e, -, ha⟩ := List.mem_flatMap.mp ha
  cases e with
  | applyUpdate u peer => exact route_acts_inner a ha
  | emit => exact absurd ha (by simp [Effect.acts])
  | setState | write | peerInfo =>
    rw [List.mem_singleton.mp ha]
    trivial

/-- Routes are taken in the shape of an established session. -/
theorem leads_routes (ops : List RouteOp) :
    Leads ⟨.established, true, true⟩ (ops.map Act.route) ⟨.established, true, true⟩ := by
  induction ops with
  | nil => rfl
  | cons op ops ih => exact ⟨rfl, ih⟩

/-- An established session has received its OPEN. -/
def Conn.Sound (c : Conn) : Prop := c.established = true → c.receivedOpen = true

/-- What the OPEN does leads to the confirmed state. -/
theorem leads_open (info : Json) (octets : Bytes) (digest : Bytes → Vector UInt8 20)
    (o : Rib.Outside) :
    Leads ⟨.openSent, true, true⟩
      ([.peerInfo info, .emit "session" "info" "Received OPEN" [("peer_info", info)],
        .write octets, .setState .openConfirmed].flatMap (Effect.acts digest o))
      ⟨.openConfirmed, true, true⟩ :=
  ⟨⟨rfl, Or.inl rfl⟩, trivial, ⟨trivial, fun _ => ⟨Or.inr (Or.inl rfl), by simp [Shape.next]⟩⟩, rfl⟩

/-- The deadline of a connection does not matter for it. -/
theorem Conn.Sound.deadline {c : Conn} (h : c.Sound) (deadline : ℕ) :
    Conn.Sound { c with deadline := deadline } := h

/-- The KEEPALIVE timer does not matter for the shape. -/
theorem Place.shape_nextKeepalive (c : Conn) (next : ℕ) :
    (Place.session { c with nextKeepalive := next }).shape = (Place.session c).shape := rfl

/-- **What a frame does leads from the shape before it to the one behind it.** -/
theorem onFrame_leads {config : Config} {c c' : Conn} {a : Arrival} {out : List Effect}
    (h : onFrame config c a = .ok (c', out)) (hs : c.Sound) (digest : Bytes → Vector UInt8 20)
    (o : Rib.Outside) :
    c'.Sound ∧ Leads (Place.session c).shape (out.flatMap (Effect.acts digest o))
      (Place.session c').shape := by
  obtain ⟨c₁, deadline, hd, rfl⟩ := onFrame_ok h
  -- the deadline is no part of the shape
  suffices hgoal : c₁.Sound ∧ Leads (Place.session c).shape (out.flatMap (Effect.acts digest o))
      (Place.session c₁).shape from ⟨hgoal.1.deadline deadline, hgoal.2⟩
  unfold dispatch at hd
  split_ifs at hd with hopen hkeep hest hup hnote
  · -- the first OPEN
    have hest : c.established = false := by
      by_contra hne
      exact absurd (hs (by simpa using hne)) (by simp [hopen.2])
    obtain ⟨info, -, -, -, -, hr, he, rfl⟩ := onOpen_ok hd
    refine ⟨fun _ => hr, ?_⟩
    have hfrom : (Place.session c).shape = ⟨.openSent, true, true⟩ := by
      simp [Place.shape, Conn.label, hopen.2]
    have hto : (Place.session c₁).shape = ⟨.openConfirmed, true, true⟩ := by
      simp [Place.shape, Conn.label, hr, he, hest]
    rw [hfrom, hto]
    exact leads_open info _ digest o
  · -- a KEEPALIVE of an established session
    obtain ⟨rfl, rfl⟩ := Prod.mk.inj (Except.ok.inj hd)
    exact ⟨hs, rfl⟩
  · -- the first KEEPALIVE
    obtain ⟨rfl, rfl⟩ := Prod.mk.inj (Except.ok.inj hd)
    refine ⟨fun _ => hkeep.2.1, ?_⟩
    have hfrom : (Place.session c).shape = ⟨.openConfirmed, true, true⟩ := by
      have hfalse : c.established = false := by simpa using hest
      simp [Place.shape, Conn.label, hkeep.2.1, hfalse]
    rw [hfrom]
    refine ⟨⟨trivial, fun _ => ⟨Or.inr (Or.inr rfl), by simp⟩⟩, ?_⟩
    simp [Leads, Shape.next, Place.shape, Conn.label, hkeep.2.1]
  · -- an UPDATE
    simp only [Reader.bind_eq_ok_iff] at hd
    obtain ⟨u, -, hd⟩ := hd
    obtain ⟨rfl, rfl⟩ := Prod.mk.inj (Except.ok.inj hd)
    refine ⟨hs, ?_⟩
    have hfrom : (Place.session c).shape = ⟨.established, true, true⟩ := by
      simp [Place.shape, Conn.label, hs hup.2, hup.2]
    rw [hfrom, List.flatMap_singleton]
    exact leads_routes _

/-- The acts in front of the first frame lead to the shape of a connection that has been opened. -/
theorem leads_start (config : Config) (now : ℕ) (digest : Bytes → Vector UInt8 20)
    (o : Rib.Outside) :
    Leads ⟨.connect, true, true⟩ ((startEffects config).flatMap (Effect.acts digest o))
      (Place.session (Conn.start config now)).shape :=
  ⟨⟨trivial, fun _ => ⟨Or.inl rfl, by decide⟩⟩, trivial, rfl⟩

/-- What follows a connection leads back to the idle state, from every label. -/
theorem leads_afterConnection (label : SessionState) (inHand : Bool) :
    Leads ⟨label, true, inHand⟩ afterConnection ⟨.idle, true, false⟩ := by
  refine ⟨trivial, ⟨?_, fun h => absurd h (by simp [Shape.next])⟩, rfl⟩
  cases label <;> trivial

/-! ### What holds of the world -/

/-- The data has a shape. Rows are there on a connection only, and are rows of it; what is
written to the state keeps its order. -/
structure Shaped (w : World) (sh : Shape) : Prop where
  reachable : Rib.sections.Reachable w.data
  label : w.data.state = sh.label
  running : w.data.running = sh.running
  inHand : w.connection.isSome = sh.inHand
  peerInfo : w.data.peerInfo ≠ .object [] → sh.inHand = true ∧ Live sh.label
  rows : ∀ s r, w.data.routes.find s = some r → sh = ⟨.established, true, true⟩ ∧
    ∃ n, w.connection = some n ∧ (n, r) ∈ w.announced
  last : w.written.getLast? = some sh.label
  order : w.written.IsChain Follows

theorem follows_idle (state : SessionState) : Follows state .idle := by
  cases state <;> trivial

/-- One more value is written. -/
theorem chain_append {written : List SessionState} {a b : SessionState}
    (h : written.IsChain Follows) (hl : written.getLast? = some a) (hab : Follows a b) :
    (written ++ [b]).IsChain Follows := by
  refine List.isChain_append.mpr ⟨h, List.isChain_singleton _, fun x hx y hy => ?_⟩
  rw [hl] at hx
  rw [Option.mem_some_iff.mp hx] at hab
  rwa [Option.mem_some_iff.mp hy] at hab

/-- **What an act does to the shape.** -/
theorem Shaped.does {w : World} {sh : Shape} (h : Shaped w sh) {a : Act} (hall : sh.Allows a)
    {s : Section} (ha : a.Does s) {d : Data} (hr : s.run w.data = some d) :
    Shaped (w.after s d) (sh.next a) := by
  have hreach : Rib.sections.Reachable d := h.reachable.step hr
  -- a store that has been cleared has no rows
  have hnone : ∀ {d : Data}, d.routes = .empty → ∀ s r, d.routes.find s ≠ some r := by
    intro d he s r hf
    rw [he, OrdMap.find_empty] at hf
    exact absurd hf (by simp)
  -- by act: each writes the fields of its own section, and keeps the clauses about the others
  cases ha with
  | setState state =>
    obtain rfl := Option.some.inj hr
    obtain ⟨hfollows, hkeep⟩ := hall
    refine ⟨hreach, rfl, h.running, h.inHand, fun hp => ?_, fun s r hrow => ?_, ?_, ?_⟩
    · have hin := (h.peerInfo hp).1
      exact ⟨hin, (hkeep hin).1⟩
    · -- an established session does not change its state on a connection
      have hsh := (h.rows s r hrow).1
      rw [hsh] at hkeep
      exact absurd rfl (hkeep rfl).2
    · exact List.getLast?_concat
    · exact chain_append h.order h.last hfollows
  | peerInfo info =>
    obtain rfl := Option.some.inj hr
    refine ⟨hreach, h.label, h.running, h.inHand, fun _ => hall, fun s r hrow => ?_, ?_, ?_⟩
    · obtain ⟨hsh, n, hn, hm⟩ := h.rows s r hrow
      exact ⟨hsh, n, hn, List.mem_append_left _ hm⟩
    · rw [World.after_written rfl]
      exact h.last
    · rw [World.after_written rfl]
      exact h.order
  | route op instant =>
    obtain ⟨⟨d', existed⟩, hop, rfl⟩ := Option.map_eq_some_iff.mp hr
    have hc := Rib.sections_consistent h.reachable
    -- a route changes the rows and their counters only
    have hframe : d'.state = w.data.state ∧ d'.running = w.data.running ∧
        d'.peerInfo = w.data.peerInfo := by
      obtain ⟨_, _, _, _, _, _, rfl⟩ := Rib.applyRoute_frame hc hop
      exact ⟨rfl, rfl, rfl⟩
    obtain ⟨hstate, hrunning, hpeer⟩ := hframe
    have hsh : sh = ⟨.established, true, true⟩ := hall
    refine ⟨hreach, hstate.trans h.label, hrunning.trans h.running, h.inHand, fun hp => ?_,
      fun s r hrow => ⟨hsh, ?_⟩, ?_, ?_⟩
    · exact h.peerInfo fun hp' => hp (hpeer.trans hp')
    · -- the connection that the rows are from is the one in hand
      obtain ⟨n, hn⟩ : ∃ n, w.connection = some n :=
        Option.isSome_iff_exists.mp (by rw [h.inHand, hsh])
      refine ⟨n, hn, ?_⟩
      rcases Rib.applyRoute_rows hc hop hrow with ⟨hk, rfl⟩ | ⟨s', hrow'⟩
      · refine List.mem_append_right _ ?_
        rw [hn]
        simp [announcedBy, hk]
      · obtain ⟨-, n', hn', hm⟩ := h.rows s' r hrow'
        rw [hn] at hn'
        rw [Option.some.inj hn']
        exact List.mem_append_left _ hm
    · rw [World.after_written rfl]
      exact h.last
    · rw [World.after_written rfl]
      exact h.order
  | disconnected instant =>
    obtain rfl := Option.some.inj hr
    refine ⟨hreach, h.label, h.running, rfl, fun hp => absurd rfl hp, fun s r hrow => ?_, ?_, ?_⟩
    · exact absurd hrow (hnone rfl s r)
    · rw [World.after_written rfl]
      exact h.last
    · rw [World.after_written rfl]
      exact h.order
  | runEnded instant | stop instant =>
    obtain rfl := Option.some.inj hr
    refine ⟨hreach, rfl, rfl, h.inHand, fun hp => absurd rfl hp, fun s r hrow => ?_, ?_, ?_⟩
    · exact absurd hrow (hnone rfl s r)
    · exact List.getLast?_concat
    · exact chain_append h.order h.last (follows_idle _)
  | start config instant =>
    obtain rfl := Option.some.inj hr
    refine ⟨hreach, h.label, rfl, h.inHand, fun hp => absurd rfl hp, fun s r hrow => ?_, ?_, ?_⟩
    · exact absurd hrow (hnone rfl s r)
    · rw [World.after_written rfl]
      exact h.last
    · rw [World.after_written rfl]
      exact h.order

/-- What a free section leaves alone. -/
theorem free_frame {s : Section} (hs : s.Free) {d d' : Data} (hr : s.run d = some d') :
    d'.state = d.state ∧ d'.running = d.running ∧ d'.peerInfo = d.peerInfo ∧
      d'.routes = d.routes := by
  cases s with
  | record event =>
    obtain ⟨_, _, rfl⟩ := Rib.record_frame hr
    exact ⟨rfl, rfl, rfl, rfl⟩
  | reclaimMemory | internShared | internLabel | flushed | clearHistory | capturing =>
    obtain rfl := Option.some.inj hr
    exact ⟨rfl, rfl, rfl, rfl⟩
  | route | setState | stop | start | disconnected | runEnded | peerInfo =>
    exact absurd hs (by simp [Rib.Section.Free])

/-- A section of no session keeps the shape. -/
theorem Shaped.free {w : World} {sh : Shape} (h : Shaped w sh) {s : Section} (hs : s.Free)
    {d : Data} (hr : s.run w.data = some d) : Shaped { w with data := d } sh := by
  obtain ⟨hstate, hrunning, hpeer, hroutes⟩ := free_frame hs hr
  refine ⟨h.reachable.step hr, hstate.trans h.label, hrunning.trans h.running, h.inHand, ?_, ?_,
    h.last, h.order⟩
  · intro hp
    exact h.peerInfo fun hp' => hp (hpeer.trans hp')
  · intro s r hrow
    exact h.rows s r (by rw [← hroutes]; exact hrow)

/-- A connection is taken while there are neither rows nor peer info. -/
theorem Shaped.connect {w : World} (h : Shaped w ⟨.connect, true, false⟩) :
    Shaped w.connect ⟨.connect, true, true⟩ where
  reachable := h.reachable
  label := h.label
  running := h.running
  inHand := rfl
  peerInfo := fun hp => absurd (h.peerInfo hp).1 (by simp)
  rows := fun s r hrow => absurd (h.rows s r hrow).1 (by simp)
  last := h.last
  order := h.order

/-- The tasks and the request fit the shape of the data. -/
inductive Fits : Option Task → Option Stage → Shape → Prop
  | session {t : Task} {stage : Option Stage} {sh : Shape} :
      (∀ st, stage = some st → ∃ r, st = .joining r) → Leads sh t.todo t.place.shape →
      (∀ c, t.place = .session c → c.Sound ∧ ∀ a ∈ t.todo, a.Inner) → Fits (some t) stage sh
  | idle {stage : Option Stage} :
      (∀ st, stage = some st → (∃ r, st = .joining r) ∨ ∃ config, st = .flushing config) →
      Fits none stage ⟨.idle, false, false⟩
  | acting {todo : List Act} {spawn : Option Config} {sh : Shape} :
      Leads sh todo ⟨.idle, spawn.isSome, false⟩ → Fits none (some (.acting todo spawn)) sh

/-- **What holds of every reachable world.** -/
def Inv (w : World) : Prop := ∃ sh, Shaped w sh ∧ Fits w.session w.request sh

/-- The invariant holds in the beginning. -/
theorem Inv.new (output : Option String) : Inv (World.new output) := by
  refine ⟨⟨.idle, false, false⟩, ⟨.init ⟨output, rfl⟩, rfl, rfl, rfl, fun hp => absurd rfl hp,
    fun s r hrow => ?_, rfl, List.isChain_singleton _⟩,
    .idle fun st hst => absurd hst (by simp [World.new])⟩
  change (OrdMap.empty : OrdMap ℕ Route).find s = some r at hrow
  rw [OrdMap.find_empty] at hrow
  exact absurd hrow (by simp)

/-- The shape of a session that is on its connection. -/
theorem shape_of_session {sh : Shape} {acts : List Act} {c : Conn}
    (h : Leads sh acts (Place.session c).shape) (hinner : ∀ a ∈ acts, a.Inner) :
    sh = ⟨sh.label, true, true⟩ := by
  obtain ⟨hr, hc⟩ := h.inner hinner
  rw [show sh = ⟨sh.label, sh.running, sh.inHand⟩ from rfl, ← hr, ← hc]
  rfl

/-- The shape does not depend on the tasks. -/
theorem Shaped.congr {w w' : World} {sh : Shape} (h : Shaped w sh) (hd : w'.data = w.data)
    (hc : w'.connection = w.connection) (ha : w'.announced = w.announced)
    (hw : w'.written = w.written) : Shaped w' sh := by
  obtain ⟨h₁, h₂, h₃, h₄, h₅, h₆, h₇, h₈⟩ := h
  refine ⟨?_, ?_, ?_, ?_, ?_, ?_, ?_, ?_⟩
  · rwa [hd]
  · rwa [hd]
  · rwa [hd]
  · rwa [hc]
  · rwa [hd]
  · rwa [hd, hc, ha]
  · rwa [hw]
  · rwa [hw]

/-- What a session does and what request may be beside it. -/
theorem Fits.of_session {t : Task} {stage : Option Stage} {sh : Shape}
    (h : Fits (some t) stage sh) :
    (∀ st, stage = some st → ∃ r, st = .joining r) ∧ Leads sh t.todo t.place.shape ∧
      ∀ c, t.place = .session c → c.Sound ∧ ∀ a ∈ t.todo, a.Inner := by
  cases h with
  | session hr hl hi => exact ⟨hr, hl, hi⟩

/-- There is no session beside a request that flushes or acts. -/
theorem Fits.of_flushing {session : Option Task} {config : Config} {sh : Shape}
    (h : Fits session (some (.flushing config)) sh) :
    session = none ∧ sh = ⟨.idle, false, false⟩ := by
  cases h with
  | session hr _ _ =>
    obtain ⟨r, hst⟩ := hr _ rfl
    exact absurd hst (by simp)
  | idle _ => exact ⟨rfl, rfl⟩

/-- There is no session beside a request that acts, and its acts lead to the shape behind it. -/
theorem Fits.of_acting {session : Option Task} {todo : List Act} {spawn : Option Config}
    {sh : Shape} (h : Fits session (some (.acting todo spawn)) sh) :
    session = none ∧ Leads sh todo ⟨.idle, spawn.isSome, false⟩ := by
  cases h with
  | session hr _ _ =>
    obtain ⟨r, hst⟩ := hr _ rfl
    exact absurd hst (by simp)
  | idle hr => rcases hr _ rfl with ⟨r, hst⟩ | ⟨config, hst⟩ <;> exact absurd hst (by simp)
  | acting hl => exact ⟨rfl, hl⟩

/-- A session that has ended left the idle state behind. -/
theorem Fits.of_joined {session : Option Task} {r : Request} {sh : Shape}
    (h : Fits session (some (.joining r)) sh)
    (hdone : ∀ t, session = some t → t.place = .finished ∧ t.todo = []) :
    sh = ⟨.idle, false, false⟩ := by
  cases h with
  | session _ hl _ =>
    obtain ⟨hp, ht⟩ := hdone _ rfl
    rw [hp, ht] at hl
    exact hl
  | idle _ => rfl

/-- A place that is no session asks nothing of the acts. -/
theorem not_session {t : Task} (h : ∀ c, t.place ≠ .session c) :
    ∀ c, t.place = .session c → c.Sound ∧ ∀ a ∈ t.todo, a.Inner :=
  fun c hc => absurd hc (h c)

/-- **Every step keeps the invariant.** -/
theorem Inv.step {digest : Bytes → Vector UInt8 20} {w w' : World} {e : Event} (h : Inv w)
    (hstep : Step digest w e w') : Inv w' := by
  obtain ⟨sh, hs, hf⟩ := h
  -- by step: each leads from its shape to the next, with the acts that it puts down
  cases hstep with
  | free hfree hr => exact ⟨sh, hs.free hfree hr, hf⟩
  | act ht htodo ha hr =>
    -- an act of the task moves the shape as `Leads` says of what is still to do
    rw [ht] at hf
    obtain ⟨hreq, hl, hi⟩ := hf.of_session
    rw [htodo] at hl
    refine ⟨_, (hs.does hl.1 ha hr).congr rfl rfl rfl rfl, .session hreq hl.2 fun c hc => ?_⟩
    refine ⟨(hi c hc).1, fun a' ha' => (hi c hc).2 a' ?_⟩
    rw [htodo]
    exact List.mem_cons_of_mem _ ha'
  | wrote ht htodo =>
    -- a write moves nothing of the shape
    rw [ht] at hf
    obtain ⟨hreq, hl, hi⟩ := hf.of_session
    rw [htodo] at hl
    refine ⟨sh, hs.congr rfl rfl rfl rfl, .session hreq hl.2 fun c hc => ?_⟩
    refine ⟨(hi c hc).1, fun a' ha' => (hi c hc).2 a' ?_⟩
    rw [htodo]
    exact List.mem_cons_of_mem _ ha'
  | turn ht htodo hplace =>
    -- a turn begins in the idle shape
    rw [ht] at hf
    obtain ⟨hreq, hl, -⟩ := hf.of_session
    rw [htodo, hplace] at hl
    obtain rfl : sh = ⟨.idle, true, false⟩ := hl
    refine ⟨_, hs.congr rfl rfl rfl rfl,
      .session hreq ⟨⟨trivial, fun h => absurd h (by simp)⟩, rfl⟩ ?_⟩
    exact not_session fun c hc => absurd hc (by simp)
  | connect now o ht htodo hplace =>
    -- a connection begins in the connecting shape
    rw [ht] at hf
    obtain ⟨hreq, hl, -⟩ := hf.of_session
    rw [htodo, hplace] at hl
    obtain rfl : sh = ⟨.connect, true, false⟩ := hl
    refine ⟨_, hs.connect.congr rfl rfl rfl rfl,
      .session hreq (leads_start _ now digest o) fun c hc => ?_⟩
    obtain rfl := Place.session.inj hc
    exact ⟨fun h => absurd h (by simp [Conn.start]), acts_inner digest o _⟩
  | connectFails ht htodo hplace =>
    rw [ht] at hf
    obtain ⟨hreq, hl, -⟩ := hf.of_session
    rw [htodo, hplace] at hl
    obtain rfl : sh = ⟨.connect, true, false⟩ := hl
    refine ⟨_, hs.connect.congr rfl rfl rfl rfl, .session hreq (leads_afterConnection _ _) ?_⟩
    exact not_session fun c hc => absurd hc (by simp)
  | frame o ht htodo hplace hframe =>
    -- a frame moves the shape as the connection does
    rw [ht] at hf
    obtain ⟨hreq, hl, hi⟩ := hf.of_session
    rw [htodo, hplace] at hl
    obtain ⟨hsound, hleads⟩ := onFrame_leads hframe (hi _ hplace).1 digest o
    rw [show sh = _ from hl] at hs
    refine ⟨_, hs.congr rfl rfl rfl rfl, .session hreq hleads fun c hc => ?_⟩
    obtain rfl := Place.session.inj hc
    exact ⟨hsound, acts_inner digest o _⟩
  | frameFails ht htodo hplace _ =>
    rw [ht] at hf
    obtain ⟨hreq, hl, -⟩ := hf.of_session
    rw [htodo, hplace] at hl
    rw [show sh = _ from hl] at hs
    refine ⟨_, hs.congr rfl rfl rfl rfl, .session hreq (leads_afterConnection _ _) ?_⟩
    exact not_session fun c hc => absurd hc (by simp)
  | keepalive now ht htodo hplace hr _ =>
    rw [ht] at hf
    obtain ⟨hreq, hl, hi⟩ := hf.of_session
    rw [htodo, hplace] at hl
    rw [show sh = _ from hl] at hs
    refine ⟨_, hs.congr rfl rfl rfl rfl, .session hreq ⟨trivial, ?_⟩ fun c hc => ?_⟩
    · exact (Place.shape_nextKeepalive _ _).symm
    · obtain rfl := Place.session.inj hc
      refine ⟨fun _ => hr, fun a ha => ?_⟩
      rw [List.mem_singleton.mp ha]
      trivial
  | connectionFails ht _ hplace =>
    rw [ht] at hf
    obtain ⟨hreq, hl, hi⟩ := hf.of_session
    have hinner := (hi _ hplace).2
    rw [hplace] at hl
    rw [shape_of_session hl hinner] at hs
    refine ⟨_, hs.congr rfl rfl rfl rfl, .session hreq (leads_afterConnection _ _) ?_⟩
    exact not_session fun c hc => absurd hc (by simp)
  | retry queued ht htodo hplace =>
    -- the task turns again with the shape it left
    rw [ht] at hf
    obtain ⟨hreq, hl, -⟩ := hf.of_session
    rw [htodo, hplace] at hl
    refine ⟨sh, hs.congr rfl rfl rfl rfl,
      .session hreq ?_ (not_session fun c hc => absurd hc (by simp))⟩
    show Leads sh _ _
    rw [htodo]
    exact hl
  | stoppedIdle ht htodo _ hplace =>
    rw [ht] at hf
    obtain ⟨hreq, hl, -⟩ := hf.of_session
    have hsh : sh.inHand = false := by
      rcases hplace with hp | hp <;> rw [htodo, hp] at hl <;> rw [show sh = _ from hl] <;> rfl
    refine ⟨sh, hs.congr rfl rfl rfl rfl,
      .session hreq ⟨hsh, ?_⟩ (not_session fun c hc => absurd hc (by simp))⟩
    show Shape.next sh .runEnded = _
    rw [Shape.next, hsh]
    rfl
  | stoppedConnected ht _ _ hplace =>
    -- the connection is dropped, and the run ends after what follows a connection
    rw [ht] at hf
    obtain ⟨hreq, hl, hi⟩ := hf.of_session
    have hinner := (hi _ hplace).2
    rw [hplace] at hl
    rw [shape_of_session hl hinner] at hs
    refine ⟨_, hs.congr rfl rfl rfl rfl,
      .session hreq ?_ (not_session fun c hc => absurd hc (by simp))⟩
    exact (leads_afterConnection _ _).append ⟨rfl, rfl⟩
  | request r hnone _ =>
    have hjoin : ∀ st, some (Stage.joining r) = some st → ∃ r, st = .joining r :=
      fun st hst => ⟨r, (Option.some.inj hst).symm⟩
    refine ⟨sh, hs.congr rfl rfl rfl rfl, ?_⟩
    rw [hnone] at hf
    cases hses : w.session with
    | none =>
      rw [hses] at hf
      cases hf with
      | idle _ => exact .idle fun st hst => Or.inl (hjoin st hst)
    | some t =>
      rw [hses] at hf
      obtain ⟨-, hl, hi⟩ := hf.of_session
      exact .session hjoin hl hi
  | joinedStop hreq hdone =>
    -- the task is gone, so the request finds the session idle
    rw [hreq] at hf
    obtain rfl := hf.of_joined hdone
    exact ⟨_, hs.congr rfl rfl rfl rfl, .acting ⟨rfl, rfl⟩⟩
  | joinedStart hreq hdone =>
    rw [hreq] at hf
    obtain rfl := hf.of_joined hdone
    exact ⟨_, hs.congr rfl rfl rfl rfl, .idle fun st hst => Or.inr ⟨_, (Option.some.inj hst).symm⟩⟩
  | flushFails hreq =>
    rw [hreq] at hf
    obtain ⟨hnone, rfl⟩ := hf.of_flushing
    refine ⟨_, hs.congr rfl rfl rfl rfl, ?_⟩
    rw [hnone]
    exact .idle fun st hst => absurd hst (by simp)
  | flushed hreq =>
    rw [hreq] at hf
    obtain ⟨hnone, rfl⟩ := hf.of_flushing
    refine ⟨_, hs.congr rfl rfl rfl rfl, ?_⟩
    rw [hnone]
    exact .acting ⟨rfl, rfl⟩
  | requestAct hreq ha hr =>
    rw [hreq] at hf
    obtain ⟨hnone, hl⟩ := hf.of_acting
    refine ⟨_, (hs.does hl.1 ha hr).congr rfl rfl rfl rfl, ?_⟩
    show Fits w.session _ _
    rw [hnone]
    exact .acting hl.2
  | spawned hreq =>
    rw [hreq] at hf
    obtain ⟨-, hl⟩ := hf.of_acting
    obtain rfl : sh = ⟨.idle, true, false⟩ := hl
    refine ⟨_, hs.congr rfl rfl rfl rfl, .session (fun st hst => absurd hst (by simp)) rfl ?_⟩
    exact not_session fun c hc => absurd hc (by simp)
  | released hreq =>
    rw [hreq] at hf
    obtain ⟨hnone, hl⟩ := hf.of_acting
    obtain rfl : sh = ⟨.idle, false, false⟩ := hl
    refine ⟨_, hs.congr rfl rfl rfl rfl, ?_⟩
    rw [hnone]
    exact .idle fun st hst => absurd hst (by simp)

/-- The invariant holds in every reachable state. -/
theorem lifecycle_inv {digest : Bytes → Vector UInt8 20} {w : World}
    (h : (lifecycle digest).Reachable w) : Inv w := by
  refine System.Invariant.reachable ⟨?_, ?_⟩ h
  · rintro w ⟨output, rfl⟩
    exact .new output
  · intro w e w' hw hstep
    exact hw.step hstep

/-- What the session is good for. -/
structure LifecycleFacts (w : World) : Prop where
  /-- Rows are there while the session is established and running. -/
  established : w.data.routes.values ≠ [] → w.data.state = .established ∧ w.data.running = true
  /-- Every row was announced on the connection in hand. -/
  origin : ∀ r ∈ w.data.routes.values, ∃ n, w.connection = some n ∧ (n, r) ∈ w.announced
  /-- The peer info is that of a session that has sent its OPEN. -/
  peerInfo : w.data.peerInfo ≠ .object [] → w.data.state = .openSent ∨
    w.data.state = .openConfirmed ∨ w.data.state = .established
  /-- The values that the state has had follow each other, and the last one is the current. -/
  order : w.written.IsChain Follows
  last : w.written.getLast? = some w.data.state

/-- **Routes live only on the connection that announced them.** -/
theorem lifecycle_facts {digest : Bytes → Vector UInt8 20} {w : World}
    (h : (lifecycle digest).Reachable w) : LifecycleFacts w := by
  obtain ⟨sh, hs, -⟩ := lifecycle_inv h
  refine ⟨fun hne => ?_, fun r hr => ?_, fun hp => ?_, hs.order, ?_⟩
  · obtain ⟨r, hr⟩ := List.exists_mem_of_ne_nil _ hne
    obtain ⟨s, hrow⟩ := w.data.routes.mem_values_iff.mp hr
    have hsh := (hs.rows s r hrow).1
    rw [hs.label, hs.running, hsh]
    exact ⟨rfl, rfl⟩
  · obtain ⟨s, hrow⟩ := w.data.routes.mem_values_iff.mp hr
    exact (hs.rows s r hrow).2
  · rw [hs.label]
    exact (hs.peerInfo hp).2
  · rw [hs.label]
    exact hs.last

/-! A session that has taken an UPDATE. -/

/-- SHA-1 on the text of the one key of the UPDATE. -/
def sampleDigest : Bytes → Vector UInt8 20 := Rib.cancelDigest

/-- A clock that does not matter. -/
def sampleOutside : Rib.Outside := ⟨fun _ => "", fun _ => 0, fun _ => "", true⟩

/-- The UPDATE of one prefix. -/
def sampleUpdate : Json := .object
  [("announce", .object [("ipv4-unicast", .arr [.object
    [("prefix", .str "10.2.0.0/16"), ("next_hop", .str "")]])]),
  ("withdraw", .object []), ("actions", .arr []), ("path_attributes", .arr [])]

/-- It is taken on an established connection. -/
theorem sampleConn_update : onFrame sampleConfig { sampleConn with established := true }
    ⟨0, 2, [0, 0, 0, 0, 16, 10, 2]⟩
      = .ok ({ sampleConn with established := true }, [.applyUpdate sampleUpdate "192.0.2.1"]) := by
  decide

/-- It is one operation on the store, an announcement. -/
theorem sampleUpdate_ops : ∃ op, Rib.opsFrom sampleDigest sampleOutside sampleUpdate "192.0.2.1" 0
    (Rib.updateSteps sampleUpdate) = [op] ∧ op.kind = .announce := by
  have hlen : (Rib.opsFrom sampleDigest sampleOutside sampleUpdate "192.0.2.1" 0
      (Rib.updateSteps sampleUpdate)).length = 1 := by
    decide
  have hkind : ∀ op ∈ Rib.opsFrom sampleDigest sampleOutside sampleUpdate "192.0.2.1" 0
      (Rib.updateSteps sampleUpdate), op.kind = .announce := by
    decide
  obtain ⟨op, hop⟩ := List.length_eq_one_iff.mp hlen
  exact ⟨op, hop, hkind op (by rw [hop]; exact List.mem_singleton_self op)⟩

/-- The world that has the UPDATE before it. -/
theorem exists_updating : ∃ w t, (lifecycle sampleDigest).Reachable w ∧ w.session = some t ∧
    t.todo = [Effect.applyUpdate sampleUpdate "192.0.2.1"].flatMap
      (Effect.acts sampleDigest sampleOutside) := by
  have h₀ : (lifecycle sampleDigest).Reachable (World.new none) := .init ⟨none, rfl⟩
  -- a start is carried out
  have h₁ := h₀.step (Step.request (.start sampleConfig) rfl fun config hc => by
    rw [← Request.start.inj hc]
    exact sampleConfig_valid)
  have h₂ := h₁.step (Step.joinedStart rfl fun t ht => absurd ht (by simp [World.new]))
  have h₃ := h₂.step (Step.flushed rfl)
  have h₄ := h₃.step (Step.requestAct rfl (.start sampleConfig 0) rfl)
  have h₅ := h₄.step (Step.spawned rfl)
  have h₆ := h₅.step (Step.turn rfl rfl rfl)
  have h₇ := h₆.step (Step.act rfl rfl (.setState .connect) rfl)
  -- a connection comes in, and the OPEN goes out
  have h₈ := h₇.step (Step.connect 0 sampleOutside rfl rfl rfl)
  have h₉ := h₈.step (Step.act rfl rfl (.setState .openSent) rfl)
  have h₁₀ := h₉.step (Step.wrote rfl rfl)
  -- OPEN, KEEPALIVE and UPDATE of the peer, each with what the session does about it
  have h₁₁ := h₁₀.step (Step.frame sampleOutside rfl rfl rfl sampleConn_open)
  have h₁₂ := h₁₁.step (Step.act rfl rfl (.peerInfo sampleInfo) rfl)
  have h₁₃ := h₁₂.step (Step.wrote rfl rfl)
  have h₁₄ := h₁₃.step (Step.act rfl rfl (.setState .openConfirmed) rfl)
  have h₁₅ := h₁₄.step (Step.frame sampleOutside rfl rfl rfl sampleConn_keepalive)
  have h₁₆ := h₁₅.step (Step.act rfl rfl (.setState .established) rfl)
  have h₁₇ := h₁₆.step (Step.frame sampleOutside rfl rfl rfl sampleConn_update)
  exact ⟨_, _, h₁₇, rfl, rfl⟩

/-- The world behind the UPDATE, with the row that it announced. -/
theorem exists_established :
    ∃ w, (lifecycle sampleDigest).Reachable w ∧ w.data.routes.values ≠ [] := by
  obtain ⟨w, t, hw, ht, htodo⟩ := exists_updating
  -- the UPDATE has one route, which is announced
  obtain ⟨op, hops, hkind⟩ := sampleUpdate_ops
  rw [List.flatMap_singleton, Effect.acts, hops] at htodo
  obtain ⟨sh, hs, -⟩ := lifecycle_inv hw
  have hc := Rib.sections_consistent hs.reachable
  obtain ⟨d, existed, hr, hc'⟩ := Rib.applyRoute_consistent hc op 0
  have hrun : (Section.route op 0).run w.data = some d := by
    rw [Section.run, hr]
    rfl
  refine ⟨_, hw.step (Step.act ht htodo (.route op 0) hrun), ?_⟩
  have hrow : d.byId op.entry.id = some op.entry := by
    rw [Rib.byId_applyRoute hc hr, Rib.RouteOp.write, hkind, Function.update_self]
  obtain ⟨s, hfind⟩ := (hc'.indexed.row_of_byId hrow).1
  exact List.ne_nil_of_mem (d.routes.mem_values_iff.mpr ⟨s, hfind⟩)

theorem established_facts : ∃ w, w.data.routes.values ≠ [] ∧ LifecycleFacts w := by
  obtain ⟨w, hw, hrows⟩ := exists_established
  exact ⟨w, hrows, lifecycle_facts hw⟩

end Session
