import BgpReceiver.Session.Lifecycle

/-!
# The control lock

`App::start`, `App::stop`, `capture::start` and `capture::stop`, as they are run by any
number of requests beside any number of session and capture tasks. A request works while
it holds the control lock (`Stage`); one that waits for the lock, or is dropped while it
waits, has done nothing, so it is no part of the world. What is split are the waits: for
the lock, and in `stop_task` for the end of a task whose handle has been taken out of
`control`. A handler that is dropped there lets go of the lock, and the task that it was
waiting for goes on without a handle (`Event.dropped`).

A session task does what it does in `Session.lifecycle`, whose steps are taken over
(`Event.OfTask`). A capture task ends by itself or because it is told to; that it clears
the capture flag is its last write.

Two things hold in every run, whatever is dropped. Behind the end of all sessions the data
is idle (`Quiet`), and a capture flag has a capture behind it (`Flagged`).
-/

namespace Rib

/-- The sections of a session task. -/
def Section.OfSession : Section → Prop
  | .setState _ | .peerInfo _ | .route _ _ | .disconnected _ | .runEnded _ => True
  | _ => False

/-- The part of the data that the requests set. -/
def Data.setup (d : Data) : Option Session.Config × Option String × Bool :=
  (d.config, d.output, d.capturing)

/-- What is set up is the configuration, the output and the capture flag. -/
theorem Data.setup_eq_iff {d d' : Data} :
    d'.setup = d.setup ↔
      d'.config = d.config ∧ d'.output = d.output ∧ d'.capturing = d.capturing := by
  simp [Data.setup]

/-- The sections of a session leave the setup alone, and all but the last of them the
running flag. -/
theorem Section.OfSession.frame {d d' : Data} (h : Consistent d) {s : Section} (hs : s.OfSession)
    (hr : s.run d = some d') :
    d'.setup = d.setup ∧ (d'.running = d.running ∨ ∃ instant, s = .runEnded instant) := by
  -- only the end of a run writes the running flag
  cases s with
  | route op instant =>
    obtain ⟨⟨d'', existed⟩, hr', rfl⟩ := Option.map_eq_some_iff.mp hr
    obtain ⟨_, _, _, _, _, _, rfl⟩ := applyRoute_frame h hr'
    exact ⟨rfl, Or.inl rfl⟩
  | setState | peerInfo | disconnected =>
    obtain rfl := Option.some.inj hr
    exact ⟨rfl, Or.inl rfl⟩
  | runEnded instant =>
    obtain rfl := Option.some.inj hr
    exact ⟨rfl, Or.inr ⟨instant, rfl⟩⟩
  | _ => exact absurd hs (by simp [Section.OfSession])

/-- A free section leaves the setup alone, unless it is that of a capture. -/
theorem Section.Free.setup {d d' : Data} {s : Section} (hs : s.Free)
    (hcap : ∀ on, s ≠ .capturing on) (hr : s.run d = some d') : d'.setup = d.setup := by
  cases s with
  | record event =>
    obtain ⟨_, _, rfl⟩ := record_frame hr
    rfl
  | capturing on => exact absurd rfl (hcap on)
  | reclaimMemory | internShared | internLabel | flushed | clearHistory =>
    obtain rfl := Option.some.inj hr
    rfl
  | _ => exact absurd hs (by simp [Section.Free])

/-- There is no session. -/
structure Data.Idle (d : Data) : Prop where
  running : d.running = false
  state : d.state = .idle
  peerInfo : d.peerInfo = .object []
  routes : d.routes = .empty

/-- A section of no session leaves idle data idle. -/
theorem Section.Free.idle {d d' : Data} {s : Section} (hs : s.Free) (hr : s.run d = some d')
    (h : d.Idle) : d'.Idle := by
  obtain ⟨hstate, hrunning, hpeer, hroutes⟩ := Session.free_frame hs hr
  exact ⟨hrunning.trans h.running, hstate.trans h.state, hpeer.trans h.peerInfo,
    hroutes.trans h.routes⟩

/-- The section at the end of `run` leaves no session. -/
theorem runEnded_idle {d d' : Data} {instant : ℕ}
    (hr : (Section.runEnded instant).run d = some d') : d'.Idle := by
  rw [← Option.some.inj hr]
  exact ⟨rfl, rfl, rfl, rfl⟩

/-- The section of `App::stop` leaves no session. -/
theorem stop_idle {d d' : Data} {instant : ℕ} (hr : (Section.stop instant).run d = some d') :
    d'.Idle := by
  rw [← Option.some.inj hr]
  exact ⟨rfl, rfl, rfl, rfl⟩

end Rib

namespace Session

open Rib (Data Section SessionState)
open System (getElem?_set_cases getElem?_set_self_of getElem?_concat_cases)

/-! ### The task of a session -/

/-- The events of the session task. -/
def Event.OfTask : Event → Prop
  | .act _ | .wrote | .turn | .connect _ | .connectFails | .frame _ | .frameFails _ | .keepalive _
  | .connectionFails | .retry _ | .stopped => True
  | _ => False

/-- The section at the end of `run` is still to come. -/
def Task.Live (t : Task) : Prop := t.place ≠ .finished ∨ t.todo ≠ []

/-- An act of a task that is not at its end. -/
def Act.Early : Act → Prop
  | .runEnded | .stop | .start _ => False
  | _ => True

/-- What the acts that are left of a task can be. -/
structure Task.Sound (t : Task) : Prop where
  /-- A task ends when it has been told to. -/
  told : t.place = .finished → t.stopSent = true
  early : t.place ≠ .finished → ∀ a ∈ t.todo, a.Early
  /-- At its end, only the last acts are left. -/
  last : t.place = .finished → t.todo <:+ afterConnection ++ [.runEnded]

/-- What is done on a connection is done before the end of a session. -/
theorem Act.Inner.early {a : Act} (h : a.Inner) : a.Early := by
  cases a <;> trivial

/-- So is what comes behind a connection. -/
theorem afterConnection_early : ∀ a ∈ afterConnection, a.Early := by
  intro a ha
  rcases List.mem_cons.mp ha with rfl | ha
  · trivial
  · rw [List.mem_singleton.mp ha]
    trivial

/-- A task that has just been spawned is sound. -/
theorem Task.Sound.spawned (config : Config) : Task.Sound ⟨config, false, .loop false, []⟩ where
  told := nofun
  early := fun _ _ h => absurd h List.not_mem_nil
  last := nofun

/-- Being told to stop changes nothing else. -/
theorem Task.Sound.tell {t : Task} (h : t.Sound) : Task.Sound { t with stopSent := true } :=
  ⟨fun _ => rfl, h.early, h.last⟩

/-- A task that goes to a place before its end. -/
theorem Task.Sound.goes {t : Task} {place : Place} (hplace : place ≠ .finished) {todo : List Act}
    (htodo : ∀ a ∈ todo, a.Early) : Task.Sound { t with place := place, todo := todo } :=
  ⟨fun h => absurd h hplace, fun _ => htodo, fun h => absurd h hplace⟩

/-- The acts that are left at the end of a task. -/
theorem Task.Sound.last_cases {t : Task} (h : t.Sound) (hplace : t.place = .finished) {a : Act}
    {rest : List Act} (htodo : t.todo = a :: rest) :
    (a = .runEnded ∧ rest = []) ∨ (a.Early ∧ rest ≠ [] ∧ a ≠ .write) := by
  have hsuffix := h.last hplace
  rw [htodo, show afterConnection ++ [Act.runEnded] = [.disconnected, .setState .idle, .runEnded]
    from rfl] at hsuffix
  -- what is left to do is a suffix of the three last acts
  rcases List.suffix_cons_iff.mp hsuffix with heq | hsuffix
  · obtain ⟨rfl, rfl⟩ := List.cons.inj heq
    exact Or.inr ⟨trivial, by simp, by simp⟩
  rcases List.suffix_cons_iff.mp hsuffix with heq | hsuffix
  · obtain ⟨rfl, rfl⟩ := List.cons.inj heq
    exact Or.inr ⟨trivial, by simp, by simp⟩
  rcases List.suffix_cons_iff.mp hsuffix with heq | hsuffix
  · obtain ⟨rfl, rfl⟩ := List.cons.inj heq
    exact Or.inl ⟨rfl, rfl⟩
  · exact absurd (List.suffix_nil.mp hsuffix) (by simp)

/-- One act less is left. -/
theorem Task.Sound.acted {t : Task} (h : t.Sound) {a : Act} {rest : List Act}
    (htodo : t.todo = a :: rest) : Task.Sound { t with todo := rest } where
  told := h.told
  early := fun hp b hb => h.early hp b (by rw [htodo]; exact List.mem_cons_of_mem _ hb)
  last := fun hp => (List.suffix_cons a rest).trans (htodo ▸ h.last hp)

/-- An early act is a section of a session, and not its last one. -/
theorem Act.Early.ofSession {a : Act} (h : a.Early) {s : Section} (hs : a.Does s) :
    s.OfSession ∧ ∀ n, s ≠ .runEnded n := by
  cases hs with
  | setState | peerInfo | route | disconnected => exact ⟨trivial, fun n => by simp⟩
  | runEnded | stop | start => exact absurd h (by simp [Act.Early])

/-- **What a session task does in one step**: it is not at its end; it takes one of its
sections or leaves the data alone; and it comes to its end with the section at the end of
`run`. -/
theorem task_step {digest : Bytes → Vector UInt8 20} {v v' : Session.World} {e : Event}
    (h : Session.Step digest v e v') (he : e.OfTask) {t : Task} (ht : v.session = some t)
    (hs : t.Sound) :
    t.Live ∧ ∃ t', v'.session = some t' ∧ t'.Sound ∧ t'.stopSent = t.stopSent ∧
      ((v'.data = v.data ∧ t'.Live) ∨ ∃ s : Section, s.OfSession ∧ s.run v.data = some v'.data ∧
        ((t'.Live ∧ ∀ n, s ≠ .runEnded n) ∨ (¬ t'.Live ∧ ∃ n, s = .runEnded n))) := by
  -- by step of the one task; a step of the loop puts down acts and leaves the store alone
  cases h with
  | @act t₁ a rest s d ht₁ htodo ha hr =>
    rw [ht] at ht₁
    obtain rfl := Option.some.inj ht₁
    have hlive : t.Live := Or.inr (by rw [htodo]; simp)
    refine ⟨hlive, _, rfl, hs.acted htodo, rfl, Or.inr ⟨s, ?_⟩⟩
    -- in its last place the task ends its run with this act, or has that act still before it
    by_cases hplace : t.place = .finished
    · rcases hs.last_cases hplace htodo with ⟨rfl, rfl⟩ | ⟨hearly, hrest, -⟩
      · cases ha with
        | runEnded instant =>
          refine ⟨trivial, hr, Or.inr ⟨?_, instant, rfl⟩⟩
          rintro (hp | hp)
          · exact hp hplace
          · exact hp rfl
      · obtain ⟨hsec, hne⟩ := hearly.ofSession ha
        exact ⟨hsec, hr, Or.inl ⟨Or.inr hrest, hne⟩⟩
    · have hearly := hs.early hplace a (by rw [htodo]; exact List.mem_cons_self)
      obtain ⟨hsec, hne⟩ := hearly.ofSession ha
      exact ⟨hsec, hr, Or.inl ⟨Or.inl hplace, hne⟩⟩
  | @wrote t₁ rest ht₁ htodo =>
    rw [ht] at ht₁
    obtain rfl := Option.some.inj ht₁
    have hplace : t.place ≠ .finished := by
      intro hplace
      rcases hs.last_cases hplace htodo with ⟨hw, -⟩ | ⟨-, -, hw⟩
      · exact absurd hw (by simp)
      · exact hw rfl
    exact ⟨Or.inl hplace, _, rfl, hs.acted htodo, rfl, Or.inl ⟨rfl, Or.inl hplace⟩⟩
  | turn ht₁ htodo hplace =>
    -- the steps between two places: the task goes on, with acts that end no run
    rw [ht] at ht₁
    obtain rfl := Option.some.inj ht₁
    refine ⟨Or.inl (by simp [hplace]), _, rfl, .goes (by simp) ?_, rfl,
      Or.inl ⟨rfl, Or.inl (by simp)⟩⟩
    intro a ha
    rw [List.mem_singleton.mp ha]
    trivial
  | connect now o ht₁ htodo hplace =>
    rw [ht] at ht₁
    obtain rfl := Option.some.inj ht₁
    exact ⟨Or.inl (by simp [hplace]), _, rfl,
      .goes (by simp) fun a ha => (acts_inner digest o _ a ha).early, rfl,
      Or.inl ⟨rfl, Or.inl (by simp)⟩⟩
  | connectFails ht₁ htodo hplace =>
    rw [ht] at ht₁
    obtain rfl := Option.some.inj ht₁
    exact ⟨Or.inl (by simp [hplace]), _, rfl, .goes (by simp) afterConnection_early, rfl,
      Or.inl ⟨rfl, Or.inl (by simp)⟩⟩
  | frame o ht₁ htodo hplace _ =>
    rw [ht] at ht₁
    obtain rfl := Option.some.inj ht₁
    exact ⟨Or.inl (by simp [hplace]), _, rfl,
      .goes (by simp) fun a ha => (acts_inner digest o _ a ha).early, rfl,
      Or.inl ⟨rfl, Or.inl (by simp)⟩⟩
  | frameFails ht₁ htodo hplace _ =>
    rw [ht] at ht₁
    obtain rfl := Option.some.inj ht₁
    exact ⟨Or.inl (by simp [hplace]), _, rfl, .goes (by simp) afterConnection_early, rfl,
      Or.inl ⟨rfl, Or.inl (by simp)⟩⟩
  | keepalive now ht₁ htodo hplace _ _ =>
    rw [ht] at ht₁
    obtain rfl := Option.some.inj ht₁
    refine ⟨Or.inl (by simp [hplace]), _, rfl, .goes (by simp) ?_, rfl,
      Or.inl ⟨rfl, Or.inl (by simp)⟩⟩
    intro a ha
    rw [List.mem_singleton.mp ha]
    trivial
  | connectionFails ht₁ _ hplace =>
    rw [ht] at ht₁
    obtain rfl := Option.some.inj ht₁
    exact ⟨Or.inl (by simp [hplace]), _, rfl, .goes (by simp) afterConnection_early, rfl,
      Or.inl ⟨rfl, Or.inl (by simp)⟩⟩
  | retry queued ht₁ htodo hplace =>
    rw [ht] at ht₁
    obtain rfl := Option.some.inj ht₁
    have hlive : t.Live := Or.inl (by simp [hplace])
    refine ⟨hlive, _, rfl, ⟨nofun, fun _ => hs.early (by simp [hplace]), nofun⟩, rfl,
      Or.inl ⟨rfl, Or.inl (by simp)⟩⟩
  | stoppedIdle ht₁ htodo hstop hplace =>
    -- the stop is what takes the task to its last place
    rw [ht] at ht₁
    obtain rfl := Option.some.inj ht₁
    have hlive : t.Live := Or.inl (by rcases hplace with h | h <;> simp [h])
    refine ⟨hlive, _, rfl, ⟨fun _ => hstop, fun h => absurd rfl h, fun _ => ?_⟩, rfl,
      Or.inl ⟨rfl, Or.inr (by simp)⟩⟩
    exact List.suffix_append _ _
  | stoppedConnected ht₁ _ hstop hplace =>
    rw [ht] at ht₁
    obtain rfl := Option.some.inj ht₁
    exact ⟨Or.inl (by simp [hplace]), _, rfl,
      ⟨fun _ => hstop, fun h => absurd rfl h, fun _ => List.suffix_refl _⟩, rfl,
      Or.inl ⟨rfl, Or.inr (by simp [afterConnection])⟩⟩
  | _ => exact absurd he (by simp [Event.OfTask])

/-! ### Requests and tasks -/

namespace Control

/-- A request that takes the control lock. -/
inductive Call where
  | session (r : Request)
  | captureStart
  | captureStop

/-- How far the request is that holds the control lock. -/
inductive Stage where
  /-- before `stop_task` on the session -/
  | stoppingSession (r : Request)
  /-- in `stop_task`, with the number of the session that it has taken -/
  | joiningSession (r : Request) (i : Option ℕ)
  /-- `capture::start`: before the look at the running flag -/
  | checking
  /-- before `stop_task` on the capture -/
  | stoppingCapture (c : Call)
  | joiningCapture (c : Call) (j : Option ℕ)
  /-- before the flush of `start`, or before `tcpdump` is there -/
  | preparing (c : Call)
  /-- before the critical section -/
  | writing (c : Call)
  /-- behind the critical section -/
  | spawning (c : Call)

/-- Where a request begins. -/
def Call.first : Call → Stage
  | .session r => .stoppingSession r
  | .captureStart => .checking
  | .captureStop => .stoppingCapture .captureStop

/-- The critical section of a request. -/
inductive Call.Does : Call → Section → Prop
  | start (config : Config) (instant : ℕ) : Does (.session (.start config)) (.start config instant)
  | stop (instant : ℕ) : Does (.session .stop) (.stop instant)
  | captureStart : Does .captureStart (.capturing true)

/-- A session task; it has ended behind its last flush. -/
structure SessionTask where
  task : Task
  ended : Bool

/-- A capture task. -/
structure CaptureTask where
  /-- it has cleared the capture flag -/
  cleared : Bool
  ended : Bool

/-- The whole program: its data, all tasks that were ever spawned, the handles in `control`, and the
holder of the control lock. -/
structure World where
  data : Data
  /-- the session tasks, in the order in which they were spawned -/
  sessions : List SessionTask
  captures : List CaptureTask
  /-- `control.session`: the number of the task whose handle it is -/
  session : Option ℕ
  /-- `control.capture` -/
  capture : Option ℕ
  /-- the holder of the control lock -/
  holder : Option Stage

/-- The world as a session task sees it. -/
def World.view (w : World) (t : Task) : Session.World :=
  ⟨w.data, some t, none, none, 0, [], []⟩

/-- The task is told to stop. -/
def SessionTask.tell (s : SessionTask) : SessionTask :=
  { s with task := { s.task with stopSent := true } }

/-- `task.stop.send(())`. -/
def tell (sessions : List SessionTask) (i : Option ℕ) : List SessionTask :=
  match i with
  | some i => sessions.modify i SessionTask.tell
  | none => sessions

/-- The session of a handle has ended. -/
def World.SessionEnded (w : World) (i : Option ℕ) : Prop :=
  ∀ n, i = some n → ∃ t, w.sessions[n]? = some ⟨t, true⟩

/-- The capture of a handle has ended. -/
def World.CaptureEnded (w : World) (j : Option ℕ) : Prop :=
  ∀ n, j = some n → ∃ cleared, w.captures[n]? = some ⟨cleared, true⟩

/-- A wait inside of `stop_task`. -/
def Stage.Joins : Stage → Prop
  | .joiningSession _ i => i.isSome
  | .joiningCapture _ j => j.isSome
  | _ => False

/-- A request can fail here: the flush, when there is an output, or the spawn of
`tcpdump`. -/
def World.CanFail (w : World) : Call → Prop
  | .session (.start _) => w.data.output ≠ none
  | .captureStart => True
  | _ => False

/-- A section beside the control lock, a step of a task, or one of the request that holds the
lock. -/
inductive Event where
  | free (s : Section)
  | session (i : ℕ) (e : Session.Event)
  | sessionEnds (i : ℕ)
  | captureClears (j : ℕ)
  | captureEnds (j : ℕ)
  | invalid (config : Config)
  | acquires (c : Call)
  | takesSession
  | joinsSession
  | checks
  | refused
  | takesCapture
  | joinsCapture
  | prepared
  | fails
  | writes (s : Section)
  | spawns
  | dropped

/-- One step. -/
inductive Step (digest : Bytes → Vector UInt8 20) (w : World) : Event → World → Prop
  /-- a critical section of whatever task -/
  | free {s : Section} {d : Data} : s.Free → (∀ on, s ≠ .capturing on) → s.run w.data = some d →
      Step digest w (.free s) { w with data := d }
  /-- a session task -/
  | session {i : ℕ} {t t' : Task} {e : Session.Event} {v : Session.World} :
      w.sessions[i]? = some ⟨t, false⟩ → e.OfTask → Session.Step digest (w.view t) e v →
      v.session = some t' →
      Step digest w (.session i e)
        { w with data := v.data, sessions := w.sessions.set i ⟨t', false⟩ }
  | sessionEnds {i : ℕ} {t : Task} : w.sessions[i]? = some ⟨t, false⟩ → ¬ t.Live →
      Step digest w (.sessionEnds i) { w with sessions := w.sessions.set i ⟨t, true⟩ }
  /-- a capture task, told to stop or by itself -/
  | captureClears {j : ℕ} {d : Data} : w.captures[j]? = some ⟨false, false⟩ →
      (Section.capturing false).run w.data = some d →
      Step digest w (.captureClears j)
        { w with data := d, captures := w.captures.set j ⟨true, false⟩ }
  | captureEnds {j : ℕ} : w.captures[j]? = some ⟨true, false⟩ →
      Step digest w (.captureEnds j) { w with captures := w.captures.set j ⟨true, true⟩ }
  /-- `start`: the configuration is refused before the lock is asked for -/
  | invalid {config : Config} {e : String} : config.validate = .error e →
      Step digest w (.invalid config) w
  | acquires {c : Call} : w.holder = none →
      (∀ config, c = .session (.start config) → config.validate = .ok ()) →
      Step digest w (.acquires c) { w with holder := some c.first }
  /-- `stop_task`: the handle is taken and the task told to stop -/
  | takesSession {r : Request} : w.holder = some (.stoppingSession r) →
      Step digest w .takesSession { w with
        session := none
        sessions := tell w.sessions w.session
        holder := some (.joiningSession r w.session) }
  | joinsSession {r : Request} {i : Option ℕ} : w.holder = some (.joiningSession r i) →
      w.SessionEnded i →
      Step digest w .joinsSession { w with holder := some (.stoppingCapture (.session r)) }
  | checks : w.holder = some .checking → w.data.running = true →
      Step digest w .checks { w with holder := some (.stoppingCapture .captureStart) }
  | refused : w.holder = some .checking → w.data.running = false →
      Step digest w .refused { w with holder := none }
  | takesCapture {c : Call} : w.holder = some (.stoppingCapture c) →
      Step digest w .takesCapture { w with
        capture := none
        holder := some (.joiningCapture c w.capture) }
  | joinsCapture {c : Call} {j : Option ℕ} : w.holder = some (.joiningCapture c j) →
      w.CaptureEnded j →
      Step digest w .joinsCapture { w with
        holder := match c with | .captureStop => none | c => some (.preparing c) }
  | prepared {c : Call} : w.holder = some (.preparing c) →
      Step digest w .prepared { w with holder := some (.writing c) }
  | fails {c : Call} : w.holder = some (.preparing c) → w.CanFail c →
      Step digest w .fails { w with holder := none }
  | writes {c : Call} {s : Section} {d : Data} : w.holder = some (.writing c) → c.Does s →
      s.run w.data = some d →
      Step digest w (.writes s) { w with data := d, holder := some (.spawning c) }
  | spawnsSession {config : Config} : w.holder = some (.spawning (.session (.start config))) →
      Step digest w .spawns { w with
        sessions := w.sessions ++ [⟨⟨config, false, .loop false, []⟩, false⟩]
        session := some w.sessions.length
        holder := none }
  | spawnsCapture : w.holder = some (.spawning .captureStart) →
      Step digest w .spawns { w with
        captures := w.captures ++ [⟨false, false⟩]
        capture := some w.captures.length
        holder := none }
  /-- `stop`: nothing is spawned -/
  | spawnsNothing : w.holder = some (.spawning (.session .stop)) →
      Step digest w .spawns { w with holder := none }
  /-- the handler is dropped while it waits for a task -/
  | dropped {st : Stage} : w.holder = some st → st.Joins →
      Step digest w .dropped { w with holder := none }

/-- The world behind `App::new`. -/
def World.new (output : Option String) : World := ⟨Data.new output, [], [], none, none, none⟩

/-- **The requests and the tasks.** -/
def control (digest : Bytes → Vector UInt8 20) : System World Event where
  init := fun w => ∃ output, w = World.new output
  step := Step digest

/-- A handler is dropped only when the task that it waits for has ended. -/
def Kept (w : World) : Event → Prop
  | .dropped =>
    (∀ r i, w.holder = some (.joiningSession r i) → w.SessionEnded i) ∧
      ∀ c j, w.holder = some (.joiningCapture c j) → w.CaptureEnded j
  | _ => True

/-- The requests and the tasks, when no task is left behind. -/
def kept (digest : Bytes → Vector UInt8 20) : System World Event := (control digest).restrict Kept

/-- A step in which nobody is dropped too early keeps a state reachable. -/
theorem kept_step {digest : Bytes → Vector UInt8 20} {w w' : World} {e : Event}
    (h : (kept digest).Reachable w) (hs : Step digest w e w') (he : Kept w e) :
    (kept digest).Reachable w' :=
  h.step ⟨he, hs⟩

/-! ### What holds in every run -/

/-- No session writes to the data any more. -/
def World.Still (w : World) : Prop :=
  ∀ (i : ℕ) (t : SessionTask), w.sessions[i]? = some t → ¬ t.task.Live

/-- The data is that of a session which is about to be spawned. -/
def World.Starting (w : World) : Prop :=
  ∃ config, w.holder = some (.spawning (.session (.start config)))

/-- What holds of every reachable world, whatever is dropped. -/
structure Inv (w : World) : Prop where
  reachable : Rib.sections.Reachable w.data
  sound : ∀ (i : ℕ) (t : SessionTask), w.sessions[i]? = some t → t.task.Sound
  ended : ∀ (i : ℕ) (t : SessionTask), w.sessions[i]? = some t → t.ended = true → ¬ t.task.Live
  cleared : ∀ (j : ℕ) (t : CaptureTask), w.captures[j]? = some t → t.ended = true → t.cleared = true
  /-- Behind the end of all sessions the data is idle. -/
  quiet : w.Still → ¬ w.Starting → w.data.Idle
  /-- The capture flag has a capture behind it. -/
  flagged : w.data.capturing = true →
    (∃ (j : ℕ) (t : CaptureTask), w.captures[j]? = some t ∧ t.cleared = false) ∨
      w.holder = some (.spawning .captureStart)

/-- The invariant holds in the beginning. -/
theorem Inv.new (output : Option String) : Inv (World.new output) where
  reachable := .init ⟨output, rfl⟩
  sound := fun i t h => absurd h (by simp [World.new])
  ended := fun i t h => absurd h (by simp [World.new])
  cleared := fun j t h => absurd h (by simp [World.new])
  quiet := fun _ _ => ⟨rfl, rfl, rfl, rfl⟩
  flagged := fun h => absurd h Bool.false_ne_true

/-- What a request does to the handles and to its own stage. -/
theorem Inv.handles {w : World} (h : Inv w) {session capture : Option ℕ} {holder : Option Stage}
    (hstart : ¬ w.Starting) (hcap : w.holder ≠ some (.spawning .captureStart)) :
    Inv { w with session := session, capture := capture, holder := holder } where
  reachable := h.reachable
  sound := h.sound
  ended := h.ended
  cleared := h.cleared
  quiet := fun hs _ => h.quiet hs hstart
  flagged := fun hf => Or.inl ((h.flagged hf).resolve_right hcap)

/-- A request at one of its stages. -/
theorem Inv.stage {w : World} (h : Inv w) {st : Stage} (hst : w.holder = some st)
    (hne : ∀ c, st ≠ .spawning c) {session capture : Option ℕ} {holder : Option Stage} :
    Inv { w with session := session, capture := capture, holder := holder } := by
  refine h.handles ?_ ?_
  · rintro ⟨config, hs⟩
    rw [hst] at hs
    exact hne _ (Option.some.inj hs)
  · intro hc
    rw [hst] at hc
    exact hne _ (Option.some.inj hc)

/-- A task behind a stop is the one of before, but for its flag. -/
theorem getElem?_tell {sessions : List SessionTask} {i : Option ℕ} {n : ℕ} {t : SessionTask}
    (h : (tell sessions i)[n]? = some t) :
    ∃ t₀, sessions[n]? = some t₀ ∧ t.ended = t₀.ended ∧ t.task.place = t₀.task.place ∧
      t.task.todo = t₀.task.todo ∧
        (t.task = t₀.task ∨ t.task = { t₀.task with stopSent := true }) := by
  cases i with
  | none => exact ⟨t, h, rfl, rfl, rfl, Or.inl rfl⟩
  | some i =>
    rw [tell, List.getElem?_modify] at h
    obtain ⟨t₀, ht₀, rfl⟩ := Option.map_eq_some_iff.mp h
    refine ⟨t₀, ht₀, ?_⟩
    by_cases hi : i = n
    · rw [if_pos hi]
      exact ⟨rfl, rfl, rfl, Or.inr rfl⟩
    · rw [if_neg hi]
      exact ⟨rfl, rfl, rfl, Or.inl rfl⟩

/-- No task is lost when one is told to stop. -/
theorem getElem?_tell_of {sessions : List SessionTask} {i : Option ℕ} {n : ℕ} {t₀ : SessionTask}
    (h : sessions[n]? = some t₀) :
    ∃ t, (tell sessions i)[n]? = some t ∧ t.ended = t₀.ended ∧ (t.task.Live ↔ t₀.task.Live) := by
  cases i with
  | none => exact ⟨t₀, h, rfl, Iff.rfl⟩
  | some i =>
    rw [tell, List.getElem?_modify, h]
    by_cases hi : i = n
    · exact ⟨t₀.tell, by simp [hi], rfl, Iff.rfl⟩
    · exact ⟨t₀, by simp [hi], rfl, Iff.rfl⟩

/-- **Every step keeps the invariant.** -/
theorem Inv.step {digest : Bytes → Vector UInt8 20} {w w' : World} {e : Event} (h : Inv w)
    (hstep : Step digest w e w') : Inv w' := by
  have hc := Rib.sections_consistent h.reachable
  -- by step: of a task, of the one holder of `control`, or of neither
  cases hstep with
  | @free s d hfree hcap hr =>
    have hsetup := Rib.Data.setup_eq_iff.mp (hfree.setup hcap hr)
    refine ⟨h.reachable.step hr, h.sound, h.ended, h.cleared, fun hs hstart => ?_, fun hf => ?_⟩
    · exact hfree.idle hr (h.quiet hs hstart)
    · exact h.flagged (hsetup.2.2.symm.trans hf)
  | @session i t t' e v ht he hs ht' =>
    obtain ⟨hlive, t'', ht'', hsound, -, hdata⟩ := task_step hs he rfl (h.sound i _ ht)
    rw [ht'] at ht''
    obtain rfl := Option.some.inj ht''
    -- the other tasks are what they were
    have hother : ∀ (n : ℕ) (u : SessionTask), (w.sessions.set i ⟨t', false⟩)[n]? = some u →
        u = ⟨t', false⟩ ∨ w.sessions[n]? = some u := by
      intro n u hu
      rcases getElem?_set_cases hu with ⟨-, rfl⟩ | ⟨-, hu⟩
      · exact Or.inl rfl
      · exact Or.inr hu
    have hself : (w.sessions.set i ⟨t', false⟩)[i]? = some ⟨t', false⟩ := getElem?_set_self_of ht
    refine ⟨?_, fun n u hu => ?_, fun n u hu hend => ?_, h.cleared, fun hstill hstart => ?_,
      fun hf => h.flagged ?_⟩
    · rcases hdata with ⟨hsame, -⟩ | ⟨s, -, hr, -⟩
      · show Rib.sections.Reachable v.data
        rw [hsame]
        exact h.reachable
      · exact h.reachable.step hr
    · rcases hother n u hu with rfl | hu
      · exact hsound
      · exact h.sound n u hu
    · rcases hother n u hu with rfl | hu
      · exact absurd hend Bool.false_ne_true
      · exact h.ended n u hu hend
    · -- the task is at its end, so it has just left the data idle
      have hdead := hstill i _ hself
      rcases hdata with ⟨-, hlive'⟩ | ⟨s, -, hr, ⟨hlive', -⟩ | ⟨-, instant, rfl⟩⟩
      · exact absurd hlive' hdead
      · exact absurd hlive' hdead
      · exact Rib.runEnded_idle hr
    · have hcap : v.data.capturing = w.data.capturing := by
        rcases hdata with ⟨hsame, -⟩ | ⟨s, hsec, hr, -⟩
        · exact congrArg Data.capturing hsame
        · exact (Rib.Data.setup_eq_iff.mp (hsec.frame hc hr).1).2.2
      exact hcap.symm.trans hf
  | @sessionEnds i t ht hdead =>
    -- only a task that has nothing left to do ends
    refine ⟨h.reachable, fun n u hu => ?_, fun n u hu hend => ?_, h.cleared,
      fun hstill hstart => h.quiet (fun n u hu hlive => ?_) hstart, h.flagged⟩
    · rcases getElem?_set_cases hu with ⟨-, rfl⟩ | ⟨-, hu⟩
      · exact h.sound i ⟨t, false⟩ ht
      · exact h.sound n u hu
    · rcases getElem?_set_cases hu with ⟨-, rfl⟩ | ⟨-, hu⟩
      · exact hdead
      · exact h.ended n u hu hend
    · by_cases hn : n = i
      · rw [hn, ht] at hu
        obtain rfl := Option.some.inj hu
        exact hdead hlive
      · refine hstill n u ?_ hlive
        show (w.sessions.set i _)[n]? = some u
        rw [List.getElem?_set_ne (Ne.symm hn)]
        exact hu
  | @captureClears j d ht hr =>
    -- the capture task takes its flag back before it ends
    obtain rfl := Option.some.inj hr
    refine ⟨h.reachable.step hr, h.sound, h.ended, fun n u hu hend => ?_, fun hs hstart => ?_,
      fun hf => absurd hf Bool.false_ne_true⟩
    · rcases getElem?_set_cases hu with ⟨-, rfl⟩ | ⟨-, hu⟩
      · rfl
      · exact h.cleared n u hu hend
    · have hidle := h.quiet hs hstart
      exact ⟨hidle.running, hidle.state, hidle.peerInfo, hidle.routes⟩
  | @captureEnds j ht =>
    refine ⟨h.reachable, h.sound, h.ended, fun n u hu hend => ?_, h.quiet, fun hf => ?_⟩
    · rcases getElem?_set_cases hu with ⟨-, rfl⟩ | ⟨-, hu⟩
      · rfl
      · exact h.cleared n u hu hend
    · refine (h.flagged hf).imp_left ?_
      rintro ⟨n, u, hu, hfalse⟩
      have hn : n ≠ j := by
        rintro rfl
        rw [ht] at hu
        rw [← Option.some.inj hu] at hfalse
        exact absurd hfalse (by simp)
      refine ⟨n, u, ?_, hfalse⟩
      show (w.captures.set j _)[n]? = some u
      rw [List.getElem?_set_ne (Ne.symm hn)]
      exact hu
  | invalid _ => exact h
  | acquires hnone _ =>
    refine h.handles ?_ ?_
    · rintro ⟨config, hs⟩
      rw [hnone] at hs
      exact absurd hs (by simp)
    · rw [hnone]
      simp
  | @takesSession r hst =>
    -- the task that is taken is told to stop, and moves no further by that
    have h' : Inv { w with session := none, holder := some (.joiningSession r w.session) } :=
      h.stage hst (by simp)
    refine ⟨h'.reachable, fun n u hu => ?_, fun n u hu hend => ?_, h'.cleared,
      fun hstill hstart => h'.quiet (fun n u hu => ?_) hstart, h'.flagged⟩
    · obtain ⟨u₀, hu₀, -, -, -, heq | heq⟩ := getElem?_tell hu
      · rw [heq]
        exact h.sound n u₀ hu₀
      · rw [heq]
        exact (h.sound n u₀ hu₀).tell
    · obtain ⟨u₀, hu₀, hended, hplace, htodo, -⟩ := getElem?_tell hu
      have hdead := h.ended n u₀ hu₀ (hended ▸ hend)
      unfold Task.Live at hdead ⊢
      rwa [hplace, htodo]
    · obtain ⟨u', hu', -, hlive⟩ := getElem?_tell_of (i := w.session) hu
      exact fun hl => hstill n u' hu' (hlive.mpr hl)
  | joinsSession hst _ | checks hst _ | refused hst _ | takesCapture hst | joinsCapture hst _
  | prepared hst | fails hst _ => exact h.stage hst (by simp)
  | @writes c s d hst hdoes hr =>
    -- the one section of a request
    have hstart : ¬ w.Starting := by
      rintro ⟨config, hs⟩
      rw [hst] at hs
      exact absurd (Option.some.inj hs) (by simp)
    have hcap : w.holder ≠ some (.spawning .captureStart) := by
      rw [hst]
      simp
    refine ⟨h.reachable.step hr, h.sound, h.ended, h.cleared, fun hs hstart' => ?_, fun hf => ?_⟩
    · cases hdoes with
      | start config instant => exact absurd ⟨config, rfl⟩ hstart'
      | stop instant => exact Rib.stop_idle hr
      | captureStart =>
        have hidle := h.quiet hs hstart
        rw [← Option.some.inj hr]
        exact ⟨hidle.running, hidle.state, hidle.peerInfo, hidle.routes⟩
    · cases hdoes with
      | start config instant | stop instant =>
        rw [← Option.some.inj hr] at hf
        exact Or.inl ((h.flagged hf).resolve_right hcap)
      | captureStart => exact Or.inr rfl
  | @spawnsSession config hst =>
    refine ⟨h.reachable, fun n u hu => ?_, fun n u hu hend => ?_, h.cleared,
      fun hstill _ => ?_, fun hf => Or.inl ((h.flagged hf).resolve_right (by rw [hst]; simp))⟩
    · rcases getElem?_concat_cases hu with ⟨-, rfl⟩ | hu
      · exact .spawned config
      · exact h.sound n u hu
    · rcases getElem?_concat_cases hu with ⟨-, rfl⟩ | hu
      · exact absurd hend Bool.false_ne_true
      · exact h.ended n u hu hend
    · -- the new session is alive
      exact absurd (Or.inl (by simp)) (hstill w.sessions.length _ List.getElem?_concat_length)
  | spawnsCapture hst =>
    refine ⟨h.reachable, h.sound, h.ended, fun n u hu hend => ?_, fun hs _ => h.quiet hs ?_,
      fun _ => Or.inl ⟨w.captures.length, ⟨false, false⟩, List.getElem?_concat_length, rfl⟩⟩
    · rcases getElem?_concat_cases hu with ⟨-, rfl⟩ | hu
      · exact absurd hend Bool.false_ne_true
      · exact h.cleared n u hu hend
    · rintro ⟨config, hs⟩
      rw [hst] at hs
      exact absurd (Option.some.inj hs) (by simp)
  | spawnsNothing hst =>
    refine h.handles ?_ (by rw [hst]; simp)
    rintro ⟨config, hs⟩
    rw [hst] at hs
    exact absurd (Option.some.inj hs) (by simp)
  | @dropped st hst hjoins =>
    refine h.stage hst ?_
    rintro c rfl
    exact hjoins

/-- The invariant holds in every reachable state. -/
theorem control_inv {digest : Bytes → Vector UInt8 20} {w : World}
    (h : (control digest).Reachable w) : Inv w := by
  refine System.Invariant.reachable ⟨?_, ?_⟩ h
  · rintro w ⟨output, rfl⟩
    exact .new output
  · intro w e w' hw hstep
    exact hw.step hstep

end Control

end Session
