import BgpReceiver.Framework.Channels
import BgpReceiver.JsonText
import BgpReceiver.Rib.Lookup

/-!
# The event stream

`App::emit` and the handler `events`, for any number of tasks that change the data and
report what they changed, beside a client that connects at any moment (`events`). A task
is the list of the sections that it goes through; `emit` is one of them, in which an event
goes into the history and onto the channel. The handler subscribes, takes a snapshot and
copies the history in one section, and takes another snapshot whenever it is told that it
lags behind. The channel is a parameter, of which `Broadcast.Delivers` is assumed.

The sections are kept in a log, so that a moment is a number of sections: the data at a
moment is what those sections lead to (`dataAfter`), and the events that are sent are the
reports in the log (`emitted`). The client's stream is read against the log in `Served`:
the snapshot of the moment at which it connected, the history of that moment, and then
receipts that account for every later event exactly once. Where events have been lost
there is a snapshot whose moment is behind all of them (`Resumes`), and so behind what
they report, as a task reports behind its changes (`Logged.earlier`).
-/

namespace Session

/-- `serde_json::to_value` of a configuration; how a delay is rendered is a parameter. -/
def Config.toJson (float : F64 → Json) (config : Config) : Json :=
  .object [("local_as", .num config.localAs.toNat), ("router_id", .str config.routerId.text),
    ("peer_ip", .str config.peerIp.text), ("peer_as", .num config.peerAs.toNat),
    ("hold_time", .num config.holdTime.toNat), ("reconnect_delay", float config.reconnectDelay),
    ("connect_timeout", float config.connectTimeout),
    ("active_retry_delay", float config.activeRetryDelay),
    ("listen_port", .num config.listenPort.toNat),
    ("json_output", (config.jsonOutput.map Json.str).getD .null)]

end Session

namespace Rib

open Broadcast (Receipt Delivers Trace)
open System (getElem?_set_cases getElem?_concat_cases)

/-! ### What is sent -/

/-- `snapshot`. -/
def Data.snapshot (float : Session.F64 → Json) (ts : String) (d : Data) : Json :=
  let status := (d.config.map (Session.Config.toJson float)).getD (.object [])
  let status := status.set "running" (.bool d.running)
  let status := status.set "state" (.str d.state.text)
  let status := status.set "peer_info" d.peerInfo
  let status := status.set "capture_running" (.bool d.capturing)
  .object [("ts", .str ts), ("type", .str "snapshot"), ("level", .str "info"),
    ("message", .str "snapshot"), ("status", status), ("stats", d.stats)]

/-- The text of a replayed event: a flag goes in before the brace at its end. -/
def replayText (event : String) : String :=
  String.ofList event.toList.dropLast ++ ",\"replayed\":true\x7d"

/-- What a client is sent. A live event goes by its number among the events since the
client subscribed, and a snapshot by the moment at which it was taken; one that was taken
because the client lags also has the numbers between which events were lost. -/
inductive Item where
  | snapshot (moment : ℕ) (text : String)
  | replayed (event : String)
  | live (i : ℕ) (event : String)
  | resumed (i k moment : ℕ) (text : String)

/-- The data of a server-sent event. -/
def Item.data : Item → String
  | snapshot _ text => text
  | replayed event => replayText event
  | live _ event => event
  | resumed _ _ _ text => text

/-- What the client was given by the channel. -/
def Item.receipt : Item → Option (Receipt String)
  | live i event => some (.value i event)
  | resumed i k _ _ => some (.lagged i k)
  | _ => none

/-! ### The tasks -/

/-- The events are texts that `emit` makes. -/
def Section.Serialized : Section → Prop
  | .record event => ∃ ts kind level message extra, event = eventText ts kind level message extra
  | _ => True

/-- A task, and how many of its sections are behind it. -/
structure Task where
  program : List Section
  done : ℕ

/-- A section that has been gone through: by which task, and as which of its sections. -/
structure Entry where
  task : ℕ
  position : ℕ
  sect : Section

/-- The event of a section. -/
def Entry.event (e : Entry) : Option String :=
  match e.sect with
  | .record event => some event
  | _ => none

/-- The events of some sections. -/
def emitted (log : List Entry) : List String := log.filterMap Entry.event

/-- The data behind some sections. -/
def dataAfter (output : Option String) (log : List Entry) : Option Data :=
  log.foldlM (fun d e => e.sect.run d) (Data.new output)

/-! ### The client -/

/-- Where the stream of a client is: it has some items left from the beginning and reads
from the channel behind them, it has been told that events are lost, or it is over. -/
inductive Stage where
  | reading (pending : List Item)
  | resuming (i k : ℕ)
  | ended

/-- What has been taken from the queue of the client and has not been sent. -/
def Stage.pending : Stage → List Item
  | reading pending => pending
  | _ => []

/-- A client: the moment at which it connected, what it has been sent, and its receiver. -/
structure Client where
  moment : ℕ
  stream : List Item
  cursor : ℕ
  stage : Stage

/-- The first event that the stream does not account for. -/
def Client.seen (c : Client) : ℕ :=
  match c.stage with
  | .resuming i _ => i
  | _ => c.cursor

/-- The data with their log, the tasks and one client. -/
structure World where
  data : Data
  log : List Entry
  tasks : List Task
  client : Option Client

/-- The events that were sent since the client subscribed. -/
def World.sent (w : World) (c : Client) : List String := emitted (w.log.drop c.moment)

/-- What the stream of the client does next. -/
inductive ClientEvent where
  | yield
  | receive
  | resume (ts : String)
  | close

/-- A new task, a section of one, a client that connects, or a step of its stream. -/
inductive Event where
  | spawn (program : List Section)
  | task (i : ℕ)
  | connect (ts : String)
  | client (e : ClientEvent)

section Events

variable (output : Option String) (float : Session.F64 → Json)
  (receives : List String → ℕ → Receipt String → Prop)

/-- The stream in the handler. -/
inductive ClientStep (w : World) (c : Client) : ClientEvent → Client → Prop
  | yield {item : Item} {pending : List Item} : c.stage = .reading (item :: pending) →
      ClientStep w c .yield { c with stream := c.stream ++ [item], stage := .reading pending }
  | value {i : ℕ} {event : String} : c.stage = .reading [] →
      receives (w.sent c) c.cursor (.value i event) →
      ClientStep w c .receive { c with stream := c.stream ++ [.live i event], cursor := i + 1 }
  | lagged {i k : ℕ} : c.stage = .reading [] → receives (w.sent c) c.cursor (.lagged i k) →
      ClientStep w c .receive { c with cursor := k, stage := .resuming i k }
  | resume {i k : ℕ} {ts : String} : c.stage = .resuming i k →
      ClientStep w c (.resume ts) { c with
        stream := c.stream ++ [.resumed i k w.log.length (w.data.snapshot float ts).text]
        stage := .reading [] }
  | close : c.stage = .reading [] → ClientStep w c .close { c with stage := .ended }

/-- The client of a handler that has just left its section. -/
def World.subscribe (w : World) (ts : String) : Client where
  moment := w.log.length
  stream := []
  cursor := 0
  stage := .reading (.snapshot w.log.length (w.data.snapshot float ts).text
    :: w.data.history.map .replayed)

/-- Sections come one at a time, since they hold the lock. An event is sent in the section that
records it. -/
inductive Step : World → Event → World → Prop
  | spawn {w : World} {program : List Section} : (∀ s ∈ program, s.Serialized) →
      Step w (.spawn program) { w with tasks := w.tasks ++ [⟨program, 0⟩] }
  | task {w : World} {i : ℕ} {t : Task} {s : Section} {d : Data} : w.tasks[i]? = some t →
      t.program[t.done]? = some s → s.run w.data = some d →
      Step w (.task i) { w with
        data := d
        log := w.log ++ [⟨i, t.done, s⟩]
        tasks := w.tasks.set i { t with done := t.done + 1 } }
  | connect {w : World} {ts : String} : w.client = none →
      Step w (.connect ts) { w with client := some (w.subscribe float ts) }
  | client {w : World} {c c' : Client} {e : ClientEvent} : w.client = some c →
      ClientStep float receives w c e c' → Step w (.client e) { w with client := some c' }

/-- The tasks and the client. -/
def events : System World Event where
  init := fun w => w = ⟨Data.new output, [], [], none⟩
  step := Step float receives

end Events

/-! ### The flag of a replayed event -/

/-- The text of an event is that of an object that has members. -/
theorem eventText_eq (ts kind level message : String) (extra : List (String × Json)) :
    ∃ fields, fields ≠ [] ∧ eventText ts kind level message extra = (Json.obj fields).text := by
  refine ⟨_, ?_, rfl⟩
  rcases List.eq_nil_or_concat' ([("ts", Json.str ts), ("type", .str kind), ("level", .str level),
    ("message", .str message)] ++ extra) with hnil | ⟨init, last, hlast⟩
  · exact absurd hnil (by simp)
  · rw [hlast, List.foldl_append]
    exact Entries.insert_ne_nil _ _ _

/-- **A replayed event is the event with a member more.** -/
theorem replayText_eq {fields : List (String × Json)} (hne : fields ≠ []) :
    replayText (Json.obj fields).text
      = (Json.obj (fields ++ [("replayed", .bool true)])).text := by
  -- the closing brace goes and the marker comes in its place
  have hcut : ∀ middle : String, replayText ("\x7b" ++ middle ++ "\x7d")
      = "\x7b" ++ middle ++ ",\"replayed\":true\x7d" := by
    intro middle
    refine String.toList_inj.mp ?_
    rw [replayText, String.toList_append, String.toList_ofList, String.toList_append,
      String.toList_append, show "\x7d".toList = ['}'] from rfl, List.dropLast_concat,
      String.toList_append, String.toList_append]
  rw [Json.text, hcut, Json.text, Json.fieldTexts_eq, Json.fieldTexts_eq, List.map_append,
    String.intercalate_append_of_ne_nil (by simpa using hne) (by simp), List.map_singleton,
    String.intercalate_singleton, show Json.quote "replayed" ++ ":" ++ (Json.bool true).text
      = "\"replayed\":true" by decide]
  simp only [String.append_assoc]
  rfl

/-! ### The log -/

/-- A section leaves the history a part of what has been reported. -/
theorem Section.run_history {d d' : Data} (h : Consistent d) {s : Section} (hr : s.run d = some d')
    (task position : ℕ) :
    d'.history.Sublist (d.history ++ emitted [⟨task, position, s⟩]) := by
  have hkept : d.history.Sublist (d.history ++ emitted [⟨task, position, s⟩]) :=
    List.sublist_append_left _ _
  cases s with
  | record event =>
    change d.record event = some d' at hr
    unfold Data.record at hr
    split_ifs at hr with hfits
    -- what is evicted is at the front
    · obtain ⟨history, bytes, he, htail, -⟩ := evict_spec hfits h.recorded.bytes
      rw [he] at hr
      obtain rfl := Option.some.inj hr
      exact htail.suffix.sublist.append (List.Sublist.refl _)
    · -- an event that is too long is sent, but not kept
      obtain rfl := Option.some.inj hr
      exact hkept
  | route op instant =>
    obtain ⟨⟨d'', existed⟩, hr', rfl⟩ := Option.map_eq_some_iff.mp hr
    -- a route leaves the history alone
    obtain ⟨_, _, _, _, _, _, rfl⟩ := applyRoute_frame h hr'
    exact hkept
  | stop | clearHistory =>
    obtain rfl := Option.some.inj hr
    exact List.nil_sublist _
  | _ =>
    obtain rfl := Option.some.inj hr
    exact hkept

/-- The events of a log are those of its parts. -/
theorem emitted_append (log log' : List Entry) :
    emitted (log ++ log') = emitted log ++ emitted log' :=
  List.filterMap_append

/-- The log accounts for the data and the tasks. -/
structure Logged (output : Option String) (w : World) : Prop where
  data : dataAfter output w.log = some w.data
  consistent : Consistent w.data
  history : w.data.history.Sublist (emitted w.log)
  serialized : ∀ e ∈ w.log, e.sect.Serialized
  programs : ∀ t ∈ w.tasks, ∀ s ∈ t.program, s.Serialized
  known : ∀ e ∈ w.log, e.task < w.tasks.length
  /-- What a task has done is in the log. -/
  done : ∀ (i : ℕ) (t : Task), w.tasks[i]? = some t → ∀ q s, q < t.done →
    t.program[q]? = some s → ⟨i, q, s⟩ ∈ w.log
  /-- What a task did before one of its sections is in the log before it. -/
  earlier : ∀ (n : ℕ) (e : Entry) (t : Task), w.log[n]? = some e → w.tasks[e.task]? = some t →
    ∀ q s, q < e.position → t.program[q]? = some s → ⟨e.task, q, s⟩ ∈ w.log.take n

theorem Logged.init (output : Option String) : Logged output ⟨Data.new output, [], [], none⟩ where
  data := rfl
  consistent := new_consistent output
  history := List.nil_sublist _
  serialized := fun _ he => absurd he List.not_mem_nil
  programs := fun _ ht => absurd ht List.not_mem_nil
  known := fun _ he => absurd he List.not_mem_nil
  done := fun _ _ ht => absurd ht (by simp)
  earlier := fun _ _ _ he => absurd he (by simp)

theorem Logged.spawn {output : Option String} {w : World} (h : Logged output w)
    {program : List Section} (hp : ∀ s ∈ program, s.Serialized) :
    Logged output { w with tasks := w.tasks ++ [⟨program, 0⟩] } where
  data := h.data
  consistent := h.consistent
  history := h.history
  serialized := h.serialized
  programs := by
    intro t ht
    rcases List.mem_append.mp ht with ht | ht
    · exact h.programs t ht
    · rw [List.mem_singleton.mp ht]
      exact hp
  -- no task changes its number
  known := fun e he => (h.known e he).trans_le (by simp)
  -- the new task has no section behind it
  done := by
    intro i t ht q s hq hs
    rcases getElem?_concat_cases ht with ⟨-, rfl⟩ | ht
    · exact absurd hq (Nat.not_lt_zero q)
    · exact h.done i t ht q s hq hs
  earlier := by
    intro n e t he ht
    rw [List.getElem?_append_left (h.known e (List.mem_of_getElem? he))] at ht
    exact h.earlier n e t he ht

/-- A section that is run is logged, and the data are those behind the log. -/
theorem Logged.task {output : Option String} {w : World} (h : Logged output w) {i : ℕ} {t : Task}
    {s : Section} {d : Data} (ht : w.tasks[i]? = some t) (hs : t.program[t.done]? = some s)
    (hr : s.run w.data = some d) :
    Logged output { w with
      data := d
      log := w.log ++ [⟨i, t.done, s⟩]
      tasks := w.tasks.set i { t with done := t.done + 1 } } where
  -- the log with one more section is a run with one more
  data := by
    rw [dataAfter, List.foldlM_append, ← dataAfter, h.data]
    simpa using hr
  consistent := by
    obtain ⟨d', hr', hd'⟩ := s.run_consistent h.consistent
    rw [hr] at hr'
    rwa [Option.some.inj hr']
  history := by
    rw [emitted_append]
    exact (Section.run_history h.consistent hr i t.done).trans
      (h.history.append (List.Sublist.refl _))
  serialized := by
    intro e he
    rcases List.mem_append.mp he with he | he
    · exact h.serialized e he
    · rw [List.mem_singleton.mp he]
      exact h.programs t (List.mem_of_getElem? ht) s (List.mem_of_getElem? hs)
  programs := by
    intro t' ht'
    rcases List.mem_or_eq_of_mem_set ht' with ht' | rfl
    · exact h.programs t' ht'
    · exact h.programs t (List.mem_of_getElem? ht)
  known := by
    intro e he
    rw [List.length_set]
    rcases List.mem_append.mp he with he | he
    · exact h.known e he
    · rw [List.mem_singleton.mp he]
      exact (List.getElem?_eq_some_iff.mp ht).1
  -- the sections that a task has done are in the log: its last one now, the others before
  done := by
    intro j t' ht' q s' hq hs'
    rcases getElem?_set_cases ht' with ⟨rfl, rfl⟩ | ⟨-, ht'⟩
    · rcases Nat.lt_succ_iff_lt_or_eq.mp hq with hq | rfl
      · exact List.mem_append_left _ (h.done j t ht q s' hq hs')
      · rw [show t.program[t.done]? = some s' from hs'] at hs
        rw [Option.some.inj hs]
        exact List.mem_append_right _ (List.mem_singleton_self _)
    · exact List.mem_append_left _ (h.done j t' ht' q s' hq hs')
  earlier := by
    intro n e t' he ht' q s' hq hs'
    -- the task of the section has the program that it had
    obtain ⟨t₀, ht₀, hprogram⟩ : ∃ t₀, w.tasks[e.task]? = some t₀ ∧ t'.program = t₀.program := by
      rcases getElem?_set_cases ht' with ⟨heq, rfl⟩ | ⟨-, ht'⟩
      · exact ⟨t, by rw [heq]; exact ht, rfl⟩
      · exact ⟨t', ht', rfl⟩
    rw [hprogram] at hs'
    -- what is in front of the new entry is the whole log of before
    rcases getElem?_concat_cases he with ⟨rfl, rfl⟩ | he
    · rw [List.take_append_of_le_length le_rfl, List.take_length]
      rw [show w.tasks[i]? = some t₀ from ht₀] at ht
      obtain rfl := Option.some.inj ht
      exact h.done i t₀ ht₀ q s' hq hs'
    · rw [List.take_append_of_le_length (List.getElem?_eq_some_iff.mp he).1.le]
      exact h.earlier n e t₀ he ht₀ q s' hq hs'

/-! ### The stream of a client -/

/-- How the stream of a client stands to the log: it begins with a snapshot and the
history of a moment, and `tail` comes behind them. -/
structure Follows (output : Option String) (float : Session.F64 → Json) (log : List Entry)
    (c : Client) (d : Data) (ts : String) (tail : List Item) : Prop where
  moment : c.moment ≤ log.length
  instant : dataAfter output (log.take c.moment) = some d
  history : d.history.Sublist (emitted (log.take c.moment))
  serialized : ∀ e ∈ log.take c.moment, e.sect.Serialized
  stream : c.stream ++ c.stage.pending
    = .snapshot c.moment (d.snapshot float ts).text :: d.history.map .replayed ++ tail
  opened : c.stage.pending ≠ [] → tail = []
  receipts : ∀ x ∈ tail, x.receipt.isSome = true
  trace : Trace (emitted (log.drop c.moment)) (tail.filterMap Item.receipt) c.seen
  lag : ∀ i k, c.stage = .resuming i k →
    i < k ∧ k = c.cursor ∧ k ≤ (emitted (log.drop c.moment)).length
  resumed : ∀ i k m text, Item.resumed i k m text ∈ tail → c.moment ≤ m ∧ m ≤ log.length ∧
    k ≤ (emitted ((log.take m).drop c.moment)).length ∧
    ∃ d ts, dataAfter output (log.take m) = some d ∧ text = (d.snapshot float ts).text

namespace Follows

variable {output : Option String} {float : Session.F64 → Json} {log : List Entry} {c : Client}
  {d : Data} {ts : String} {tail : List Item}

/-- The stream is as it was when a task goes on. -/
theorem extend (h : Follows output float log c d ts tail) (e : Entry) :
    Follows output float (log ++ [e]) c d ts tail := by
  -- what the client saw when it came is a prefix of the log, and a prefix stays
  have htake : ∀ m ≤ log.length, (log ++ [e]).take m = log.take m := fun m hm =>
    List.take_append_of_le_length hm
  -- what has been sent since is one receipt longer, or as long
  have hsent : emitted ((log ++ [e]).drop c.moment)
      = emitted (log.drop c.moment) ++ emitted [e] := by
    rw [List.drop_append_of_le_length h.moment, emitted_append]
  refine ⟨h.moment.trans (by simp), ?_, ?_, ?_, h.stream, h.opened, h.receipts, ?_, ?_, ?_⟩
  · rw [htake _ h.moment]
    exact h.instant
  · rw [htake _ h.moment]
    exact h.history
  · rw [htake _ h.moment]
    exact h.serialized
  · rw [hsent]
    exact h.trace.mono _
  · intro i k hstage
    obtain ⟨hik, hcursor, hk⟩ := h.lag i k hstage
    rw [hsent, List.length_append]
    exact ⟨hik, hcursor, hk.trans (Nat.le_add_right _ _)⟩
  · intro i k m text hmem
    obtain ⟨hm, hlog, hk, hd⟩ := h.resumed i k m text hmem
    rw [htake m hlog]
    exact ⟨hm, hlog.trans (by simp), hk, hd⟩

/-- One of the items from the beginning is sent. -/
theorem yield (h : Follows output float log c d ts tail) {item : Item} {pending : List Item}
    (hstage : c.stage = .reading (item :: pending)) :
    Follows output float log { c with stream := c.stream ++ [item], stage := .reading pending } d ts
      tail := by
  have hseen : c.seen = c.cursor := by rw [Client.seen, hstage]
  have htail : tail = [] := h.opened (by rw [hstage]; exact List.cons_ne_nil _ _)
  refine ⟨h.moment, h.instant, h.history, h.serialized, ?_, fun _ => htail, h.receipts, ?_,
    fun _ _ h => absurd h (by simp), h.resumed⟩
  · rw [← h.stream, hstage]
    exact List.append_assoc _ _ _
  · rw [← show c.seen = c.cursor from hseen]
    exact h.trace

/-- What comes behind the beginning goes to the end of the tail. -/
theorem stream_concat (h : Follows output float log c d ts tail) (hpending : c.stage.pending = [])
    (item : Item) : (c.stream ++ [item]) ++ []
      = .snapshot c.moment (d.snapshot float ts).text :: d.history.map .replayed
        ++ (tail ++ [item]) := by
  have hstream := h.stream
  rw [hpending, List.append_nil] at hstream
  rw [List.append_nil, hstream, List.append_assoc]

/-- An item that the channel has given comes behind others that it has given. -/
theorem receipts_concat (h : Follows output float log c d ts tail) {item : Item}
    (hitem : item.receipt.isSome = true) : ∀ x ∈ tail ++ [item], x.receipt.isSome = true := by
  intro x hx
  rcases List.mem_append.mp hx with hx | hx
  · exact h.receipts x hx
  · rwa [List.mem_singleton.mp hx]

/-- A live event is sent. -/
theorem value (h : Follows output float log c d ts tail) (hstage : c.stage = .reading [])
    {event : String} (hget : (emitted (log.drop c.moment))[c.cursor]? = some event) :
    Follows output float log
      { c with stream := c.stream ++ [.live c.cursor event], cursor := c.cursor + 1 } d ts
      (tail ++ [.live c.cursor event]) := by
  -- the stage is a plain reading, so the client has seen all up to its cursor
  have hseen : c.seen = c.cursor := by rw [Client.seen, hstage]
  have htrace := h.trace
  rw [hseen] at htrace
  refine ⟨h.moment, h.instant, h.history, h.serialized, ?_, ?_, h.receipts_concat rfl, ?_, ?_, ?_⟩
  · change (c.stream ++ [Item.live c.cursor event]) ++ c.stage.pending = _
    rw [hstage]
    exact h.stream_concat (by rw [hstage]; rfl) _
  · intro hp
    rw [show c.stage = .reading [] from hstage] at hp
    exact absurd rfl hp
  · rw [List.filterMap_append, Client.seen, show c.stage = .reading [] from hstage]
    exact htrace.value hget
  · intro i k hst
    rw [show c.stage = .reading [] from hstage] at hst
    exact absurd hst (by simp)
  · intro i k m text hmem
    rcases List.mem_append.mp hmem with hmem | hmem
    · exact h.resumed i k m text hmem
    · cases List.mem_singleton.mp hmem

/-- The client is told that events are lost. -/
theorem lagged (h : Follows output float log c d ts tail) (hstage : c.stage = .reading []) {k : ℕ}
    (hk : c.cursor < k) (hlen : k ≤ (emitted (log.drop c.moment)).length) :
    Follows output float log { c with cursor := k, stage := .resuming c.cursor k } d ts tail := by
  -- the client has seen what is in front of its cursor
  have hseen : c.seen = c.cursor := by rw [Client.seen, hstage]
  refine ⟨h.moment, h.instant, h.history, h.serialized, ?_, fun hp => absurd rfl hp, h.receipts,
    ?_, ?_, h.resumed⟩
  · rw [← h.stream, hstage]
    rfl
  · rw [show Client.seen { c with cursor := k, stage := .resuming c.cursor k } = c.seen from
      hseen.symm]
    exact h.trace
  · intro i k' hst
    obtain ⟨rfl, rfl⟩ := Stage.resuming.inj hst
    exact ⟨hk, rfl, hlen⟩

/-- A snapshot is sent in place of the events that are lost. -/
theorem resume (h : Follows output float log c d ts tail) {i k : ℕ}
    (hstage : c.stage = .resuming i k) {d' : Data} (hd : dataAfter output log = some d')
    (ts' : String) :
    Follows output float log { c with
      stream := c.stream ++ [.resumed i k log.length (d'.snapshot float ts').text]
      stage := .reading [] } d ts
      (tail ++ [.resumed i k log.length (d'.snapshot float ts').text]) := by
  -- the client has seen what came before the events it lost
  have hseen : c.seen = i := by rw [Client.seen, hstage]
  obtain ⟨hik, rfl, hlen⟩ := h.lag i k hstage
  have htrace := h.trace
  rw [hseen] at htrace
  refine ⟨h.moment, h.instant, h.history, h.serialized, ?_, fun hp => absurd rfl hp,
    h.receipts_concat rfl, ?_, fun _ _ h => absurd h (by simp), ?_⟩
  · exact h.stream_concat (by rw [hstage]; rfl) _
  · rw [List.filterMap_append]
    exact htrace.lagged hik hlen
  · intro i' k' m text hmem
    rcases List.mem_append.mp hmem with hmem | hmem
    · exact h.resumed i' k' m text hmem
    · obtain ⟨rfl, rfl, rfl, rfl⟩ := Item.resumed.inj (List.mem_singleton.mp hmem)
      rw [List.take_length]
      exact ⟨h.moment, le_rfl, hlen, d', ts', hd, rfl⟩

/-- The stream is over. -/
theorem close (h : Follows output float log c d ts tail) (hstage : c.stage = .reading []) :
    Follows output float log { c with stage := .ended } d ts tail := by
  have hseen : c.seen = c.cursor := by rw [Client.seen, hstage]
  refine ⟨h.moment, h.instant, h.history, h.serialized, ?_, fun hp => absurd rfl hp, h.receipts,
    ?_, fun _ _ h => absurd h (by simp), h.resumed⟩
  · rw [← h.stream, hstage]
    rfl
  · rw [show Client.seen { c with stage := .ended } = c.seen from hseen.symm]
    exact h.trace

end Follows

/-! ### Every run -/

/-- `broadcast::channel(64)` -/
def eventSlots : ℕ := 64

section Runs

variable {output : Option String} {float : Session.F64 → Json}
  {receives : List String → ℕ → Receipt String → Prop}

/-- A client that has just subscribed. -/
theorem Logged.subscribe {w : World} (h : Logged output w) (ts : String) :
    Follows output float w.log (w.subscribe float ts) w.data ts [] where
  -- the snapshot of the client is of this moment, so all that has been logged is in it
  moment := le_rfl
  instant := by
    rw [World.subscribe, List.take_length]
    exact h.data
  history := by
    rw [World.subscribe, List.take_length]
    exact h.history
  serialized := by
    rw [World.subscribe, List.take_length]
    exact h.serialized
  stream := (List.append_nil _).symm
  opened := fun _ => rfl
  receipts := fun _ hx => absurd hx List.not_mem_nil
  trace := .nil
  lag := fun _ _ hst => absurd hst (by simp [World.subscribe])
  resumed := fun _ _ _ _ hmem => absurd hmem List.not_mem_nil

/-- One step of the stream. -/
theorem Follows.step (hdel : Delivers eventSlots receives) {w : World} (hw : Logged output w)
    {c c' : Client} {e : ClientEvent} {d : Data} {ts : String} {tail : List Item}
    (h : Follows output float w.log c d ts tail) (hstep : ClientStep float receives w c e c') :
    ∃ tail', Follows output float w.log c' d ts tail' := by
  cases hstep with
  | yield hstage => exact ⟨tail, h.yield hstage⟩
  | value hstage hrecv =>
    obtain ⟨rfl, hget⟩ := hdel.value _ _ _ _ hrecv
    exact ⟨_, h.value hstage hget⟩
  | lagged hstage hrecv =>
    obtain ⟨rfl, hk, hlen⟩ := hdel.lagged _ _ _ _ hrecv
    exact ⟨tail, h.lagged hstage hk (hlen ▸ Nat.le_add_right _ _)⟩
  | resume hstage => exact ⟨_, h.resume hstage hw.data _⟩
  | close hstage => exact ⟨tail, h.close hstage⟩

/-- **In every run the log accounts for the data, and the client follows the log.** -/
theorem events_inv (hdel : Delivers eventSlots receives) {w : World}
    (h : (events output float receives).Reachable w) :
    Logged output w ∧
      ∀ c, w.client = some c → ∃ d ts tail, Follows output float w.log c d ts tail := by
  refine System.Invariant.reachable
    (P := fun w => Logged output w ∧
      ∀ c, w.client = some c → ∃ d ts tail, Follows output float w.log c d ts tail)
    ⟨?_, ?_⟩ h
  · rintro w rfl
    exact ⟨Logged.init output, fun c hc => absurd hc (by simp)⟩
  · rintro w e w' ⟨hw, hclient⟩ hstep
    cases hstep with
    | spawn hp => exact ⟨hw.spawn hp, hclient⟩
    | task ht hs hr =>
      -- what the log has gained is behind what the client has been sent
      refine ⟨hw.task ht hs hr, fun c hc => ?_⟩
      obtain ⟨d, ts, tail, hf⟩ := hclient c hc
      exact ⟨d, ts, tail, hf.extend _⟩
    | @connect ts _ =>
      refine ⟨⟨hw.data, hw.consistent, hw.history, hw.serialized, hw.programs, hw.known, hw.done,
        hw.earlier⟩, fun c hc => ?_⟩
      obtain rfl := Option.some.inj hc
      exact ⟨_, ts, _, hw.subscribe ts⟩
    | @client c c' e hc hstep =>
      refine ⟨⟨hw.data, hw.consistent, hw.history, hw.serialized, hw.programs, hw.known, hw.done,
        hw.earlier⟩, fun c'' hc'' => ?_⟩
      obtain rfl := Option.some.inj hc''
      obtain ⟨d, ts, tail, hf⟩ := hclient c hc
      -- a step of the client is on its own part of the state
      obtain ⟨tail', hf'⟩ := hf.step hdel hw hstep
      exact ⟨d, ts, tail', hf'⟩

end Runs

/-! ### What a client sees -/

/-- The number of events between two moments. -/
def eventsBetween (log : List Entry) (m n : ℕ) : ℕ := (emitted ((log.take n).drop m)).length

/-- A snapshot that is sent in place of the events from one number to another: it is the
data of a moment behind each of these events, and behind all that was done before by the
task that sent the event. -/
structure Resumes (output : Option String) (float : Session.F64 → Json) (w : World) (c : Client)
    (i k m : ℕ) (text : String) : Prop where
  moment : c.moment ≤ m ∧ m ≤ w.log.length
  snapshot : ∃ d ts, dataAfter output (w.log.take m) = some d ∧ text = (d.snapshot float ts).text
  later : ∀ (n : ℕ) (e : Entry) (event : String), w.log[n]? = some e → e.event = some event →
    i ≤ eventsBetween w.log c.moment n → eventsBetween w.log c.moment n < k →
    n < m ∧ ∀ (t : Task) (q : ℕ) (s : Section), w.tasks[e.task]? = some t → q < e.position →
      t.program[q]? = some s → ⟨e.task, q, s⟩ ∈ w.log.take m

/-- **What the stream of a client is**: a snapshot, the history of the same moment, and a
tail that accounts for the events behind that moment. -/
structure Served (output : Option String) (float : Session.F64 → Json) (w : World) (c : Client)
    (d : Data) (ts : String) (tail : List Item) : Prop where
  instant : dataAfter output (w.log.take c.moment) = some d
  stream : c.stream ++ c.stage.pending
    = .snapshot c.moment (d.snapshot float ts).text :: d.history.map .replayed ++ tail
  /-- Nothing is read from the channel before the beginning has been sent. -/
  opened : c.stage.pending ≠ [] → tail = []
  /-- What is replayed was sent before. -/
  replayed : d.history.Sublist (emitted (w.log.take c.moment))
  flagged : ∀ event ∈ d.history, ∃ fields, event = (Json.obj fields).text ∧
    (Item.replayed event).data = (Json.obj (fields ++ [("replayed", .bool true)])).text
  received : ∀ x ∈ tail, (∃ i event, x = .live i event ∧ (w.sent c)[i]? = some event) ∨
    ∃ i k m text, x = .resumed i k m text ∧ Resumes output float w c i k m text
  ordered : (tail.filterMap Item.receipt).Pairwise fun r r' => r.next ≤ r'.start
  /-- Every event that the stream has come to is accounted for exactly once. -/
  once : ∀ n, (tail.filterMap Item.receipt).countP (fun r => r.Covers n)
    = if n < c.seen then 1 else 0

/-- A later moment has seen no fewer events. -/
theorem eventsBetween_mono (log : List Entry) (m : ℕ) {n n' : ℕ} (h : n ≤ n') :
    eventsBetween log m n ≤ eventsBetween log m n' := by
  have hsub : (log.take n).Sublist (log.take n') := (List.take_prefix_take_left h).sublist
  exact (List.Sublist.filterMap _ (hsub.drop m)).length_le

section Clients

variable {output : Option String} {float : Session.F64 → Json}
  {receives : List String → ℕ → Receipt String → Prop}

/-- The events of a log are texts of objects. -/
theorem serialized_emitted {log : List Entry} (h : ∀ e ∈ log, e.sect.Serialized) :
    ∀ event ∈ emitted log, ∃ fields, fields ≠ [] ∧ event = (Json.obj fields).text := by
  intro event hevent
  obtain ⟨e, he, hev⟩ := List.mem_filterMap.mp hevent
  have hser := h e he
  unfold Entry.event at hev
  -- only a section that records sends something
  cases hs : e.sect with
  | record event' =>
    rw [hs] at hev hser
    obtain ⟨ts, kind, level, message, extra, heq⟩ := hser
    obtain ⟨fields, hne, htext⟩ := eventText_eq ts kind level message extra
    exact ⟨fields, hne, by rw [← Option.some.inj hev, heq, htext]⟩
  | _ =>
    rw [hs] at hev
    cases hev

/-- A client that has lost events was sent the table of a moment behind them. -/
theorem Follows.resumes {w : World} (hw : Logged output w) {c : Client} {d : Data} {ts : String}
    {tail : List Item} (h : Follows output float w.log c d ts tail) {i k m : ℕ} {text : String}
    (hmem : Item.resumed i k m text ∈ tail) : Resumes output float w c i k m text := by
  obtain ⟨hm, hlog, hk, hd⟩ := h.resumed i k m text hmem
  refine ⟨⟨hm, hlog⟩, hd, ?_⟩
  intro n e event he _ _ hlt
  have hn : n < m := by
    by_contra hmn
    have hle := eventsBetween_mono w.log c.moment (Nat.le_of_not_lt hmn)
    exact absurd hlt (Nat.not_lt.mpr (hk.trans hle))
  refine ⟨hn, fun t q s ht hq hs => ?_⟩
  exact (List.take_prefix_take_left hn.le).subset (hw.earlier n e t he ht q s hq hs)

/-- **Every client sees every event once, or a newer snapshot.** -/
theorem events_served (hdel : Delivers eventSlots receives) {w : World}
    (h : (events output float receives).Reachable w) {c : Client} (hc : w.client = some c) :
    ∃ d ts tail, Served output float w c d ts tail := by
  -- both invariants hold, that of the log and that of the client
  obtain ⟨hw, hclient⟩ := events_inv hdel h
  obtain ⟨d, ts, tail, hf⟩ := hclient c hc
  refine ⟨d, ts, tail, hf.instant, hf.stream, hf.opened, hf.history, ?_, ?_, hf.trace.pairwise,
    hf.trace.countP_covers⟩
  · -- what is replayed is what was recorded, with its mark
    intro event hevent
    obtain ⟨fields, hne, rfl⟩ := serialized_emitted hf.serialized event (hf.history.subset hevent)
    exact ⟨fields, rfl, replayText_eq hne⟩
  · intro x hx
    -- behind the replay every item is one that the channel gave
    have hreceipt := hf.receipts x hx
    cases x with
    | snapshot | replayed => cases hreceipt
    | live i event =>
      exact Or.inl ⟨i, event, rfl,
        hf.trace.getElem?_of_mem (List.mem_filterMap.mpr ⟨_, hx, rfl⟩)⟩
    | resumed i k m text => exact Or.inr ⟨i, k, m, text, rfl, hf.resumes hw hx⟩

end Clients

/-- What `set_state` does. -/
def setStateProgram (state : SessionState) (ts : String) (running : Bool) : List Section :=
  [.setState state, .record (eventText ts "session" "info" ("State: " ++ state.text)
    [("state", .str state.text), ("running", .bool running)])]

/-- A task that reports one event again and again can go on. -/
theorem exists_reports {output : Option String} {float : Session.F64 → Json}
    {receives : List String → ℕ → Receipt String → Prop} (hdel : Delivers eventSlots receives)
    {event : String} {m : ℕ} {w : World} (h : (events output float receives).Reachable w) {i : ℕ}
    (ht : w.tasks[i]? = some ⟨List.replicate m (.record event), 0⟩) {n : ℕ} (hn : n ≤ m) :
    ∃ w' log, (events output float receives).Reachable w' ∧ w'.client = w.client ∧
      w'.tasks[i]? = some ⟨List.replicate m (.record event), n⟩ ∧ w'.log = w.log ++ log ∧
      emitted log = List.replicate n event := by
  -- by induction on the number of reports that have been made
  induction n with
  | zero => exact ⟨w, [], h, rfl, ht, (List.append_nil _).symm, rfl⟩
  | succ n ih =>
    obtain ⟨w', log, h', hclient, ht', hlog, hemitted⟩ := ih (Nat.le_of_succ_le hn)
    have hs : (List.replicate m (Section.record event))[n]? = some (.record event) := by
      rw [List.getElem?_replicate, if_pos (Nat.lt_of_succ_le hn)]
    obtain ⟨hw, -⟩ := events_inv hdel h'
    obtain ⟨d, hr, -⟩ := (Section.record event).run_consistent hw.consistent
    have hi : i < w'.tasks.length := (List.getElem?_eq_some_iff.mp ht').1
    refine ⟨_, log ++ [⟨i, n, .record event⟩], h'.step (Step.task ht' hs hr), hclient, ?_, ?_, ?_⟩
    · exact List.getElem?_set_self hi
    · rw [hlog, List.append_assoc]
    · rw [emitted_append, hemitted, List.replicate_succ']
      rfl

/-- A client that connects after a change and before its event, and is late for the next events:
it is told that three are lost, is sent a snapshot in their place, and goes on behind them. -/
theorem events_served_between :
    ∃ w c m text event, w.client = some c ∧ .resumed 0 3 m text ∈ c.stream ∧
      .live 3 event ∈ c.stream ∧ ∃ d ts tail, Served none (fun _ => .null) w c d ts tail := by
  let receives : List String → ℕ → Receipt String → Prop :=
    fun sent next r => Broadcast.receive eventSlots sent next = some r
  have hdel : Delivers eventSlots receives := Broadcast.delivers_receive eventSlots
  let program := setStateProgram .connect "t" false
  -- a change of the state, and then the event that tells of it
  have hprogram : ∀ s ∈ program, s.Serialized := by
    intro s hs
    rcases List.mem_cons.mp hs with rfl | hs
    · trivial
    · rw [List.mem_singleton.mp hs]
      exact ⟨_, _, _, _, _, rfl⟩
  let event := eventText "t" "route" "info" "announce" []
  let reports := List.replicate 66 (Section.record event)
  have hreports : ∀ s ∈ reports, s.Serialized := by
    intro s hs
    rw [List.eq_of_mem_replicate hs]
    exact ⟨_, _, _, _, _, rfl⟩
  have hinit : (events none (fun _ => .null) receives).Reachable ⟨Data.new none, [], [], none⟩ :=
    .init rfl
  have hspawn := hinit.step (Step.spawn hprogram)
  have hchange := hspawn.step (Step.task (i := 0) rfl rfl rfl)
  -- the client connects in between
  have hconnect := hchange.step (l := Event.connect "t") (Step.connect rfl)
  obtain ⟨d, hrun, -⟩ := (program[1]).run_consistent
    (sections_consistent (.step (.init ⟨none, rfl⟩)
      (show sections.step _ (.setState .connect) { Data.new none with state := .connect }
        from rfl)))
  have hevent := hconnect.step (Step.task (i := 0) rfl rfl hrun)
  have hyield := hevent.step (Step.client rfl (.yield rfl))
  -- the channel keeps 64 events, and 67 are sent
  have hother := hyield.step (Step.spawn hreports)
  obtain ⟨w, log, hw, hclient, -, hlog, hemitted⟩ :=
    @exists_reports _ _ _ hdel event 66 _ hother 1 rfl 66 le_rfl
  have hsent : emitted (w.log.drop 1) = eventText "t" "session" "info" ("State: " ++ "CONNECT")
      [("state", .str "CONNECT"), ("running", .bool false)] :: List.replicate 66 event := by
    rw [hlog, ← hemitted]
    rfl
  have hlen : (emitted (w.log.drop 1)).length = 67 := by
    rw [hsent, List.length_cons, List.length_replicate]
  have hlagged := hw.step (Step.client hclient (.lagged (i := 0) (k := 3) rfl
    (show Broadcast.receive eventSlots (emitted (w.log.drop 1)) 0 = _ by
      rw [Broadcast.receive, hlen]; rfl)))
  have hresume := hlagged.step (Step.client (e := .resume "t") rfl (.resume rfl))
  have hlive := hresume.step (Step.client rfl (.value (i := 3) rfl
    (show Broadcast.receive eventSlots (emitted (w.log.drop 1)) 3 = some (.value 3 event) by
      rw [Broadcast.receive, hlen, hsent]; rfl)))
  exact ⟨_, _, _, _, _, rfl, List.mem_append_left _ (List.mem_append_right _ List.mem_cons_self),
    List.mem_append_right _ List.mem_cons_self, events_served hdel hlive rfl⟩

end Rib
