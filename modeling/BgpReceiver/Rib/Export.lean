import BgpReceiver.Framework.Channels
import BgpReceiver.Framework.System
import BgpReceiver.Rib.Data

/-!
# Exports

The handler `export` and `export_body`: any number of requests, each of which takes one of
two permits, copies rows and starts a producer that writes them, chunk by chunk, into a
queue with one place, while the client reads the body at its own pace or not at all
(`exports`). The queue is a parameter, of which `Queue.Delivers` is assumed.

The producer closes the queue when it is through, when the client is gone and when its
deadline has passed, so that the end of the queue says nothing about the rows. What the
body looks at behind it is the producer's verdict, which arrives later. `Export.Sound`
relates the chunks that have been accepted to the verdict: with the verdict `true` they are
all of them, unless the client is gone. So a body that ends without an error is the whole
export (`exports_sound`).

A producer gives its permit back whatever its client does: its own steps lead there from
every state (`Export.toEnd`).
-/

namespace Rib

open System (getElem?_set_cases getElem?_set_self_of getElem?_concat_cases)

/-! ### The text of an export -/

/-- The chunk of a row and its number. -/
def rowChunk (row : Route × ℕ) : String := (if row.2 = 0 then "" else ",") ++ row.1.text

/-- The chunks that the producer writes. -/
def exportChunks (rows : List Route) : List String :=
  "\x7b\"routes\":[" :: rows.zipIdx.map rowChunk ++ ["]\x7d"]

/-- The text of a whole export. -/
def exportText (rows : List Route) : String :=
  "\x7b\"routes\":[" ++ String.intercalate "," (rows.map Route.text) ++ "]\x7d"

/-! ### One export -/

/-- Where the task of a producer is. An export is prepared by its handler, which holds the
permit already; `returned` has the verdict in hand, behind the end of `write`. -/
inductive Producer where
  | preparing
  | writing (rest : List String)
  | returned (verdict : Bool)
  | answered
  | ended
  deriving DecidableEq

/-- The producer has no sender any more. -/
def Producer.closed : Producer → Bool
  | preparing | writing _ => false
  | _ => true

/-- Where the body is: it reads the queue, it awaits the verdict, it has ended without an
error or with one, or it has been dropped. -/
inductive Body where
  | reading
  | awaiting
  | complete
  | failed
  | dropped
  deriving DecidableEq

/-- One download: the snapshot that was taken for it, its producer, the queue between them, and its
body. -/
structure Export where
  rows : List Route
  producer : Producer
  queue : List String
  /-- What `done.send` sent. -/
  verdict : Option Bool
  body : Body
  /-- The chunks that the client has got. -/
  received : List String

/-- The error at the end of a body that was cut short. -/
def exportError : String := "Export interrupted or timed out"

/-- The items of the body so far. -/
def Export.items (e : Export) : List (Except String String) :=
  e.received.map .ok ++ if e.body = .failed then [.error exportError] else []

/-- The body has ended, and not because the client was gone. -/
def Body.Ended (b : Body) : Prop := b = .complete ∨ b = .failed

/-- An export whose handler has got a permit. -/
def Export.begin (rows : List Route) : Export where
  rows := rows
  producer := .preparing
  queue := []
  verdict := none
  body := .reading
  received := []

/-- What can happen to a download: the client may go away, and the deadline may pass. -/
inductive ExportEvent where
  /-- `tokio::spawn` -/
  | spawn
  /-- a send that is accepted -/
  | send
  /-- a send that fails -/
  | refused
  /-- the deadline, before `write` has returned -/
  | deadline
  /-- `done.send` -/
  | answer
  /-- the end of the producer -/
  | release
  /-- the client polls the body -/
  | poll
  /-- the client is gone -/
  | disconnect
  deriving DecidableEq

/-- The events of the producer. -/
def ExportEvent.OfProducer : ExportEvent → Prop
  | poll | disconnect => False
  | _ => True

section Steps

variable (accepts : List String → Prop) (gives : List String → Bool → Option String → Prop)

/-- The producer offers a chunk when the queue has room; the body takes one when there is one. -/
inductive ExportStep (e : Export) : ExportEvent → Export → Prop
  | spawn : e.producer = .preparing →
      ExportStep e .spawn { e with producer := .writing (exportChunks e.rows) }
  | send {chunk next : String} {rest : List String} :
      e.producer = .writing (chunk :: next :: rest) → e.body ≠ .dropped → accepts e.queue →
      ExportStep e .send
        { e with producer := .writing (next :: rest), queue := e.queue ++ [chunk] }
  | sendLast {chunk : String} : e.producer = .writing [chunk] → e.body ≠ .dropped →
      accepts e.queue →
      ExportStep e .send { e with producer := .returned true, queue := e.queue ++ [chunk] }
  /-- `write` has returned `None`, which is no error. -/
  | refused {rest : List String} : e.producer = .writing rest → e.body = .dropped →
      ExportStep e .refused { e with producer := .returned true }
  | deadline {rest : List String} : e.producer = .writing rest →
      ExportStep e .deadline { e with producer := .returned false }
  | answer {verdict : Bool} : e.producer = .returned verdict →
      ExportStep e .answer { e with producer := .answered, verdict := some verdict }
  | release : e.producer = .answered → ExportStep e .release { e with producer := .ended }
  | chunk {chunk : String} : e.body = .reading →
      gives e.queue e.producer.closed (some chunk) →
      ExportStep e .poll { e with queue := e.queue.tail, received := e.received ++ [chunk] }
  | endOfQueue : e.body = .reading → gives e.queue e.producer.closed none →
      ExportStep e .poll { e with body := .awaiting }
  | finished {verdict : Bool} : e.body = .awaiting → e.verdict = some verdict →
      ExportStep e .poll { e with body := if verdict then .complete else .failed }
  | disconnect : e.body ≠ .dropped → e.producer ≠ .preparing →
      ExportStep e .disconnect { e with body := .dropped, queue := [] }

/-! ### All exports -/

/-- The free permits, and all exports so far. -/
structure Exports where
  free : ℕ
  all : List Export

/-- `Semaphore::new(2)` -/
def exportPermits : ℕ := 2

/-- A new download, or a step of one. -/
inductive ExportsEvent where
  | begin (rows : List Route)
  | one (i : ℕ) (e : ExportEvent)

/-- Downloads are admitted while a permit is free, and each one takes its own steps. -/
inductive ExportsStep : Exports → ExportsEvent → Exports → Prop
  | begin {w : Exports} {rows : List Route} : 0 < w.free →
      ExportsStep w (.begin rows) ⟨w.free - 1, w.all ++ [.begin rows]⟩
  | one {w : Exports} {i : ℕ} {e e' : Export} {ev : ExportEvent} : w.all[i]? = some e →
      ExportStep accepts gives e ev e' →
      ExportsStep w (.one i ev)
        ⟨if ev = .release then w.free + 1 else w.free, w.all.set i e'⟩

/-- All downloads of the program. -/
def exports : System Exports ExportsEvent where
  init := fun w => w = ⟨exportPermits, []⟩
  step := ExportsStep accepts gives

end Steps

/-! ### The text of the chunks -/

/-- A comma in front of each text puts commas between them, once there is something in front of
them. -/
theorem join_map_comma (ws : List String) :
    String.join (ws.map ("," ++ ·)) = if ws = [] then "" else "," ++ String.intercalate "," ws := by
  induction ws with
  | nil => rfl
  | cons w ws ih =>
    rw [List.map_cons, String.join_cons, ih, if_neg (List.cons_ne_nil _ _)]
    by_cases hws : ws = []
    · rw [if_pos hws, hws, String.intercalate_singleton, String.append_empty]
    · rw [if_neg hws, String.intercalate_cons_of_ne_nil hws, String.append_assoc,
        String.append_assoc]

/-- Behind the first row, every chunk begins with a comma. -/
theorem map_rowChunk (rows : List Route) {n : ℕ} (hn : n ≠ 0) :
    (rows.zipIdx n).map rowChunk = (rows.map Route.text).map ("," ++ ·) := by
  induction rows generalizing n with
  | nil => rfl
  | cons row rows ih =>
    rw [List.zipIdx_cons, List.map_cons, List.map_cons, List.map_cons, ih (Nat.succ_ne_zero n),
      rowChunk, if_neg hn]

/-- The first row goes without its comma. -/
theorem join_rowChunk (rows : List Route) :
    String.join (rows.zipIdx.map rowChunk) = String.intercalate "," (rows.map Route.text) := by
  cases rows with
  | nil => rfl
  | cons row rows =>
    rw [List.zipIdx_cons, List.map_cons, String.join_cons, map_rowChunk rows (Nat.succ_ne_zero 0),
      join_map_comma, rowChunk, if_pos rfl, String.empty_append, List.map_cons]
    split_ifs with hrows
    · rw [hrows, String.append_empty, String.intercalate_singleton]
    · rw [String.intercalate_cons_of_ne_nil hrows, String.append_assoc]

/-- The chunks make up the export. -/
theorem join_exportChunks (rows : List Route) :
    String.join (exportChunks rows) = exportText rows := by
  rw [exportChunks, List.cons_append, String.join_cons, String.join_append, join_rowChunk,
    String.join_cons, String.join_nil, String.append_empty, exportText, String.append_assoc]

/-- There is a chunk even when there is no row: the brackets. -/
theorem exportChunks_ne_nil (rows : List Route) : exportChunks rows ≠ [] := by
  simp [exportChunks]

/-! ### What holds of an export -/

namespace Export

/-- The verdict of a producer, be it sent or still in its hand. -/
def outcome (e : Export) : Option Bool :=
  match e.producer with
  | .returned verdict => some verdict
  | _ => e.verdict

/-- The chunks that have been accepted are related to the verdict, and the body to both. -/
structure Sound (e : Export) : Prop where
  short : e.queue.length ≤ 1
  preparing : e.producer = .preparing → e.body = .reading ∧ e.received = [] ∧ e.queue = []
  /-- What has been accepted and what is left are all the chunks. -/
  writing : ∀ rest, e.producer = .writing rest → rest ≠ [] ∧
    (e.body ≠ .dropped → e.received ++ e.queue ++ rest = exportChunks e.rows)
  unanswered : e.verdict.isSome = true ↔ e.producer = .answered ∨ e.producer = .ended
  through : e.outcome = some true → e.body ≠ .dropped → e.received ++ e.queue = exportChunks e.rows
  drained : e.body = .awaiting ∨ e.body = .complete ∨ e.body = .failed →
    e.queue = [] ∧ e.producer.closed = true
  complete : e.body = .complete → e.verdict = some true
  failed : e.body = .failed → e.verdict = some false

/-- A body that has failed has sent its error. -/
theorem error_mem_items {e : Export} (h : e.body = .failed) : .error exportError ∈ e.items := by
  rw [items, if_pos h]
  exact List.mem_append_right _ (List.mem_singleton_self _)

/-- A download that has just begun is sound. -/
theorem sound_begin (rows : List Route) : Sound (.begin rows) where
  short := Nat.zero_le _
  preparing := fun _ => ⟨rfl, rfl, rfl⟩
  writing := nofun
  unanswered := by simp [Export.begin]
  through := nofun
  drained := by simp [Export.begin]
  complete := nofun
  failed := nofun

/-- There is no verdict before it is sent. -/
theorem Sound.verdict_eq_none {e : Export} (h : e.Sound) (ha : e.producer ≠ .answered)
    (he : e.producer ≠ .ended) : e.verdict = none := by
  by_contra hne
  rcases h.unanswered.mp (Option.isSome_iff_ne_none.mpr hne) with hp | hp
  · exact ha hp
  · exact he hp

/-- The body is open as long as there is no verdict. -/
theorem Sound.body_open {e : Export} (h : e.Sound) (hv : e.verdict = none) :
    e.body ≠ .complete ∧ e.body ≠ .failed := by
  constructor
  · intro hb
    exact absurd (h.complete hb) (by simp [hv])
  · intro hb
    exact absurd (h.failed hb) (by simp [hv])

/-- While the producer goes on, a body that is there is still reading. -/
theorem Sound.body_reading {e : Export} (h : e.Sound) (hp : e.producer.closed = false)
    (hb : e.body ≠ .dropped) : e.body = .reading := by
  have hopen : ¬ (e.body = .awaiting ∨ e.body = .complete ∨ e.body = .failed) := fun hbody =>
    absurd (h.drained hbody).2 (by simp [hp])
  cases hbody : e.body with
  | reading => rfl
  | dropped => exact absurd hbody hb
  | awaiting | complete | failed => simp [hbody] at hopen

section Steps

variable {accepts : List String → Prop} {gives : List String → Bool → Option String → Prop}

/-- The producer takes a step. -/
theorem Sound.producer (hq : Queue.Delivers 1 accepts gives) {e e' : Export} {ev : ExportEvent}
    (h : e.Sound) (hev : ev.OfProducer) (hstep : ExportStep accepts gives e ev e') : e'.Sound := by
  cases hstep with
  | spawn hp =>
    -- nothing was sent before the writer starts, so all the chunks are still to come
    obtain ⟨hbody, hreceived, hqueue⟩ := h.preparing hp
    have hv : e.verdict = none := h.verdict_eq_none (by simp [hp]) (by simp [hp])
    refine ⟨h.short, nofun, ?_, by simp [hv], ?_, ?_, h.complete, h.failed⟩
    · intro rest hrest
      cases hrest
      refine ⟨exportChunks_ne_nil _, fun _ => ?_⟩
      rw [hreceived, hqueue, List.nil_append, List.nil_append]
    · intro ho
      rw [outcome, hv] at ho
      cases ho
    · rw [hbody]
      simp
  | @send chunk next rest hp hb hacc =>
    have hv : e.verdict = none := h.verdict_eq_none (by simp [hp]) (by simp [hp])
    have hreading := h.body_reading (by rw [hp]; rfl) hb
    -- a queue of one slot accepts only when it is empty
    have hempty : e.queue = [] :=
      List.length_eq_zero_iff.mp (Nat.lt_one_iff.mp (hq.room _ hacc))
    obtain ⟨-, hchunks⟩ := h.writing _ hp
    refine ⟨by simp [hempty], nofun, ?_, by simp [hv], ?_, ?_, h.complete, h.failed⟩
    · intro rest' hrest
      cases hrest
      refine ⟨List.cons_ne_nil _ _, fun _ => ?_⟩
      rw [← hchunks hb]
      simp
    · intro ho
      rw [outcome, hv] at ho
      cases ho
    · rw [hreading]
      simp
  | @sendLast chunk hp hb hacc =>
    -- all chunks are in the body or in the queue now
    have hv : e.verdict = none := h.verdict_eq_none (by simp [hp]) (by simp [hp])
    have hreading := h.body_reading (by rw [hp]; rfl) hb
    have hempty : e.queue = [] :=
      List.length_eq_zero_iff.mp (Nat.lt_one_iff.mp (hq.room _ hacc))
    obtain ⟨-, hchunks⟩ := h.writing _ hp
    refine ⟨by simp [hempty], nofun, nofun, by simp [hv], ?_, ?_, h.complete, h.failed⟩
    · intro _ _
      rw [← hchunks hb, List.append_assoc]
    · rw [hreading]
      simp
  | refused hp hb =>
    -- the client has gone, so nothing has to reach it
    have hv : e.verdict = none := h.verdict_eq_none (by simp [hp]) (by simp [hp])
    refine ⟨h.short, nofun, nofun, by simp [hv], fun _ hb' => absurd hb hb', ?_, h.complete,
      h.failed⟩
    rw [hb]
    simp
  | deadline hp =>
    have hv : e.verdict = none := h.verdict_eq_none (by simp [hp]) (by simp [hp])
    refine ⟨h.short, nofun, nofun, by simp [hv], by simp [outcome], fun hb => ?_, h.complete,
      h.failed⟩
    exact ⟨(h.drained hb).1, rfl⟩
  | answer hp =>
    -- the answer is what became of the writing
    have hv : e.verdict = none := h.verdict_eq_none (by simp [hp]) (by simp [hp])
    obtain ⟨hcomplete, hfailed⟩ := h.body_open hv
    refine ⟨h.short, nofun, nofun, by simp, fun ho hb => h.through ?_ hb, fun hb => ?_,
      fun hb => absurd hb hcomplete, fun hb => absurd hb hfailed⟩
    · rw [outcome, hp]
      exact ho
    · exact ⟨(h.drained hb).1, rfl⟩
  | release hp =>
    have hv : e.verdict.isSome = true := h.unanswered.mpr (Or.inl hp)
    refine ⟨h.short, nofun, nofun, by simp [hv], fun ho hb => h.through ?_ hb, fun hb => ?_,
      h.complete, h.failed⟩
    · rw [outcome, hp]
      exact ho
    · exact ⟨(h.drained hb).1, rfl⟩
  | chunk | endOfQueue | finished | disconnect => exact absurd hev id

/-- The client takes a step. -/
theorem Sound.client (hq : Queue.Delivers 1 accepts gives) {e e' : Export} {ev : ExportEvent}
    (h : e.Sound) (hev : ¬ ev.OfProducer) (hstep : ExportStep accepts gives e ev e') :
    e'.Sound := by
  cases hstep with
  | @chunk chunk hb hgive =>
    -- the queue had one chunk, and has none now
    obtain ⟨rest, hrest⟩ := List.head?_eq_some_iff.mp (hq.value _ _ _ hgive)
    have hempty : rest = [] := by
      have hshort := h.short
      rw [hrest, List.length_cons] at hshort
      exact List.length_eq_zero_iff.mp (by omega)
    -- the chunk goes from the queue to the client
    have hmoved : e.received ++ [chunk] ++ e.queue.tail = e.received ++ e.queue := by
      rw [hrest, List.tail_cons, List.append_assoc, List.singleton_append]
    refine ⟨by simp [hrest, hempty], ?_, ?_, h.unanswered, ?_, ?_, h.complete, h.failed⟩
    · intro hp
      exact absurd (h.preparing hp).2.2 (by simp [hrest])
    · intro rest' hp
      obtain ⟨hne, hchunks⟩ := h.writing rest' hp
      exact ⟨hne, fun hb' => by rw [hmoved]; exact hchunks hb'⟩
    · intro ho hb'
      rw [hmoved]
      exact h.through ho hb'
    · intro hbody
      rw [hb] at hbody
      simp at hbody
  | endOfQueue hb hgive =>
    -- the end of the queue is given when it is empty and its sender is gone
    obtain ⟨hnil, hclosed⟩ := hq.ends _ _ hgive
    refine ⟨h.short, ?_, ?_, h.unanswered, fun ho _ => h.through ho (by simp [hb]),
      fun _ => ⟨hnil, hclosed⟩, nofun, nofun⟩
    · intro hp
      exact absurd hclosed (by simp [show e.producer = _ from hp, Producer.closed])
    · intro rest hp
      exact absurd hclosed (by simp [show e.producer = _ from hp, Producer.closed])
  | @finished verdict hb hv =>
    -- the body ends with what the producer has answered
    obtain ⟨hnil, hclosed⟩ := h.drained (Or.inl hb)
    refine ⟨h.short, ?_, ?_, h.unanswered, fun ho _ => h.through ho (by simp [hb]),
      fun _ => ⟨hnil, hclosed⟩, ?_, ?_⟩
    · intro hp
      exact absurd hclosed (by simp [show e.producer = _ from hp, Producer.closed])
    · intro rest hp
      exact absurd hclosed (by simp [show e.producer = _ from hp, Producer.closed])
    · intro hbody
      cases verdict with
      | true => exact hv
      | false => cases hbody
    · intro hbody
      cases verdict with
      | true => cases hbody
      | false => exact hv
  | disconnect _ hp =>
    exact ⟨Nat.zero_le _, fun hp' => absurd hp' hp, fun rest hr => ⟨(h.writing rest hr).1, nofun⟩,
      h.unanswered, fun _ hb => absurd rfl hb, by simp, nofun, nofun⟩
  | spawn | send | sendLast | refused | deadline | answer | release => exact absurd trivial hev

/-- **A step of a download keeps it sound.** -/
theorem Sound.step (hq : Queue.Delivers 1 accepts gives) {e e' : Export} {ev : ExportEvent}
    (h : e.Sound) (hstep : ExportStep accepts gives e ev e') : e'.Sound := by
  by_cases hev : ev.OfProducer
  · exact h.producer hq hev hstep
  · exact h.client hq hev hstep

/-- One export, from when its handler has got a permit. -/
def one (accepts : List String → Prop) (gives : List String → Bool → Option String → Prop) :
    System Export ExportEvent where
  init := fun e => ∃ rows, e = .begin rows
  step := ExportStep accepts gives

theorem one_sound (hq : Queue.Delivers 1 accepts gives) {e : Export}
    (h : (one accepts gives).Reachable e) : e.Sound := by
  refine System.Invariant.reachable ⟨?_, ?_⟩ h
  · rintro e ⟨rows, rfl⟩
    exact sound_begin rows
  · exact fun e ev e' he hstep => he.step hq hstep

/-- A verdict of `false` stays. -/
theorem Sound.outcome_step {e e' : Export} {ev : ExportEvent} (h : e.Sound)
    (hstep : ExportStep accepts gives e ev e') (ho : e.outcome = some false) :
    e'.outcome = some false := by
  -- a producer that is still writing has no outcome
  have hnone : ∀ rest, e.producer ≠ .writing rest := by
    intro rest hp
    rw [outcome, hp, h.verdict_eq_none (by simp [hp]) (by simp [hp])] at ho
    cases ho
  cases hstep with
  | spawn hp =>
    rw [outcome, hp, h.verdict_eq_none (by simp [hp]) (by simp [hp])] at ho
    cases ho
  | send hp | sendLast hp | refused hp | deadline hp => exact absurd hp (hnone _)
  | answer hp =>
    rw [outcome, hp] at ho
    exact ho
  | release hp =>
    rw [outcome, hp] at ho
    exact ho
  | chunk | endOfQueue | finished | disconnect => exact ho

/-- **The deadline makes the verdict `false`.** -/
theorem outcome_of_deadline (hq : Queue.Delivers 1 accepts gives) {rows : List Route}
    {evs : List ExportEvent} {e : Export} (h : (one accepts gives).Run (.begin rows) evs e)
    (hd : .deadline ∈ evs) : e.outcome = some false := by
  induction h with
  | nil => exact absurd hd List.not_mem_nil
  | @snoc evs e e' ev hrun hstep ih =>
    have hsound : e.Sound := one_sound hq ⟨_, evs, ⟨rows, rfl⟩, hrun⟩
    rcases List.mem_append.mp hd with hd | hd
    · exact hsound.outcome_step hstep (ih hd)
    · rw [← List.mem_singleton.mp hd] at hstep
      cases hstep
      rfl

/-- **A body that ends without an error is the whole export.** -/
theorem Sound.whole {e : Export} (h : e.Sound) (hb : e.body = .complete) :
    e.received = exportChunks e.rows := by
  have hv := h.complete hb
  have ho : e.outcome = some true := by
    unfold outcome
    split
    · next verdict hp =>
      have hp' := h.unanswered.mp (by rw [hv]; rfl)
      simp [hp] at hp'
    · exact hv
  have hall := h.through ho (by simp [hb])
  rwa [(h.drained (Or.inr (Or.inl hb))).1, List.append_nil] at hall

/-- A download that has failed is not complete. -/
theorem Sound.not_complete {e : Export} (h : e.Sound) (ho : e.outcome = some false) :
    e.body ≠ .complete := by
  intro hb
  have hv := h.complete hb
  have hp := h.unanswered.mp (by rw [hv]; rfl)
  rcases hp with hp | hp
  · rw [outcome, hp, hv] at ho
    cases ho
  · rw [outcome, hp, hv] at ho
    cases ho

/-- Some events lead to a state. -/
def Leads (accepts : List String → Prop) (gives : List String → Bool → Option String → Prop)
    (allowed : ExportEvent → Prop) (goal : Export → Prop) (e : Export) : Prop :=
  ∃ evs e', (one accepts gives).Run e evs e' ∧ (∀ ev ∈ evs, allowed ev) ∧ goal e'

theorem Leads.here {allowed : ExportEvent → Prop} {goal : Export → Prop} {e : Export}
    (h : goal e) : Leads accepts gives allowed goal e :=
  ⟨[], e, .nil, fun _ hev => absurd hev List.not_mem_nil, h⟩

/-- A step of the allowed ones may be in front. -/
theorem Leads.step {allowed : ExportEvent → Prop} {goal : Export → Prop} {e e' : Export}
    {ev : ExportEvent} (hstep : ExportStep accepts gives e ev e') (hev : allowed ev)
    (h : Leads accepts gives allowed goal e') : Leads accepts gives allowed goal e := by
  obtain ⟨evs, e'', hrun, hevs, hgoal⟩ := h
  refine ⟨[ev] ++ evs, e'', (System.Run.single hstep).append hrun, ?_, hgoal⟩
  intro ev' hev'
  rcases List.mem_cons.mp hev' with rfl | hev'
  · exact hev
  · exact hevs ev' hev'

/-- **The steps of the producer lead to its end**, whatever the client does. -/
theorem toEnd (e : Export) :
    Leads accepts gives ExportEvent.OfProducer (fun e => e.producer = .ended) e := by
  have hanswered : ∀ e : Export, e.producer = .answered →
      Leads accepts gives ExportEvent.OfProducer (fun e => e.producer = .ended) e :=
    fun e hp => .step (.release hp) trivial (.here rfl)
  have hreturned : ∀ (e : Export) (verdict : Bool), e.producer = .returned verdict →
      Leads accepts gives ExportEvent.OfProducer (fun e => e.producer = .ended) e :=
    fun e verdict hp => .step (.answer hp) trivial (hanswered _ rfl)
  -- a producer that cannot get rid of its chunks has its deadline
  have hwriting : ∀ (e : Export) (rest : List String), e.producer = .writing rest →
      Leads accepts gives ExportEvent.OfProducer (fun e => e.producer = .ended) e :=
    fun e rest hp => .step (.deadline hp) trivial (hreturned _ _ rfl)
  cases hp : e.producer with
  | preparing => exact .step (.spawn hp) trivial (hwriting _ _ rfl)
  | writing rest => exact hwriting e rest hp
  | returned verdict => exact hreturned e verdict hp
  | answered => exact hanswered e hp
  | ended => exact .here hp

/-- The client polls, or the producer sends its verdict. -/
def PollOrAnswer (ev : ExportEvent) : Prop := ev = .poll ∨ ev = .answer

/-- A body whose verdict is `false` fails when it is polled to its end. -/
theorem Sound.toFailed (hq : Queue.Delivers 1 accepts gives) {e : Export} (h : e.Sound)
    (hv : e.verdict = some false) (hb : e.body ≠ .dropped) :
    Leads accepts gives PollOrAnswer (fun e => e.body = .failed) e := by
  -- behind the queue the body waits for the verdict
  have hawaiting : ∀ e : Export, e.body = .awaiting → e.verdict = some false →
      Leads accepts gives PollOrAnswer (fun e => e.body = .failed) e :=
    fun e hb hv => .step (.finished hb hv) (Or.inl rfl) (.here rfl)
  have hempty : ∀ e : Export, e.body = .reading → e.verdict = some false → e.queue = [] →
      e.producer.closed = true →
      Leads accepts gives PollOrAnswer (fun e => e.body = .failed) e := by
    intro e hb hv hnil hclosed
    obtain ⟨r, hr⟩ := hq.ready e.queue e.producer.closed (Or.inr hclosed)
    cases r with
    | none => exact .step (.endOfQueue hb hr) (Or.inl rfl) (hawaiting _ rfl hv)
    | some chunk => exact absurd (hq.value _ _ _ hr) (by simp [hnil])
  -- the producer has answered, so it sends nothing any more
  have hclosed : e.producer.closed = true := by
    rcases h.unanswered.mp (by rw [hv]; rfl) with hp | hp <;> rw [hp] <;> rfl
  cases hbody : e.body with
  | failed => exact .here hbody
  | dropped => exact absurd hbody hb
  | complete => exact absurd (h.complete hbody) (by simp [hv])
  | awaiting => exact hawaiting e hbody hv
  | reading =>
    by_cases hnil : e.queue = []
    · exact hempty e hbody hv hnil hclosed
    · obtain ⟨r, hr⟩ := hq.ready e.queue e.producer.closed (Or.inl hnil)
      cases r with
      | none => exact absurd (hq.ends _ _ hr).1 hnil
      | some chunk =>
        refine .step (.chunk hbody hr) (Or.inl rfl) (hempty _ hbody hv ?_ hclosed)
        -- the queue has one place, so nothing is left in it
        have hshort := h.short
        exact List.length_eq_zero_iff.mp (by rw [List.length_tail]; omega)

/-- **After the deadline, a body that is polled to its end fails.** -/
theorem Sound.fails (hq : Queue.Delivers 1 accepts gives) {e : Export} (h : e.Sound)
    (ho : e.outcome = some false) (hb : e.body ≠ .dropped) :
    Leads accepts gives PollOrAnswer (fun e => e.body = .failed) e := by
  cases hp : e.producer with
  | returned verdict =>
    obtain rfl : verdict = false := by
      rw [outcome, hp] at ho
      exact Option.some.inj ho
    refine .step (.answer hp) (Or.inr rfl) (Sound.toFailed hq (h.step hq (.answer hp)) rfl hb)
  | preparing | writing | answered | ended =>
    rw [outcome, hp] at ho
    exact h.toFailed hq ho hb

end Steps

end Export

/-! ### All exports -/

namespace Exports

/-- The exports that hold a permit, from when the handler has taken it until the producer
is at its end. -/
def live (w : Exports) : ℕ := w.all.countP fun e => e.producer ≠ .ended

/-- The events of one export. -/
def eventOf (i : ℕ) : ExportsEvent → Option ExportEvent
  | .one j ev => if j = i then some ev else none
  | .begin _ => none

variable {accepts : List String → Prop} {gives : List String → Bool → Option String → Prop}

/-- **The exports do not meddle with each other**: what happens to one of them in a run is
a run of it alone. -/
theorem project {ls : List ExportsEvent} {w : Exports}
    (h : (exports accepts gives).Run ⟨exportPermits, []⟩ ls w) (i : ℕ) :
    (w.all.length ≤ i → ls.filterMap (eventOf i) = []) ∧
      ∀ e, w.all[i]? = some e → ∃ rows,
        (Export.one accepts gives).Run (.begin rows) (ls.filterMap (eventOf i)) e := by
  induction h with
  | nil => exact ⟨fun _ => rfl, fun e he => absurd he (by simp)⟩
  | @snoc ls w w' l _ hstep ih =>
    obtain ⟨hfresh, hruns⟩ := ih
    rw [List.filterMap_append]
    cases hstep with
    | @begin rows hfree =>
      -- a new export has the next number
      change _ ∧ ∀ e, (w.all ++ [Export.begin rows])[i]? = some e → _
      rw [show [ExportsEvent.begin rows].filterMap (eventOf i) = [] from rfl, List.append_nil]
      refine ⟨fun hlen => hfresh ?_, fun e he => ?_⟩
      · rw [List.length_append] at hlen
        omega
      · rcases getElem?_concat_cases he with ⟨rfl, rfl⟩ | he
        · -- the export that begins now has no events of its own yet
          rw [hfresh le_rfl]
          exact ⟨rows, .nil⟩
        · exact hruns e he
    | @one j e₀ e' ev hj hstep =>
      change ((w.all.set j e').length ≤ i → _) ∧ ∀ e, (w.all.set j e')[i]? = some e → _
      -- the event is one of this export, or of another
      have hlast : [ExportsEvent.one j ev].filterMap (eventOf i) = if j = i then [ev] else [] := by
        unfold eventOf
        split_ifs with hij <;> simp [hij]
      rw [hlast]
      refine ⟨fun hlen => ?_, fun e he => ?_⟩
      · rw [List.length_set] at hlen
        have hlt := (List.getElem?_eq_some_iff.mp hj).1
        rw [if_neg (by omega), List.append_nil]
        exact hfresh hlen
      · rcases getElem?_set_cases he with ⟨rfl, rfl⟩ | ⟨hne, he⟩
        · obtain ⟨rows, hrun⟩ := hruns e₀ hj
          rw [if_pos rfl]
          exact ⟨rows, hrun.snoc hstep⟩
        · rw [if_neg (Ne.symm hne), List.append_nil]
          exact hruns e he

/-- A run of one export is one of all of them. -/
theorem lift {w : Exports} {i : ℕ} {e e' : Export} {evs : List ExportEvent}
    (hrun : (Export.one accepts gives).Run e evs e') (he : w.all[i]? = some e) :
    ∃ w', (exports accepts gives).Run w (evs.map (.one i)) w' ∧ w'.all[i]? = some e' ∧
      w'.all = w.all.set i e' := by
  -- step by step: the download takes its step, and the others stay as they are
  induction hrun with
  | nil =>
    obtain ⟨hlt, hget⟩ := List.getElem?_eq_some_iff.mp he
    refine ⟨w, .nil, he, ?_⟩
    rw [← hget, List.set_getElem_self hlt]
  | @snoc evs e₁ e₂ ev _ hstep ih =>
    obtain ⟨w', hr, he₁, hset⟩ := ih
    rw [List.map_append]
    refine ⟨_, hr.snoc (.one he₁ hstep), getElem?_set_self_of he₁, ?_⟩
    change w'.all.set i e₂ = _
    rw [hset, List.set_set]

/-- A step ends a producer when it is its release. -/
theorem ended_step {e e' : Export} {ev : ExportEvent} (h : ExportStep accepts gives e ev e') :
    (ev = .release ∧ e.producer ≠ .ended ∧ e'.producer = .ended) ∨
      (ev ≠ .release ∧ (e'.producer = .ended ↔ e.producer = .ended)) := by
  cases h with
  | release hp => exact Or.inl ⟨rfl, by simp [hp], rfl⟩
  | spawn hp | send hp | sendLast hp | refused hp | deadline hp | answer hp =>
    exact Or.inr ⟨by simp, by simp [hp]⟩
  | chunk | endOfQueue | finished | disconnect => exact Or.inr ⟨by simp, Iff.rfl⟩

/-- Replacing one export. -/
theorem live_set {w : Exports} {i : ℕ} {e : Export} (he : w.all[i]? = some e) (e' : Export)
    (free : ℕ) :
    live ⟨free, w.all.set i e'⟩ + (if e.producer = .ended then 0 else 1)
      = w.live + if e'.producer = .ended then 0 else 1 := by
  obtain ⟨hlt, hget⟩ := List.getElem?_eq_some_iff.mp he
  have hpos : e.producer ≠ .ended → 0 < w.live := fun hp =>
    List.countP_pos_iff.mpr ⟨e, List.mem_of_getElem? he, by simpa using hp⟩
  rw [live, List.countP_set hlt, hget]
  change w.live - _ + _ + _ = _
  by_cases hp : e.producer = .ended <;> by_cases hp' : e'.producer = .ended <;>
    simp [hp, hp'] <;> have := hpos <;> simp [hp] at this <;> omega

/-- **A permit is free or held by an export.** -/
theorem free_add_live {w : Exports} (h : (exports accepts gives).Reachable w) :
    w.free + w.live = exportPermits := by
  refine System.Invariant.reachable (P := fun w : Exports => w.free + w.live = exportPermits)
    ⟨?_, ?_⟩ h
  · rintro w rfl
    rfl
  · rintro w l w' hw hstep
    cases hstep with
    | @begin rows hfree =>
      -- an export that begins takes one permit
      have hone : [Export.begin rows].countP (fun e => e.producer ≠ .ended) = 1 := rfl
      rw [← hw]
      simp only [live, List.countP_append, hone]
      omega
    | @one i e e' ev he hstep =>
      have hset := live_set he e' (if ev = .release then w.free + 1 else w.free)
      rw [← hw]
      rcases ended_step hstep with ⟨rfl, hp, hp'⟩ | ⟨hev, hp⟩
      · -- the release gives its permit back as its producer ends
        rw [if_neg hp, if_pos hp'] at hset
        simp only [if_pos] at hset ⊢
        omega
      · simp only [hp, if_neg hev] at hset ⊢
        omega

/-- Some events of one export lead to a state of it. -/
def Leads (accepts : List String → Prop) (gives : List String → Bool → Option String → Prop)
    (i : ℕ) (allowed : ExportEvent → Prop) (goal : Exports → Export → Prop) (w : Exports) : Prop :=
  ∃ ls w' e', (exports accepts gives).Run w ls w' ∧
    (∀ l ∈ ls, ∃ ev, l = .one i ev ∧ allowed ev) ∧ w'.all[i]? = some e' ∧ goal w' e'

/-- **What the handler of exports promises**, behind some events. -/
structure Delivered (accepts : List String → Prop)
    (gives : List String → Bool → Option String → Prop) (ls : List ExportsEvent) (w : Exports) :
    Prop where
  /-- A body that ends without an error is the whole export. -/
  whole : ∀ (i : ℕ) (e : Export), w.all[i]? = some e → e.body.Ended →
    (∀ error, .error error ∉ e.items) → e.items = (exportChunks e.rows).map .ok ∧
      String.join (exportChunks e.rows) = exportText e.rows
  /-- Behind the deadline a body ends with the error, and it does end when it is polled. -/
  cut : ∀ (i : ℕ) (e : Export), w.all[i]? = some e → .one i .deadline ∈ ls →
    (e.body.Ended → .error exportError ∈ e.items) ∧ (e.body ≠ .dropped →
      Leads accepts gives i Export.PollOrAnswer
        (fun _ e' => e'.body.Ended ∧ .error exportError ∈ e'.items) w)
  permits : w.free + w.live = exportPermits
  /-- The steps of the producer give the permit back. -/
  released : ∀ (i : ℕ) (e : Export), w.all[i]? = some e → e.producer ≠ .ended →
    Leads accepts gives i ExportEvent.OfProducer
      (fun w' e' => e'.producer = .ended ∧ w'.free = w.free + 1) w

/-- What one download can do, it can do among the others. -/
theorem leads_of_leads {w : Exports} {i : ℕ} {e : Export} {allowed : ExportEvent → Prop}
    {goal : Export → Prop} (he : w.all[i]? = some e)
    (h : Export.Leads accepts gives allowed goal e) :
    Leads accepts gives i allowed
      (fun w' e' => goal e' ∧ w'.all = w.all.set i e') w := by
  obtain ⟨evs, e', hrun, hevs, hgoal⟩ := h
  obtain ⟨w', hr, he', hset⟩ := lift hrun he
  refine ⟨_, w', e', hr, ?_, he', hgoal, hset⟩
  intro l hl
  obtain ⟨ev, hev, rfl⟩ := List.mem_map.mp hl
  exact ⟨ev, rfl, hevs ev hev⟩

/-- **A truncated export is never delivered as a complete one**, and every producer gives
its permit back. -/
theorem exports_delivered (hq : Queue.Delivers 1 accepts gives) {ls : List ExportsEvent}
    {w : Exports} (h : (exports accepts gives).Run ⟨exportPermits, []⟩ ls w) :
    Delivered accepts gives ls w := by
  have hreach : (exports accepts gives).Reachable w := ⟨_, ls, rfl, h⟩
  -- every download is a run of its own
  have hsound : ∀ (i : ℕ) (e : Export), w.all[i]? = some e → e.Sound := by
    intro i e he
    obtain ⟨rows, hrun⟩ := (project h i).2 e he
    exact Export.one_sound hq ⟨_, _, ⟨rows, rfl⟩, hrun⟩
  refine ⟨?_, ?_, free_add_live hreach, ?_⟩
  · intro i e he hb hnone
    have hcomplete : e.body = .complete :=
      hb.resolve_right fun hfailed => hnone _ (Export.error_mem_items hfailed)
    refine ⟨?_, join_exportChunks e.rows⟩
    rw [Export.items, (hsound i e he).whole hcomplete, if_neg (by simp [hcomplete]),
      List.append_nil]
  · -- behind its deadline a download cannot become complete any more
    intro i e he hd
    obtain ⟨rows, hrun⟩ := (project h i).2 e he
    have ho := Export.outcome_of_deadline hq hrun
      (List.mem_filterMap.mpr ⟨_, hd, by rw [eventOf, if_pos rfl]⟩)
    refine ⟨fun hb => ?_, fun hb => ?_⟩
    · exact Export.error_mem_items (hb.resolve_left ((hsound i e he).not_complete ho))
    · obtain ⟨ls', w', e', hr, hls, he', hfailed, -⟩ :=
        leads_of_leads he ((hsound i e he).fails hq ho hb)
      exact ⟨ls', w', e', hr, hls, he', Or.inr hfailed, Export.error_mem_items hfailed⟩
  · intro i e he hp
    obtain ⟨ls', w', e', hr, hls, he', hended, hset⟩ := leads_of_leads he (Export.toEnd e)
    refine ⟨ls', w', e', hr, hls, he', hended, ?_⟩
    -- one export less holds a permit
    have hlive := live_set he e' w'.free
    rw [show (⟨w'.free, w.all.set i e'⟩ : Exports) = w' by rw [← hset], if_neg hp,
      if_pos hended] at hlive
    have hbefore := free_add_live hreach
    have hafter := free_add_live (hreach.run hr)
    omega

/-- An export of two rows that is read to its end, beside one that meets its deadline behind its
first chunk. -/
theorem exports_delivered_two :
    ∃ ls w, Delivered (Queue.accepts 1) Queue.gives ls w ∧ .one 1 .deadline ∈ ls ∧
      (∃ e, w.all[0]? = some e ∧ e.rows = [sampleRow, sampleRow] ∧ e.body = .complete) ∧
      ∃ e, w.all[1]? = some e ∧ e.rows = [sampleRow] ∧ e.received ≠ [] := by
  have hinit : (exports (Queue.accepts 1) Queue.gives).Run ⟨exportPermits, []⟩ []
      ⟨exportPermits, []⟩ := .nil
  have hgives : ∀ (chunk : String) (closed : Bool), Queue.gives [chunk] closed (some chunk) :=
    fun chunk closed => ⟨rfl, fun h => absurd h (List.cons_ne_nil _ _)⟩
  have hroom : Queue.accepts 1 ([] : List String) := Nat.one_pos
  have hreads : (Export.begin [sampleRow, sampleRow]).body ≠ .dropped := by simp [Export.begin]
  have hfirst := hinit.snoc (l := ExportsEvent.begin [sampleRow, sampleRow]) (.begin (by decide))
  have hspawned := hfirst.snoc (.one (i := 0) rfl (.spawn rfl))
  -- a chunk is sent when the one before has been polled
  have hhead := hspawned.snoc (.one (i := 0) rfl (.send rfl hreads hroom))
  have hpoll₁ := hhead.snoc (.one (i := 0) rfl (.chunk rfl (hgives _ _)))
  have hrow₁ := hpoll₁.snoc (.one (i := 0) rfl (.send rfl hreads hroom))
  have hpoll₂ := hrow₁.snoc (.one (i := 0) rfl (.chunk rfl (hgives _ _)))
  have hrow₂ := hpoll₂.snoc (.one (i := 0) rfl (.send rfl hreads hroom))
  have hpoll₃ := hrow₂.snoc (.one (i := 0) rfl (.chunk rfl (hgives _ _)))
  have hlast := hpoll₃.snoc (.one (i := 0) rfl (.sendLast rfl hreads hroom))
  have hpoll₄ := hlast.snoc (.one (i := 0) rfl (.chunk rfl (hgives _ _)))
  have hend := hpoll₄.snoc (.one (i := 0) rfl (.endOfQueue rfl ⟨rfl, fun _ => rfl⟩))
  have hanswer := hend.snoc (.one (i := 0) rfl (.answer rfl))
  -- the first download is through
  have hfinished := hanswer.snoc (.one (i := 0) rfl (.finished rfl rfl))
  have hsecond := hfinished.snoc (l := ExportsEvent.begin [sampleRow]) (.begin (by decide))
  have hspawned' := hsecond.snoc (.one (i := 1) rfl (.spawn rfl))
  have hhead' := hspawned'.snoc (.one (i := 1) rfl (.send rfl (by simp [Export.begin]) hroom))
  have hpoll' := hhead'.snoc (.one (i := 1) rfl (.chunk rfl (hgives _ _)))
  -- and the second one runs into its deadline
  have hdeadline := hpoll'.snoc (.one (i := 1) rfl (.deadline rfl))
  exact ⟨_, _, exports_delivered (Queue.delivers 1) hdeadline, by simp, ⟨_, rfl, rfl, rfl⟩,
    _, rfl, rfl, List.cons_ne_nil _ _⟩

end Exports

end Rib
