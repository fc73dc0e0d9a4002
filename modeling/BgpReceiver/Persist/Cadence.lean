import BgpReceiver.Persist.Flush

/-!
# How often the table is written

The worker of `main.rs`, which sleeps for a second, calls `flush(false)` and sleeps again, with a
clock beside the flushes of `Persist.flushes` (`paced`). The sections of other tasks mark
the data with the time at which they run, and other flushes may be forced at any time.

A flush that is not forced leaves data alone that was changed in the last five seconds. So the
worker never begins to write within that time of a change, however old the file is: while
changes come closer together, only forced flushes write (`CadenceFacts.early`).

With a worker that is not kept from waking up, and whose calls take at most some time
(`Prompt`), a change is the last one or is in the file within six seconds and twice that
time: then the data is clean (`CadenceFacts.current`), and the file has the rows that the
table has, unless the change landed while a flush was in progress and that one wrote last.
-/

namespace Persist

open Rib (Section)

/-- A second, in nanoseconds. -/
def second : ℕ := 1000000000

/-- What the worker does. -/
inductive Worker where
  | asleep (wake : ℕ)
  /-- in its call, which has not decided what to do or is not done -/
  | flushing (since : ℕ)
  /-- behind the flush, and not asleep yet -/
  | flushed (since : ℕ)

/-- The flushes with a clock. -/
structure Paced where
  world : World
  race : Race
  now : ℕ
  /-- when the rows were last changed -/
  touched : ℕ
  worker : Worker

/-- What happens beside the calls of `flush`: the clock goes on, and the worker sleeps, wakes up and
runs. -/
inductive PacedEvent where
  | elapse (time : ℕ)
  | does (l : Label)
  | wakes
  /-- there is nothing to flush -/
  | skips
  | returns

/-- What is done is done now, and the worker flushes in its calls only. -/
def Label.At (s : Paced) : Label → Prop
  | .critical sec => ∀ t, instantOf sec = some t → t = s.now
  | .snapshot c now => now = s.now ∧ (c = .periodic → ∃ since, s.worker = .flushing since)
  | .write _ | .clear _ => True

/-- The end of its flush is the end of what the worker has to do. -/
def Worker.next : Worker → Label → Worker
  | .flushing since, .clear .periodic => .flushed since
  | w, _ => w

/-- A section that changes the rows, or marks them, does so now. -/
def Paced.touch (s : Paced) (l : Label) (w : World) : ℕ :=
  match l with
  | .critical _ =>
    if w.data.routes.entries = s.world.data.routes.entries ∧ w.data.dirty = s.world.data.dirty
    then s.touched else s.now
  | _ => s.touched

variable (path : String)

/-- One step with the clock. The world takes its steps at no cost of time; only `elapse` lets time
go by. -/
inductive PacedStep (s : Paced) : PacedEvent → Paced → Prop
  | elapse {time : ℕ} : PacedStep s (.elapse time) { s with now := s.now + time }
  | does {l : Label} {p : World × Race} : l.At s → (races path).step (s.world, s.race) l p →
      PacedStep s (.does l)
        ⟨p.1, p.2, s.now, s.touch l p.1, s.worker.next l⟩
  | wakes {wake : ℕ} : s.worker = .asleep wake → wake ≤ s.now →
      PacedStep s .wakes { s with worker := .flushing s.now }
  | skips {since : ℕ} : s.worker = .flushing since → s.world.phase .periodic = .idle →
      snapshot s.world.data false s.now = none →
      PacedStep s .skips { s with worker := .flushed since }
  | returns {since : ℕ} : s.worker = .flushed since →
      PacedStep s .returns { s with worker := .asleep (s.now + second) }

/-- It starts with the worker asleep, behind a flush that was alone. -/
def paced : System Paced PacedEvent where
  init s := (races path).init (s.world, s.race) ∧ s.touched = s.now ∧
    s.worker = .asleep (s.now + second)
  step := PacedStep path

/-- The worker wakes up in time, and its calls take at most some time. -/
def Prompt (limit : ℕ) (s : Paced) : PacedEvent → Prop
  | .elapse time =>
    match s.worker with
    | .asleep wake => s.now + time ≤ wake
    | .flushing since | .flushed since => s.now + time ≤ since + limit
  | _ => True

/-- How long a change can be missing in the file. -/
def delay (limit : ℕ) : ℕ := debounce + second + 2 * limit

/-- What the mark says, in any run. -/
structure Marked (s : Paced) : Prop where
  inv : Inv s.world s.race
  output : s.world.data.output = some path
  mark : ∀ t, s.world.data.dirty = some t → t = s.touched
  past : s.touched ≤ s.now

/-- Where the worker is, in a run in time. -/
def Worker.InTime (limit : ℕ) (s : Paced) : Worker → Prop
  | .asleep wake => s.now ≤ wake ∧ wake ≤ s.now + second ∧ s.world.phase .periodic = .idle ∧
      ∀ t, s.world.data.dirty = some t → wake ≤ t + debounce + second + limit
  | .flushing since => since ≤ s.now ∧ s.now ≤ since + limit ∧
      ∀ t, s.world.data.dirty = some t → since ≤ t + debounce + second + limit
  | .flushed since => since ≤ s.now ∧ s.now ≤ since + limit ∧ s.world.phase .periodic = .idle ∧
      ∀ t, s.world.data.dirty = some t → since ≤ t + debounce

variable {path}

/-- The mark and the time of the last change, when a section has run. -/
theorem touch_critical {s : Paced} {sec : Section} {w : World} (hs : sec ≠ .flushed)
    (hr : sec.run s.world.data = some w.data) (hat : Label.At s (.critical sec)) :
    (s.touch (.critical sec) w = s.touched ∧ w.data.dirty = s.world.data.dirty) ∨
      (s.touch (.critical sec) w = s.now ∧ w.data.dirty = some s.now) := by
  unfold Paced.touch
  dsimp only
  split_ifs with hsame
  · exact .inl ⟨rfl, hsame.2⟩
  · rcases run_marks hs hr with hsame' | ⟨t, ht, hd⟩
    · exact absurd hsame' hsame
    · exact .inr ⟨rfl, hat t ht ▸ hd⟩

theorem Marked.init {s : Paced} (h : (paced path).init s) : Marked path s := by
  obtain ⟨⟨hw, hrace⟩, htouched, -⟩ := h
  have hdirty : s.world.data.dirty = none := hw.2.1
  change s.race = Race.none at hrace
  refine ⟨hrace ▸ Inv.init path hw, hw.1, fun t ht => ?_, htouched.le⟩
  rw [hdirty] at ht
  cases ht

/-- **A change is marked with the time at which it was made**, by every step. -/
theorem Marked.step {s s' : Paced} {e : PacedEvent} (h : Marked path s)
    (hs : PacedStep path s e s') : Marked path s' := by
  cases hs with
  | elapse => exact ⟨h.inv, h.output, h.mark, h.past.trans (Nat.le_add_right _ _)⟩
  | wakes | skips | returns => exact ⟨h.inv, h.output, h.mark, h.past⟩
  | @does l p hat hstep =>
    obtain ⟨w, race⟩ := p
    obtain ⟨hstep, hrace⟩ := hstep
    change Step path s.world l w at hstep
    change race = s.race.next s.world l w at hrace
    -- the calls of `flush` keep the invariant of the race
    have hinv : Inv w race := hrace ▸ h.inv.step path hstep
    cases hstep with
    | critical hsec hr hout =>
      -- a section marks the data with the time of now, or leaves them alone
      rcases touch_critical (w := { s.world with data := _ }) hsec hr hat with ⟨ht, hd⟩ | ⟨ht, hd⟩
      · refine ⟨hinv, hout, fun t hdirty => ?_, ?_⟩
        · exact (h.mark t (hd ▸ hdirty)).trans ht.symm
        · exact ht.trans_le h.past
      · refine ⟨hinv, hout, fun t hdirty => ?_, ht.le⟩
        exact (Option.some.inj (hdirty.symm.trans hd)).trans ht.symm
    | snapshot | write => exact ⟨hinv, h.output, h.mark, h.past⟩
    | clear hc hr =>
      obtain rfl := Option.some.inj hr
      exact ⟨hinv, h.output, nofun, h.past⟩

/-- A section sets the mark to the present, or leaves it. -/
theorem dirty_critical {s : Paced} {sec : Section} {d : Rib.Data} (hs : sec ≠ .flushed)
    (hr : sec.run s.world.data = some d) (hat : Label.At s (.critical sec)) {t : ℕ}
    (ht : d.dirty = some t) : s.world.data.dirty = some t ∨ t = s.now := by
  rcases touch_critical (w := { s.world with data := d }) hs hr hat with ⟨-, hd⟩ | ⟨-, hd⟩
  · exact .inl (hd.symm.trans ht)
  · exact .inr (Option.some.inj (ht.symm.trans hd))

/-- Where the worker is depends on the clock, on its phase and on the mark. -/
theorem Worker.InTime.keep {limit : ℕ} {s s' : Paced} {worker : Worker}
    (h : worker.InTime limit s) (hnow : s'.now = s.now)
    (hphase : (∀ since, worker ≠ .flushing since) → s.world.phase .periodic = .idle →
      s'.world.phase .periodic = .idle)
    (hdirty : ∀ t, s'.world.data.dirty = some t → s.world.data.dirty = some t ∨ t = s.now) :
    worker.InTime limit s' := by
  -- in each of its places the worker knows since when the data can have been dirty
  cases worker with
  | asleep wake =>
    obtain ⟨hle, hge, hidle, hmark⟩ := h
    refine ⟨hnow ▸ hle, hnow ▸ hge, hphase (by simp) hidle, fun t ht => ?_⟩
    rcases hdirty t ht with ht | rfl
    · exact hmark t ht
    · omega
  | flushing since =>
    obtain ⟨hle, hge, hmark⟩ := h
    refine ⟨hnow ▸ hle, hnow ▸ hge, fun t ht => ?_⟩
    rcases hdirty t ht with ht | rfl
    · exact hmark t ht
    · omega
  | flushed since =>
    obtain ⟨hle, hge, hidle, hmark⟩ := h
    refine ⟨hnow ▸ hle, hnow ▸ hge, hphase (by simp) hidle, fun t ht => ?_⟩
    rcases hdirty t ht with ht | rfl
    · exact hmark t ht
    · omega

/-- The worker is moved by its own steps only. -/
theorem Worker.next_of_ne {worker : Worker} {l : Label} (h : l ≠ .clear .periodic) :
    worker.next l = worker := by
  unfold Worker.next
  split
  · exact absurd rfl h
  · rfl

/-- What is done while the worker is where it is. -/
theorem Worker.InTime.does {limit : ℕ} {s s' : Paced} {l : Label}
    (h : s.worker.InTime limit s) (hat : l.At s) (hs : Step path s.world l s'.world)
    (hnow : s'.now = s.now) : (s.worker.next l).InTime limit s' := by
  -- nobody but the worker changes its phase
  have hother : ∀ (c : Caller) (p : Phase), c ≠ .periodic → s.world.phase .periodic = .idle →
      Function.update s.world.phase c p .periodic = .idle :=
    fun c p hc hidle => by rwa [Function.update_of_ne hc.symm]
  generalize hw : s'.world = w at hs
  -- by step of a flush: the worker is concerned with its own calls, and with the mark
  cases hs with
  | critical hsec hr _ =>
    rw [Worker.next_of_ne (l := .critical _) (by simp)]
    refine h.keep hnow (fun _ hidle => by rw [hw]; exact hidle) fun t ht => ?_
    rw [hw] at ht
    exact dirty_critical hsec hr hat ht
  | @snapshot c now rows hc _ =>
    rw [Worker.next_of_ne (l := .snapshot _ _) (by simp)]
    refine h.keep hnow (fun hnot hidle => ?_) fun t ht => ?_
    · rw [hw]
      refine hother c _ (fun hc => ?_) hidle
      obtain ⟨since, hworker⟩ := hat.2 hc
      exact hnot since hworker
    · rw [hw] at ht
      exact .inl ht
  | @write c rows hc =>
    rw [Worker.next_of_ne (l := .write _) (by simp)]
    refine h.keep hnow (fun _ hidle => ?_) fun t ht => ?_
    · rw [hw]
      refine hother c _ (fun heq => ?_) hidle
      rw [heq, hidle] at hc
      cases hc
    · rw [hw] at ht
      exact .inl ht
  | @clear c d hc hr =>
    obtain rfl := Option.some.inj hr
    have hclean : s'.world.data.dirty = none := by rw [hw]
    -- the clear of the worker ends its call, and that of another one leaves it asleep
    by_cases hperiodic : c = .periodic
    · subst hperiodic
      cases hworker : s.worker with
      | flushing since =>
        rw [hworker] at h
        refine ⟨hnow ▸ h.1, hnow ▸ h.2.1, ?_, fun t ht => absurd (hclean.symm.trans ht) nofun⟩
        rw [hw]
        exact Function.update_self Caller.periodic Phase.idle s.world.phase
      | asleep | flushed =>
        rw [hworker] at h
        exact absurd (h.2.2.1.symm.trans hc) nofun
    · rw [Worker.next_of_ne fun heq => hperiodic (Label.clear.inj heq)]
      refine h.keep hnow (fun _ hidle => ?_) fun t ht => absurd (hclean.symm.trans ht) nofun
      rw [hw]
      exact hother c _ hperiodic hidle

/-- **The worker stays in time** when its calls take at most the limit and it wakes up in time. -/
theorem Worker.InTime.step {limit : ℕ} {s s' : Paced} {e : PacedEvent} (hm : Marked path s)
    (h : s.worker.InTime limit s) (hp : Prompt limit s e) (hs : PacedStep path s e s') :
    s'.worker.InTime limit s' := by
  cases hs with
  | @elapse time =>
    unfold Prompt at hp
    dsimp only at hp ⊢
    -- in each place the time that passes is bounded by the wake-up, or by the limit
    cases hworker : s.worker with
    | asleep wake =>
      rw [hworker] at h hp
      obtain ⟨-, hge, hidle, hmark⟩ := h
      exact ⟨hp, by dsimp only; omega, hidle, hmark⟩
    | flushing since =>
      rw [hworker] at h hp
      obtain ⟨hle, -, hmark⟩ := h
      exact ⟨by dsimp only; omega, hp, hmark⟩
    | flushed since =>
      rw [hworker] at h hp
      obtain ⟨hle, -, hidle, hmark⟩ := h
      exact ⟨by dsimp only; omega, hp, hidle, hmark⟩
  | does hat hstep => exact h.does hat hstep.1 rfl
  | @wakes wake hworker hwake =>
    -- whatever has been marked was marked before the worker woke up
    rw [hworker] at h
    obtain ⟨hle, -, -, hmark⟩ := h
    exact ⟨le_rfl, Nat.le_add_right _ _, fun t ht => hle.trans (hmark t ht)⟩
  | @skips since hworker hidle hnone =>
    rw [hworker] at h
    obtain ⟨hle, hge, -⟩ := h
    refine ⟨hle, hge, hidle, fun t ht => ?_⟩
    -- the change was too recent
    have hrecent : s.now - t < debounce := by
      change s.world.data.dirty = some t at ht
      rw [snapshot, hm.output, ht] at hnone
      by_contra hold
      simp [hold] at hnone
    omega
  | @returns since hworker =>
    rw [hworker] at h
    obtain ⟨hle, hge, hidle, hmark⟩ := h
    refine ⟨Nat.le_add_right _ _, le_rfl, hidle, fun t ht => ?_⟩
    have hsince := hmark t ht
    omega

/-! ### Time goes on -/

/-- A snapshot is for the path that is configured. -/
theorem snapshot_output {d : Rib.Data} {force : Bool} {now : ℕ} {p : String}
    {rows : List Rib.Route} (h : snapshot d force now = some (p, rows)) : d.output = some p := by
  unfold snapshot at h
  split_ifs at h
  obtain ⟨p', hp, heq⟩ := Option.map_eq_some_iff.mp h
  rw [hp, (Prod.mk.inj heq).1]

/-- Nothing has changed since. -/
structure Paced.Quiet (s s' : Paced) : Prop where
  touched : s'.touched = s.touched
  routes : s'.world.data.routes = s.world.data.routes
  landed : s'.race.landed = s.race.landed

theorem Paced.Quiet.trans {s s' s'' : Paced} (h : s.Quiet s') (h' : s'.Quiet s'') :
    s.Quiet s'' :=
  ⟨h'.touched.trans h.touched, h'.routes.trans h.routes, h'.landed.trans h.landed⟩

/-- What happens while nothing changes. -/
def Calm (path : String) (limit : ℕ) (s : Paced) (es : List PacedEvent) (s' : Paced) : Prop :=
  ((paced path).restrict (Prompt limit)).Run s es s' ∧ s.Quiet s'

theorem Calm.append {limit : ℕ} {s s' s'' : Paced} {es es' : List PacedEvent}
    (h : Calm path limit s es s') (h' : Calm path limit s' es' s'') :
    Calm path limit s (es ++ es') s'' :=
  ⟨h.1.append h'.1, h.2.trans h'.2⟩

theorem Calm.single {limit : ℕ} {s s' : Paced} {e : PacedEvent} (hs : PacedStep path s e s')
    (hp : Prompt limit s e) (hq : s.Quiet s') : Calm path limit s [e] s' :=
  ⟨.single ⟨hp, hs⟩, hq⟩

variable (path) in
/-- A call of the worker comes to its end at once, if the file system lets it. -/
theorem exists_flushed (limit : ℕ) {s : Paced} {since : ℕ} (hm : Marked path s)
    (h : s.worker = .flushing since) : ∃ es s', Calm path limit s es s' ∧
      s'.worker = .flushed since ∧ s'.now = s.now := by
  have hdoes : ∀ (s : Paced) (l : Label) (p : World × Race), l.At s →
      (races path).step (s.world, s.race) l p →
      PacedStep path s (.does l) ⟨p.1, p.2, s.now, s.touch l p.1, s.worker.next l⟩ :=
    fun s l p hat hs => .does hat hs
  -- from behind the replacement of the file
  have hwritten : ∀ s : Paced, s.worker = .flushing since → s.world.phase .periodic = .written →
      ∃ es s', Calm path limit s es s' ∧ s'.worker = .flushed since ∧ s'.now = s.now := by
    intro s hworker hphase
    have hs := hdoes s (.clear .periodic) (_, _) trivial ⟨.clear hphase rfl, rfl⟩
    exact ⟨_, _, .single hs trivial ⟨rfl, rfl, rfl⟩, by dsimp only; rw [hworker]; rfl, rfl⟩
  -- from behind the first phase
  have hholding : ∀ (s : Paced) (rows : List Rib.Route), s.worker = .flushing since →
      s.world.phase .periodic = .holding rows →
      ∃ es s', Calm path limit s es s' ∧ s'.worker = .flushed since ∧ s'.now = s.now := by
    intro s rows hworker hphase
    obtain ⟨s₁, hs, hq, hworker₁, hphase₁, hnow₁⟩ : ∃ s₁, PacedStep path s
        (.does (.write .periodic)) s₁ ∧ s.Quiet s₁ ∧ s₁.worker = .flushing since ∧
        s₁.world.phase .periodic = .written ∧ s₁.now = s.now :=
      ⟨_, hdoes s _ (_, _) trivial ⟨.write hphase, rfl⟩, ⟨rfl, rfl, rfl⟩, by rw [hworker]; rfl,
        Function.update_self Caller.periodic Phase.written s.world.phase, rfl⟩
    obtain ⟨es, s', hr, hflushed, hnow⟩ := hwritten s₁ hworker₁ hphase₁
    exact ⟨_, s', (Calm.single hs trivial hq).append hr, hflushed, hnow.trans hnow₁⟩
  cases hphase : s.world.phase .periodic with
  | written => exact hwritten s h hphase
  | holding rows => exact hholding s rows h hphase
  | idle =>
    cases hsnap : snapshot s.world.data false s.now with
    | none =>
      have hs : PacedStep path s .skips _ := .skips h hphase hsnap
      exact ⟨_, _, .single hs trivial ⟨rfl, rfl, rfl⟩, rfl, rfl⟩
    | some taken =>
      obtain ⟨p, rows⟩ := taken
      obtain rfl : p = path := Option.some.inj ((snapshot_output hsnap).symm.trans hm.output)
      obtain ⟨s₁, hs, hq, hworker₁, hphase₁, hnow₁⟩ : ∃ s₁, PacedStep p s
          (.does (.snapshot .periodic s.now)) s₁ ∧ s.Quiet s₁ ∧ s₁.worker = .flushing since ∧
          s₁.world.phase .periodic = .holding rows ∧ s₁.now = s.now :=
        ⟨_, hdoes s _ (_, _) ⟨rfl, fun _ => ⟨since, h⟩⟩ ⟨.snapshot hphase hsnap, rfl⟩,
          ⟨rfl, rfl, rfl⟩, by rw [h]; rfl,
          Function.update_self Caller.periodic (Phase.holding rows) s.world.phase, rfl⟩
      obtain ⟨es, s', hr, hflushed, hnow⟩ := hholding s₁ rows hworker₁ hphase₁
      exact ⟨_, s', (Calm.single hs trivial hq).append hr, hflushed, hnow.trans hnow₁⟩

/-- The clock can go on while nothing changes. -/
theorem exists_later (limit : ℕ) {s : Paced} (hm : Marked path s) :
    ∃ es s', Calm path limit s es s' ∧ s.now < s'.now := by
  have hsecond : 0 < second := by decide
  -- a worker that has just gone to sleep has a second
  have hflushed : ∀ (s : Paced) (since : ℕ), s.worker = .flushed since →
      ∃ es s', Calm path limit s es s' ∧ s.now < s'.now := by
    intro s since hworker
    have hreturns : PacedStep path s .returns { s with worker := .asleep (s.now + second) } :=
      .returns hworker
    have helapse : Calm path limit { s with worker := .asleep (s.now + second) }
        [.elapse second] _ := .single .elapse (le_refl (s.now + second)) ⟨rfl, rfl, rfl⟩
    exact ⟨_, _, (Calm.single hreturns trivial ⟨rfl, rfl, rfl⟩).append helapse,
      Nat.lt_add_of_pos_right hsecond⟩
  -- a call of the worker can be driven to its end first
  have hflushing : ∀ (s : Paced) (since : ℕ), Marked path s → s.worker = .flushing since →
      ∃ es s', Calm path limit s es s' ∧ s.now < s'.now := by
    intro s since hm hworker
    obtain ⟨es₁, s₁, hr₁, hworker₁, hnow₁⟩ := exists_flushed path limit hm hworker
    obtain ⟨es₂, s₂, hr₂, hlt⟩ := hflushed s₁ since hworker₁
    exact ⟨_, s₂, hr₁.append hr₂, hnow₁ ▸ hlt⟩
  cases hworker : s.worker with
  | flushed since => exact hflushed s since hworker
  | flushing since => exact hflushing s since hm hworker
  | asleep wake =>
    rcases Nat.lt_or_ge s.now wake with hlt | hge
    · have hin : Prompt limit s (.elapse 1) := by
        unfold Prompt
        rw [hworker]
        exact hlt
      have hr : Calm path limit s [.elapse 1] _ := .single .elapse hin ⟨rfl, rfl, rfl⟩
      exact ⟨_, _, hr, Nat.lt_succ_self _⟩
    · have hwakes : PacedStep path s .wakes { s with worker := .flushing s.now } :=
        .wakes hworker hge
      obtain ⟨es, s', hr, hlt⟩ := hflushing _ s.now (hm.step hwakes) rfl
      exact ⟨_, s', (Calm.single hwakes trivial ⟨rfl, rfl, rfl⟩).append hr, hlt⟩

/-- What a step keeps, a run in time keeps. -/
theorem Marked.run {limit : ℕ} {s s' : Paced} {es : List PacedEvent} (hm : Marked path s)
    (h : ((paced path).restrict (Prompt limit)).Run s es s') : Marked path s' :=
  h.preserves (fun _ _ _ hm hs => hm.step hs.2) hm

/-- **The clock can go as far as it likes** while nothing changes. -/
theorem exists_until (limit time : ℕ) {s : Paced} (hm : Marked path s) :
    ∃ es s', Calm path limit s es s' ∧ s.now + time ≤ s'.now := by
  induction time with
  | zero => exact ⟨[], s, ⟨.nil, rfl, rfl, rfl⟩, le_rfl⟩
  | succ time ih =>
    obtain ⟨es, s', h, hle⟩ := ih
    obtain ⟨es', s'', h', hlt⟩ := exists_later limit (hm.run h.1)
    exact ⟨_, s'', h.append h', by omega⟩

/-! ### What is written, and when -/

/-- What holds at every moment of a run in time. -/
structure CadenceFacts (path : String) (limit : ℕ) (s : Paced) : Prop where
  /-- The worker does not begin to write what has changed in the last five seconds. -/
  early : ∀ now s', PacedStep path s (.does (.snapshot .periodic now)) s' →
    s.touched + debounce ≤ s.now
  /-- What has not changed for some time is clean, -/
  clean : s.touched + delay limit < s.now → s.world.data.dirty = none
  /-- and is in the file, unless the change landed while a flush was in progress that has written
  last. -/
  current : s.touched + delay limit < s.now → ¬ (s.race.landed ∧ s.race.behind) →
    s.world.file = document s.world.data.routes.values
  /-- That can come about whatever state the flushes are in. -/
  settles : ∃ es s', Calm path limit s es s' ∧ s'.touched + delay limit < s'.now

/-- A snapshot that is not forced is of data that have been dirty for long enough. -/
theorem snapshot_debounce {d : Rib.Data} {now : ℕ} {p : String} {rows : List Rib.Route}
    (h : snapshot d false now = some (p, rows)) : ∃ t, d.dirty = some t ∧ t + debounce ≤ now := by
  unfold snapshot at h
  cases hd : d.dirty with
  | none => simp [hd] at h
  | some t =>
    refine ⟨t, rfl, ?_⟩
    have hpos : 0 < debounce := by decide
    by_contra hlt
    have hrecent : now - t < debounce := by omega
    simp [hd, hrecent] at h

/-- Data cannot stay dirty for longer than the delay while the worker is in time. -/
theorem Worker.InTime.age {limit : ℕ} {s : Paced} {t : ℕ} (h : s.worker.InTime limit s)
    (ht : s.world.data.dirty = some t) : s.now ≤ t + delay limit := by
  unfold delay
  -- the three places add up to the delay
  cases hworker : s.worker with
  | asleep wake =>
    rw [hworker] at h
    have := h.2.2.2 t ht
    have := h.1
    omega
  | flushing since =>
    rw [hworker] at h
    have := h.2.2 t ht
    have := h.2.1
    omega
  | flushed since =>
    rw [hworker] at h
    have := h.2.2.2 t ht
    have := h.2.1
    omega

/-- **A change reaches the file in time**, in every run in time. -/
theorem cadence_facts {limit : ℕ} {s₀ s : Paced} {es : List PacedEvent}
    (h₀ : (paced path).init s₀) (h : ((paced path).restrict (Prompt limit)).Run s₀ es s) :
    CadenceFacts path limit s := by
  -- the two invariants, by induction on the run
  have hboth : Marked path s ∧ s.worker.InTime limit s := by
    refine h.preserves (P := fun s => Marked path s ∧ s.worker.InTime limit s) ?_ ⟨.init h₀, ?_⟩
    · rintro s e s' ⟨hm, ht⟩ ⟨hprompt, hs⟩
      exact ⟨hm.step hs, ht.step hm hprompt hs⟩
    obtain ⟨⟨hw, -⟩, -, hworker⟩ := h₀
    obtain ⟨-, hdirty, hidle, -⟩ := hw
    rw [hworker]
    refine ⟨Nat.le_add_right _ _, le_rfl, hidle .periodic, fun t ht => ?_⟩
    exact absurd (hdirty.symm.trans ht) nofun
  obtain ⟨hm, ht⟩ := hboth
  -- data that are still dirty are younger than the delay
  have hclean : s.touched + delay limit < s.now → s.world.data.dirty = none := by
    intro hold
    refine Option.eq_none_iff_forall_ne_some.mpr fun t hd => ?_
    have hage := ht.age hd
    rw [hm.mark t hd] at hage
    omega
  refine ⟨fun now s' hs => ?_, hclean, fun hold hrace => ?_, ?_⟩
  · -- a flush that begins has found data that are old enough
    cases hs with
    | @does _ p hat hstep =>
      obtain ⟨hnow, -⟩ := hat
      obtain ⟨w, race⟩ := p
      obtain ⟨hstep, -⟩ := hstep
      change Step path s.world _ w at hstep
      cases hstep with
      | snapshot _ hsnap =>
        rw [hnow] at hsnap
        obtain ⟨t, hd, hold⟩ := snapshot_debounce hsnap
        rwa [hm.mark t hd] at hold
  · -- clean data are in the file, unless a change landed behind the last snapshot
    by_cases hl : s.race.landed
    · exact hm.inv.file fun hb => hrace ⟨hl, hb⟩
    · exact hm.inv.file (hm.inv.clean hl (hclean hold))
  · -- quiet steps let as much time go by as is needed
    obtain ⟨es', s', hcalm, hlate⟩ := exists_until limit (delay limit + 1) hm
    refine ⟨es', s', hcalm, ?_⟩
    have hpast := hm.past
    rw [hcalm.2.touched]
    omega

/-- The state before the first step, with the worker asleep. -/
def startPaced : Paced := ⟨start, .none, 0, 0, .asleep second⟩

theorem startPaced_init : (paced "rib.json").init startPaced :=
  ⟨⟨start_init, rfl⟩, rfl, (Nat.zero_add second).symm ▸ rfl⟩

/-- A row that is announced is in the file when nothing has happened for six seconds. -/
theorem cadence_facts_announced : ∃ s : Paced, s.world.file = document [Rib.sampleRow] ∧
    s.world.data.dirty = none ∧ CadenceFacts "rib.json" 0 s := by
  let w : World := { start with data := announcedData }
  let race := Race.none.next start (.critical announced) w
  have hstep : PacedStep "rib.json" startPaced (.does (.critical announced))
      ⟨w, race, 0, startPaced.touch (.critical announced) w, .asleep second⟩ :=
    .does (p := (w, race)) (fun t ht => (Option.some.inj ht).symm) ⟨start_announced, rfl⟩
  have hrun := System.Run.single (S := (paced "rib.json").restrict (Prompt 0))
    (l := .does (.critical announced)) ⟨trivial, hstep⟩
  have hlanded : ¬ race.landed := by
    -- no flush is in progress when the row comes
    change ¬ (Race.none.next start (.critical announced) w).landed
    unfold Race.next
    dsimp only
    split_ifs
    · exact id
    · exact not_not.mpr fun _ => rfl
  obtain ⟨es, s, hcalm, hlate⟩ := (cadence_facts startPaced_init hrun).settles
  have hfacts := cadence_facts startPaced_init (hrun.append hcalm.1)
  have hfile := hfacts.current hlate fun hrace => hlanded (hcalm.2.landed ▸ hrace.1)
  have hvalues : s.world.data.routes.values = [Rib.sampleRow] := by
    rw [hcalm.2.routes]
    exact values_announced
  exact ⟨s, hvalues ▸ hfile, hfacts.clean hlate, hfacts⟩

end Persist
