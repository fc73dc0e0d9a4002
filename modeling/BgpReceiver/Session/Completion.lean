import BgpReceiver.Session.Lifecycle

/-!
# Requests come to their end

A request that holds the control lock waits for the session task, and the task may be
anywhere: waiting for a connection, in the middle of an UPDATE, writing to a peer that does
not read, between two connections. Wherever it is, the program can go on to the end of the
request without the peer, without a timer and without another request, and the number of
steps that this takes is bounded by the acts that the task has left (`request_completes`).

So no reachable state is a deadlock, and no critical section on the way fails: what a task
has left to do are sections, which always run on a consistent store, or a write, which a
stop does not wait for (`Ready`).
-/

namespace Session

open Rib (Section)

/-! ### What is left to do -/

/-- The acts of a task that is not on a connection. -/
def Act.Outer : Act → Prop
  | .setState .idle | .setState .connect | .disconnected | .runEnded => True
  | _ => False

/-- What can be left to do while a request waits: a task that is not on a connection waits for
no write, a task has been told to stop, and a request acts once. -/
structure Ready (w : World) : Prop where
  outer : ∀ t, w.session = some t → (∀ c, t.place ≠ .session c) → ∀ a ∈ t.todo, a.Outer
  told : ∀ r t, w.request = some (.joining r) → w.session = some t → t.stopSent = true
  acting : ∀ todo spawn, w.request = some (.acting todo spawn) → todo = [] ∨
    todo = [.stop] ∧ spawn = none ∨ ∃ config, todo = [.start config] ∧ spawn = some config

theorem Ready.new (output : Option String) : Ready (World.new output) :=
  ⟨fun t ht => absurd ht (by simp [World.new]), fun r t hr => absurd hr (by simp [World.new]),
    fun todo spawn hr => absurd hr (by simp [World.new])⟩

/-- A step of the task, with what it does to the task. -/
theorem Ready.task {w w' : World} (h : Ready w) {t t' : Task} (ht : w.session = some t)
    (ht' : w'.session = some t') (hr : w'.request = w.request) (hs : t'.stopSent = t.stopSent)
    (houter : (∀ c, t'.place ≠ .session c) → ∀ a ∈ t'.todo, a.Outer) : Ready w' where
  outer := by
    intro t₁ ht₁
    rw [ht'] at ht₁
    obtain rfl := Option.some.inj ht₁
    exact houter
  told := by
    intro r t₁ hr₁ ht₁
    rw [ht'] at ht₁
    obtain rfl := Option.some.inj ht₁
    exact hs.trans (h.told r t (hr ▸ hr₁) ht)
  acting := fun todo spawn hr₁ => h.acting todo spawn (hr ▸ hr₁)

/-- A step of the request, behind which it waits for nothing. -/
theorem Ready.request {w w' : World} (h : Ready w) (ht : w'.session = w.session)
    (hj : ∀ r, w'.request ≠ some (.joining r))
    (ha : ∀ todo spawn, w'.request = some (.acting todo spawn) → todo = [] ∨
      todo = [.stop] ∧ spawn = none ∨ ∃ config, todo = [.start config] ∧ spawn = some config) :
    Ready w' :=
  ⟨fun t ht' => h.outer t (ht ▸ ht'), fun r _ hr => absurd hr (hj r), ha⟩

/-- A task that is on no connection has no write to do. -/
theorem Ready.write {w : World} (h : Ready w) {t : Task} (ht : w.session = some t)
    (hp : ∀ c, t.place ≠ .session c) : .write ∉ t.todo :=
  fun hw => h.outer t ht hp _ hw

/-- **Every step keeps the program ready.** -/
theorem Ready.step {digest : Bytes → Vector UInt8 20} {w w' : World} {e : Event} (h : Ready w)
    (hstep : Step digest w e w') : Ready w' := by
  -- by step of the world: most of them touch the task, the others the request
  cases hstep with
  | free => exact ⟨h.outer, h.told, h.acting⟩
  | act ht htodo hdoes =>
    refine h.task ht rfl rfl rfl fun hp b hb => h.outer _ ht hp b ?_
    rw [htodo]
    exact List.mem_cons_of_mem _ hb
  | wrote ht htodo =>
    refine h.task ht rfl rfl rfl fun hp b hb => h.outer _ ht hp b ?_
    rw [htodo]
    exact List.mem_cons_of_mem _ hb
  | connect _ _ ht | frame _ ht | keepalive _ ht =>
    exact h.task ht rfl rfl rfl fun hp => absurd rfl (hp _)
  | retry queued ht htodo =>
    -- a retry has nothing left to do
    refine h.task ht rfl rfl rfl fun _ b hb => ?_
    rw [htodo] at hb
    exact absurd hb List.not_mem_nil
  | turn ht | connectFails ht | frameFails ht | connectionFails ht | stoppedIdle ht
  | stoppedConnected ht =>
    -- what these steps put down is what follows a connection
    exact h.task ht rfl rfl rfl fun _ => by simp [afterConnection, Act.Outer]
  | request r =>
    refine ⟨fun t' ht' hp => ?_, fun _ t' _ ht' => ?_, fun todo spawn hr => by simp at hr⟩
    · obtain ⟨t, ht, rfl⟩ := Option.map_eq_some_iff.mp ht'
      exact h.outer t ht hp
    · obtain ⟨t, -, rfl⟩ := Option.map_eq_some_iff.mp ht'
      rfl
  | joinedStop =>
    refine ⟨fun t ht => absurd ht (by simp), fun r t hr => absurd hr (by simp),
      fun todo spawn hr => Or.inr (Or.inl ?_)⟩
    obtain ⟨rfl, rfl⟩ := Stage.acting.inj (Option.some.inj hr)
    exact ⟨rfl, rfl⟩
  | joinedStart =>
    exact ⟨fun t ht => absurd ht (by simp), fun r t hr => absurd hr (by simp),
      fun todo spawn hr => absurd hr (by simp)⟩
  | flushFails | released => exact h.request rfl (by simp) (by simp)
  | flushed =>
    refine h.request rfl (by simp) fun todo spawn hr => Or.inr (Or.inr ?_)
    obtain ⟨rfl, rfl⟩ := Stage.acting.inj (Option.some.inj hr)
    exact ⟨_, rfl, rfl⟩
  | requestAct hr =>
    refine h.request rfl (by simp) fun todo spawn hr' => Or.inl ?_
    obtain ⟨rfl, rfl⟩ := Stage.acting.inj (Option.some.inj hr')
    -- what a request does is one section
    rcases h.acting _ _ hr with hnil | ⟨hcons, -⟩ | ⟨config, hcons, -⟩
    · exact absurd hnil (by simp)
    · exact (List.cons.inj hcons).2
    · exact (List.cons.inj hcons).2
  | spawned =>
    refine ⟨fun t ht _ => ?_, fun r t hr => absurd hr (by simp),
      fun todo spawn hr => absurd hr (by simp)⟩
    obtain rfl := Option.some.inj ht
    exact fun a ha => absurd ha List.not_mem_nil

/-- It is ready in every reachable state. -/
theorem lifecycle_ready {digest : Bytes → Vector UInt8 20} {w : World}
    (h : (lifecycle digest).Reachable w) : Ready w := by
  refine System.Invariant.reachable ⟨?_, fun w e w' hw hstep => hw.step hstep⟩ h
  rintro w ⟨output, rfl⟩
  exact .new output

/-! ### Going on without help -/

/-- The events that need neither the peer nor a timer nor a request: what a task has to do, a stop
that it has been told, a connection that is queued already, and the stages of the request. -/
def Unaided (w : World) : Event → Prop
  | .act _ | .turn | .stopped | .joined | .flushed | .requestAct _ | .spawned | .released => True
  | .connect _ => ∃ t, w.session = some t ∧ t.place = .connecting true
  | _ => False

/-- The program without help from outside. -/
def unaided (digest : Bytes → Vector UInt8 20) : System World Event :=
  (lifecycle digest).restrict Unaided

variable {digest : Bytes → Vector UInt8 20}

/-- An act that is not a write has a section. -/
theorem Act.exists_does {a : Act} (h : a ≠ .write) : ∃ s, a.Does s := by
  cases a with
  | write => exact absurd rfl h
  | setState state => exact ⟨_, .setState state⟩
  | peerInfo info => exact ⟨_, .peerInfo info⟩
  | route op => exact ⟨_, .route op 0⟩
  | disconnected => exact ⟨_, .disconnected 0⟩
  | runEnded => exact ⟨_, .runEnded 0⟩
  | stop => exact ⟨_, .stop 0⟩
  | start config => exact ⟨_, .start config 0⟩

/-- The acts before a write are done. -/
theorem acts_unaided {w : World} (h : (lifecycle digest).Reachable w) {t : Task}
    (ht : w.session = some t) {pre rest : List Act} (htodo : t.todo = pre ++ rest)
    (hpre : .write ∉ pre) :
    ∃ ls w', (unaided digest).Run w ls w' ∧ ls.length = pre.length ∧
      w'.session = some { t with todo := rest } ∧ w'.request = w.request := by
  obtain ⟨config, stopSent, place, todo⟩ := t
  obtain rfl : todo = pre ++ rest := htodo
  -- act by act; every one of them is a section that cannot fail
  induction pre generalizing w with
  | nil => exact ⟨[], w, .nil, rfl, ht, rfl⟩
  | cons a pre ih =>
    obtain ⟨sh, hs, -⟩ := lifecycle_inv h
    obtain ⟨s, hdoes⟩ := Act.exists_does (List.ne_of_not_mem_cons hpre).symm
    obtain ⟨d, hrun, -⟩ := s.run_consistent (Rib.sections_consistent hs.reachable)
    have hstep : Step digest w (.act s) _ := .act ht rfl hdoes hrun
    obtain ⟨ls, w', hr, hlen, hw', hreq⟩ :=
      ih (h.step hstep) (List.not_mem_of_not_mem_cons hpre) rfl
    have hone : (unaided digest).Run w [.act s] _ := .single ⟨trivial, hstep⟩
    exact ⟨[.act s] ++ ls, w', hone.append hr,
      by rw [List.length_append, hlen]; exact Nat.add_comm 1 _, hw', hreq⟩

/-- What a task has left to do is what stands in front of its first write, and the rest. -/
theorem split_write (todo : List Act) : ∃ pre rest, todo = pre ++ rest ∧ .write ∉ pre ∧
    (rest = [] ∨ ∃ more, rest = .write :: more) := by
  induction todo with
  | nil => exact ⟨[], [], rfl, List.not_mem_nil, Or.inl rfl⟩
  | cons a todo ih =>
    -- the list is split at the first write
    by_cases ha : a = .write
    · exact ⟨[], a :: todo, rfl, List.not_mem_nil, Or.inr ⟨todo, by rw [ha]⟩⟩
    · obtain ⟨pre, rest, rfl, hpre, hrest⟩ := ih
      refine ⟨a :: pre, rest, rfl, fun hmem => ?_, hrest⟩
      rcases List.mem_cons.mp hmem with heq | hmem
      · exact ha heq.symm
      · exact hpre hmem

/-- What a task has at its place is done, when none of it is a write. -/
theorem acts_all {w : World} (h : (lifecycle digest).Reachable w) {t : Task}
    (ht : w.session = some t) (hpre : .write ∉ t.todo) :
    ∃ ls w', (unaided digest).Run w ls w' ∧ ls.length = t.todo.length ∧
      w'.session = some { t with todo := [] } ∧ w'.request = w.request :=
  acts_unaided h ht (List.append_nil _).symm hpre

/-! ### The end of a task -/

/-- The task of a world comes to its end within some steps. -/
def Finishes (digest : Bytes → Vector UInt8 20) (w : World) (n : ℕ) : Prop :=
  ∃ ls w' t, (unaided digest).Run w ls w' ∧ ls.length ≤ n ∧ w'.request = w.request ∧
    w'.session = some t ∧ t.place = .finished ∧ t.todo = []

/-- Steps that leave the request alone may be in front. -/
theorem Finishes.after {w w₁ : World} {ls : List Event} {n m : ℕ}
    (hr : (unaided digest).Run w ls w₁) (hreq : w₁.request = w.request)
    (h : Finishes digest w₁ n) (hm : ls.length + n ≤ m) : Finishes digest w m := by
  obtain ⟨ls', w', t, hr', hlen, hreq', ht⟩ := h
  refine ⟨ls ++ ls', w', t, hr.append hr', ?_, hreq'.trans hreq, ht⟩
  rw [List.length_append]
  omega

section

variable {w : World} (h : (lifecycle digest).Reachable w) {t : Task} (ht : w.session = some t)

include h ht

/-- Behind its loop a task has only its last acts left. -/
theorem finishes_finished (hp : t.place = .finished) : Finishes digest w t.todo.length := by
  obtain ⟨ls, w', hr, hlen, ht', hreq⟩ :=
    acts_all h ht ((lifecycle_ready h).write ht fun c hc => by simp [hp] at hc)
  exact ⟨ls, w', _, hr, hlen.le, hreq, ht', hp, rfl⟩

/-- A stop ends a connection at the next write, or when nothing is left to do. -/
theorem finishes_connected {c : Conn} (hp : t.place = .session c) (hstop : t.stopSent = true) :
    Finishes digest w (t.todo.length + 4) := by
  obtain ⟨pre, rest, hsplit, hpre, hrest⟩ := split_write t.todo
  obtain ⟨ls, w₁, hr, hlen, ht₁, hreq⟩ := acts_unaided h ht hsplit hpre
  have hstep : Step digest w₁ .stopped _ := .stoppedConnected ht₁ hrest hstop hp
  have hr₁ := hr.snoc (show (unaided digest).step w₁ .stopped _ from ⟨trivial, hstep⟩)
  refine (finishes_finished (h.run hr₁.of_restrict) rfl rfl).after hr₁ hreq ?_
  have hle := congrArg List.length hsplit
  rw [List.length_append] at hle ⊢
  simp only [afterConnection, List.length_append, List.length_cons, List.length_nil]
  omega

/-- A task that waits and is told to stop leaves its loop. -/
theorem finishes_waiting (hp : t.place = .waiting) (hstop : t.stopSent = true) :
    Finishes digest w (t.todo.length + 2) := by
  obtain ⟨ls, w₁, hr, hlen, ht₁, hreq⟩ :=
    acts_all h ht ((lifecycle_ready h).write ht fun c hc => by simp [hp] at hc)
  have hstep : Step digest w₁ .stopped _ := .stoppedIdle ht₁ rfl hstop (Or.inr hp)
  have hr₁ := hr.snoc (show (unaided digest).step w₁ .stopped _ from ⟨trivial, hstep⟩)
  refine (finishes_finished (h.run hr₁.of_restrict) rfl rfl).after hr₁ hreq ?_
  rw [List.length_append, hlen]
  rfl

/-- So does one that connects, behind the acts of the attempt. -/
theorem finishes_connecting {queued : Bool} (hp : t.place = .connecting queued)
    (hstop : t.stopSent = true) : Finishes digest w (t.todo.length + 7) := by
  obtain ⟨ls, w₁, hr, hlen, ht₁, hreq⟩ :=
    acts_all h ht ((lifecycle_ready h).write ht fun c hc => by simp [hp] at hc)
  -- a connection may be waiting in the listener
  cases queued with
  | false =>
    have hstep : Step digest w₁ .stopped _ := .stoppedIdle ht₁ rfl hstop (Or.inl hp)
    have hr₁ := hr.snoc (show (unaided digest).step w₁ .stopped _ from ⟨trivial, hstep⟩)
    refine (finishes_finished (h.run hr₁.of_restrict) rfl rfl).after hr₁ hreq ?_
    rw [List.length_append, hlen]
    simp
  | true =>
    -- a queued connection is taken first
    have hstep : Step digest w₁ (.connect 0) _ :=
      .connect 0 ⟨fun _ => "", fun _ => 0, fun _ => "", true⟩ ht₁ rfl hp
    have hr₁ := hr.snoc (show (unaided digest).step w₁ (.connect 0) _ from
      ⟨⟨_, ht₁, hp⟩, hstep⟩)
    refine (finishes_connected (h.run hr₁.of_restrict) rfl rfl hstop).after hr₁ hreq ?_
    rw [List.length_append, hlen]
    show _ + 1 + (2 + 4) ≤ _
    omega

/-- At the head of its loop a task takes one more turn first. -/
theorem finishes_loop {queued : Bool} (hp : t.place = .loop queued) (hstop : t.stopSent = true) :
    Finishes digest w (t.todo.length + 9) := by
  obtain ⟨ls, w₁, hr, hlen, ht₁, hreq⟩ :=
    acts_all h ht ((lifecycle_ready h).write ht fun c hc => by simp [hp] at hc)
  have hstep : Step digest w₁ .turn _ := .turn ht₁ rfl hp
  have hr₁ := hr.snoc (show (unaided digest).step w₁ .turn _ from ⟨trivial, hstep⟩)
  refine (finishes_connecting (h.run hr₁.of_restrict) rfl rfl hstop).after hr₁ hreq ?_
  rw [List.length_append, hlen]
  show _ + 1 + (1 + 7) ≤ _
  omega

/-- **A task that has been told to stop comes to its end**, wherever it is. -/
theorem finishes (hstop : t.stopSent = true) : Finishes digest w (t.todo.length + 9) := by
  have hle : ∀ {n}, n ≤ 9 → Finishes digest w (t.todo.length + n) →
      Finishes digest w (t.todo.length + 9) := fun hn hf => hf.after .nil rfl (by simp; omega)
  cases hp : t.place with
  | loop queued => exact finishes_loop h ht hp hstop
  | connecting queued => exact hle (by omega) (finishes_connecting h ht hp hstop)
  | session c => exact hle (by omega) (finishes_connected h ht hp hstop)
  | waiting => exact hle (by omega) (finishes_waiting h ht hp hstop)
  | finished => exact hle (Nat.zero_le _) (finishes_finished h ht hp)

end

/-! ### The end of a request -/

/-- The session that a request is going to spawn. -/
def Stage.spawns : Stage → Option Config
  | .joining .stop => none
  | .joining (.start config) | .flushing config => some config
  | .acting _ spawn => spawn

/-- How a request ends. -/
structure Completed (w : World) (spawns : Option Config) : Prop where
  released : w.request = none
  session : w.session = spawns.map fun config => ⟨config, false, .loop false, []⟩
  state : w.data.state = .idle
  running : w.data.running = spawns.isSome
  routes : w.data.routes.values = []

/-- The request has been completed within some steps. -/
def Completes (digest : Bytes → Vector UInt8 20) (w : World) (spawns : Option Config) (n : ℕ) :
    Prop :=
  ∃ ls w', (unaided digest).Run w ls w' ∧ ls.length ≤ n ∧ Completed w' spawns

theorem Completes.after {w w₁ : World} {spawns : Option Config} {ls : List Event} {n m : ℕ}
    (hr : (unaided digest).Run w ls w₁) (h : Completes digest w₁ spawns n)
    (hm : ls.length + n ≤ m) : Completes digest w spawns m := by
  obtain ⟨ls', w', hr', hlen, hc⟩ := h
  refine ⟨ls ++ ls', w', hr.append hr', ?_, hc⟩
  rw [List.length_append]
  omega

/-- What the invariant says of a world without a request, with no task or with a new one. -/
theorem completed_of_reachable {w : World} (h : (lifecycle digest).Reachable w)
    {spawns : Option Config} (hreq : w.request = none)
    (hses : w.session = spawns.map fun config => ⟨config, false, .loop false, []⟩) :
    Completed w spawns := by
  obtain ⟨sh, hs, hf⟩ := lifecycle_inv h
  -- without a request the shape is that of the session, or idle
  have hsh : sh = ⟨.idle, spawns.isSome, false⟩ := by
    rw [hreq, hses] at hf
    cases spawns with
    | none =>
      cases hf with
      | idle => rfl
    | some config => exact hf.of_session.2.1
  -- an idle or connecting world has no rows
  have hrows : w.data.routes.values = [] := by
    refine List.eq_nil_iff_forall_not_mem.mpr fun r hr => ?_
    obtain ⟨s, hrow⟩ := w.data.routes.mem_values_iff.mp hr
    rw [hsh] at hs
    exact absurd (hs.rows s r hrow).1 (by simp)
  refine ⟨hreq, hses, ?_, ?_, hrows⟩
  · rw [hs.label, hsh]
  · rw [hs.running, hsh]

/-- A request that has its section left takes it and lets go of the lock. -/
theorem completes_acting {w : World} (h : (lifecycle digest).Reachable w) {todo : List Act}
    {spawn : Option Config} (hreq : w.request = some (.acting todo spawn)) :
    Completes digest w spawn 2 := by
  -- with no act left the request is released, or spawns its session
  have hnone : ∀ {w : World}, (lifecycle digest).Reachable w →
      w.request = some (.acting [] spawn) → Completes digest w spawn 1 := by
    intro w h hreq
    obtain ⟨sh, hs, hf⟩ := lifecycle_inv h
    rw [hreq] at hf
    have hses := hf.of_acting.1
    cases spawn with
    | none =>
      have hstep : Step digest w .released _ := .released hreq
      exact ⟨[.released], _, .single ⟨trivial, hstep⟩, le_rfl,
        completed_of_reachable (h.step hstep) rfl hses⟩
    | some config =>
      have hstep : Step digest w .spawned _ := .spawned hreq
      exact ⟨[.spawned], _, .single ⟨trivial, hstep⟩, le_rfl,
        completed_of_reachable (h.step hstep) rfl rfl⟩
  cases todo with
  | nil => exact (hnone h hreq).after .nil (by simp)
  | cons a rest =>
    obtain ⟨sh, hs, -⟩ := lifecycle_inv h
    -- a request has one act to do
    have hone : rest = [] ∧ a ≠ .write := by
      rcases (lifecycle_ready h).acting _ _ hreq with hnil | ⟨hcons, -⟩ | ⟨config, hcons, -⟩
      · exact absurd hnil (by simp)
      all_goals
        obtain ⟨rfl, rfl⟩ := List.cons.inj hcons
        exact ⟨rfl, by simp⟩
    obtain ⟨rfl, hwrite⟩ := hone
    obtain ⟨s, hdoes⟩ := Act.exists_does hwrite
    obtain ⟨d, hrun, -⟩ := s.run_consistent (Rib.sections_consistent hs.reachable)
    have hstep : Step digest w (.requestAct s) _ := .requestAct hreq hdoes hrun
    have hr : (unaided digest).Run w [.requestAct s] _ := .single ⟨trivial, hstep⟩
    exact (hnone (h.step hstep) rfl).after hr le_rfl

/-- A start behind its old session flushes, and then acts. -/
theorem completes_flushing {w : World} (h : (lifecycle digest).Reachable w) {config : Config}
    (hreq : w.request = some (.flushing config)) : Completes digest w (some config) 3 := by
  have hstep : Step digest w .flushed _ := .flushed hreq
  have hr : (unaided digest).Run w [.flushed] _ := .single ⟨trivial, hstep⟩
  exact (completes_acting (h.step hstep) rfl).after hr le_rfl

/-- A request whose session has ended. -/
theorem completes_joined {w : World} (h : (lifecycle digest).Reachable w) {r : Request}
    (hreq : w.request = some (.joining r))
    (hdone : ∀ t, w.session = some t → t.place = .finished ∧ t.todo = []) :
    Completes digest w (Stage.joining r).spawns 4 := by
  cases r with
  | stop =>
    have hstep : Step digest w .joined _ := .joinedStop hreq hdone
    have hr : (unaided digest).Run w [.joined] _ := .single ⟨trivial, hstep⟩
    exact (completes_acting (h.step hstep) rfl).after hr (by simp)
  | start config =>
    have hstep : Step digest w .joined _ := .joinedStart hreq hdone
    have hr : (unaided digest).Run w [.joined] _ := .single ⟨trivial, hstep⟩
    exact (completes_flushing (h.step hstep) rfl).after hr le_rfl

/-- **No request waits forever**: from every reachable state in which one holds the control lock,
the program comes to its end without help, within a number of steps that depends on what the
session task has left to do only. -/
theorem request_completes {w : World} (h : (lifecycle digest).Reachable w) {stage : Stage}
    (hreq : w.request = some stage) :
    Completes digest w stage.spawns ((w.session.elim 0 fun t => t.todo.length) + 13) := by
  -- by stage: a request acts, writes the configuration or waits for the session
  cases stage with
  | acting todo spawn => exact (completes_acting h hreq).after .nil (by simp)
  | flushing config => exact (completes_flushing h hreq).after .nil (by simp)
  | joining r =>
    -- there may be no session to wait for
    cases hses : w.session with
    | none =>
      exact (completes_joined h hreq fun t ht => by simp [hses] at ht).after .nil (by simp)
    | some t =>
      obtain ⟨ls, w₁, t₁, hr, hlen, hreq₁, ht₁, hp₁, htodo₁⟩ :=
        finishes h hses ((lifecycle_ready h).told r t hreq hses)
      refine (completes_joined (h.run hr.of_restrict) (hreq₁.trans hreq) fun t' ht' => ?_).after hr
        ?_
      · rw [ht₁] at ht'
        obtain rfl := Option.some.inj ht'
        exact ⟨hp₁, htodo₁⟩
      · show _ ≤ t.todo.length + 13
        omega

/-- A stop that comes before the session has written its OPEN. -/
theorem request_completes_opening : ∃ w, (lifecycle sampleDigest).Reachable w ∧
    w.request = some (.joining .stop) ∧ w.data.routes.values = [] ∧
    Completes sampleDigest w none 15 := by
  -- from an idle world a start is carried out, the session calls, and a stop comes in
  have h₀ : (lifecycle sampleDigest).Reachable (World.new none) := .init ⟨none, rfl⟩
  have h₁ := h₀.step (Step.request (.start sampleConfig) rfl fun config hc => by
    rw [← Request.start.inj hc]
    exact sampleConfig_valid)
  have h₂ := h₁.step (Step.joinedStart rfl fun t ht => absurd ht (by simp [World.new]))
  have h₃ := h₂.step (Step.flushed rfl)
  have h₄ := h₃.step (Step.requestAct rfl (.start sampleConfig 0) rfl)
  have h₅ := h₄.step (Step.spawned rfl)
  have h₆ := h₅.step (Step.turn rfl rfl rfl)
  have h₇ := h₆.step (Step.act rfl rfl (.setState .connect) rfl)
  have h₈ := h₇.step (Step.connect 0 sampleOutside rfl rfl rfl)
  have h₉ := h₈.step (Step.request .stop rfl (by simp))
  exact ⟨_, h₉, rfl, rfl, request_completes h₉ rfl⟩

end Session
