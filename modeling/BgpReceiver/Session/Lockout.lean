import BgpReceiver.Session.Start

/-!
# An output path that cannot be written

`App::start` flushes the table to the output path of before, and only behind that flush it
puts the path of the new configuration in its place. What `start` returns is therefore
decided by the path that is configured already (`returns_iff`): with one that cannot be
written, no configuration is started, and the path stays where it is. `App::stop` ignores
the same failure and does not touch the path, so there is no way out in any run
(`start_free_iff`).

The file operations are a parameter here (`FileIo`). That `start` gets to its flush at all
rests on the tasks: a session that has been told to stop comes to its end from wherever it
is (`exists_ended`), and so does a capture.
-/

namespace Session.Control

open Rib (Data Section)
open System (getElem?_set_self_of)

/-- Whether the file operations of a flush to a path succeed. -/
abbrev FileIo := String → Bool

/-- The flush of `start` goes as the file operations on the output path do. -/
def Obeys (io : FileIo) (w : World) : Event → Prop
  | .prepared => ∀ config, w.holder = some (.preparing (.session (.start config))) →
      w.data.output.all io = true
  | .fails => ∀ config, w.holder = some (.preparing (.session (.start config))) →
      w.data.output.all io = false
  | _ => True

section

variable (digest : Bytes → Vector UInt8 20) (io : FileIo)

/-- The requests and the tasks, on such files. -/
def under : System World Event := (control digest).restrict (Obeys io)

/-- The steps while a request holds the lock: no other one takes it. -/
def inCall : System World Event := (under digest io).restrict fun _ e => ∀ c, e ≠ .acquires c

/-- The steps of the tasks alone. -/
def tasks : System World Event := (control digest).restrict fun _ e => e.Background

/-- `start` is called in one world and returns in another, with `Ok` or not. -/
inductive Returns (config : Config) (w : World) : Bool → World → Prop
  | ok {w₁ w₂ w' : World} {ls : List Event} :
      (under digest io).step w (.acquires (.session (.start config))) w₁ →
      (inCall digest io).Run w₁ ls w₂ →
      w₂.holder = some (.spawning (.session (.start config))) →
      (under digest io).step w₂ .spawns w' → Returns config w true w'
  | error {w₁ w₂ w' : World} {ls : List Event} :
      (under digest io).step w (.acquires (.session (.start config))) w₁ →
      (inCall digest io).Run w₁ ls w₂ →
      w₂.holder = some (.preparing (.session (.start config))) →
      (under digest io).step w₂ .fails w' → Returns config w false w'

end

variable {digest : Bytes → Vector UInt8 20} {io : FileIo}

/-! ### Handles -/

/-- A handle is that of a task that has been spawned. -/
structure Handled (w : World) : Prop where
  session : ∀ i, w.session = some i → i < w.sessions.length
  capture : ∀ j, w.capture = some j → j < w.captures.length

/-- **Every step keeps the handles in order.** -/
theorem Handled.step {w w' : World} {e : Event} (hi : Inv w) (h : Handled w)
    (hs : Step digest w e w') : Handled w' := by
  by_cases hback : e.Background
  · -- tasks do not touch the handles, and no task is dropped from the lists
    obtain ⟨-, hses, hcap, -, -, hlater⟩ := hs.background hi hback
    refine ⟨fun i hi => ?_, fun j hj => ?_⟩
    · rw [hlater.sessions]
      exact h.session i (hses ▸ hi)
    · rw [hlater.captures]
      exact h.capture j (hcap ▸ hj)
  cases hs with
  | free | session | sessionEnds | captureClears | captureEnds | invalid =>
    exact absurd trivial hback
  | takesSession => exact ⟨fun i hi => absurd hi (by simp), h.capture⟩
  | takesCapture => exact ⟨h.session, fun j hj => absurd hj (by simp)⟩
  | spawnsSession =>
    refine ⟨fun i hi => ?_, h.capture⟩
    -- the handle is that of the task that has just been added
    rw [← Option.some.inj hi]
    simp
  | spawnsCapture =>
    refine ⟨h.session, fun j hj => ?_⟩
    rw [← Option.some.inj hj]
    simp
  | acquires | joinsSession | checks | refused | joinsCapture | prepared | fails | writes
  | spawnsNothing | dropped => exact ⟨h.session, h.capture⟩

/-- They are in order in every reachable state. -/
theorem control_handled {w : World} (h : (control digest).Reachable w) : Inv w ∧ Handled w := by
  refine System.Invariant.reachable (P := fun w => Inv w ∧ Handled w) ⟨?_, ?_⟩ h
  · rintro w ⟨output, rfl⟩
    exact ⟨.new output, fun i hi => absurd hi (by simp [World.new]),
      fun j hj => absurd hj (by simp [World.new])⟩
  · rintro w e w' ⟨hi, hh⟩ hs
    exact ⟨hi.step hs, hh.step hi hs⟩

/-! ### Tasks on their own -/

/-- What a world has in common with a later one in which only tasks have done something. -/
structure Aside (w w' : World) : Prop where
  holder : w'.holder = w.holder
  session : w'.session = w.session
  capture : w'.capture = w.capture
  output : w'.data.output = w.data.output
  later : Later w w'

/-- Steps of the tasks leave the requests and the output alone. -/
theorem tasks_aside {w w' : World} {ls : List Event} (hi : Inv w)
    (h : (tasks digest).Run w ls w') : Inv w' ∧ Aside w w' := by
  induction h with
  | nil => exact ⟨hi, rfl, rfl, rfl, rfl, .of_eq rfl rfl⟩
  | snoc _ hs ih =>
    obtain ⟨hi₁, ha⟩ := ih
    obtain ⟨hback, hstep⟩ := hs
    have hstep : Step digest _ _ _ := hstep
    obtain ⟨hholder, hses, hcap, -, hout, hlater⟩ := hstep.background hi₁ hback
    exact ⟨hi₁.step hstep, hholder.trans ha.holder, hses.trans ha.session, hcap.trans ha.capture,
      hout.trans ha.output, ha.later.trans hlater⟩

/-- The tasks go on while a request holds the lock. -/
theorem tasks_inCall {w w' : World} {ls : List Event} (h : (tasks digest).Run w ls w') :
    (inCall digest io).Run w ls w' := by
  refine System.Run.mono (S := tasks digest) (fun w e w' hs => ?_) h
  obtain ⟨hback, hs⟩ := hs
  cases e with
  | free | session | sessionEnds | captureClears | captureEnds | invalid =>
    exact ⟨fun c => by simp, trivial, hs⟩
  | _ => exact absurd hback (by simp [Event.Background])

/-- The tasks can bring a session to its end. -/
def Ends (digest : Bytes → Vector UInt8 20) (i : ℕ) (w : World) : Prop :=
  ∃ ls w' t, (tasks digest).Run w ls w' ∧ w'.sessions[i]? = some ⟨t, true⟩

/-- A task that can end behind some steps can end. -/
theorem Ends.of_run {i : ℕ} {w w' : World} {ls : List Event} (h : (tasks digest).Run w ls w')
    (he : Ends digest i w') : Ends digest i w := by
  obtain ⟨ls', w'', t, hr, ht⟩ := he
  exact ⟨ls ++ ls', w'', t, h.append hr, ht⟩

/-- A session that is about to do something can do it. -/
theorem exists_acted (digest : Bytes → Vector UInt8 20) {w : World} (hi : Inv w) {i : ℕ} {t : Task}
    (ht : w.sessions[i]? = some ⟨t, false⟩) {a : Act} {rest : List Act}
    (htodo : t.todo = a :: rest) :
    ∃ e w', (tasks digest).step w e w' ∧
      w'.sessions[i]? = some ⟨{ t with todo := rest }, false⟩ := by
  -- a message is sent by a step of its own, all other acts are sections on the data
  by_cases ha : a = .write
  · subst ha
    have hs : Step digest w (.session i .wrote) _ := .session ht trivial (.wrote rfl htodo) rfl
    exact ⟨.session i .wrote, _, ⟨trivial, hs⟩, getElem?_set_self_of ht⟩
  · obtain ⟨s, hdoes⟩ : ∃ s, a.Does s := by
      cases a with
      | write => exact absurd rfl ha
      | setState state => exact ⟨_, .setState state⟩
      | peerInfo info => exact ⟨_, .peerInfo info⟩
      | route op => exact ⟨_, .route op 0⟩
      | disconnected => exact ⟨_, .disconnected 0⟩
      | runEnded => exact ⟨_, .runEnded 0⟩
      | stop => exact ⟨_, .stop 0⟩
      | start config => exact ⟨_, .start config 0⟩
    -- no section panics
    obtain ⟨d, hd, -⟩ := s.run_consistent (Rib.sections_consistent hi.reachable)
    have hs : Step digest w (.session i (.act s)) _ :=
      .session ht trivial (.act rfl htodo hdoes hd) rfl
    exact ⟨.session i (.act s), _, ⟨trivial, hs⟩, getElem?_set_self_of ht⟩

/-- **A session gets done with what it is about to do.** -/
theorem exists_drained (digest : Bytes → Vector UInt8 20) {w : World} (hi : Inv w) {i : ℕ}
    {t : Task} (ht : w.sessions[i]? = some ⟨t, false⟩) : ∃ ls w', (tasks digest).Run w ls w' ∧
      w'.sessions[i]? = some ⟨{ t with todo := [] }, false⟩ := by
  obtain ⟨config, stop, place, todo⟩ := t
  -- on what it is about to do, one step for each act
  induction todo generalizing w with
  | nil => exact ⟨[], w, .nil, ht⟩
  | cons a rest ih =>
    obtain ⟨e, w₁, hs, h₁⟩ := exists_acted digest hi ht rfl
    obtain ⟨ls, w', hr, h'⟩ := ih (hi.step hs.2) h₁
    exact ⟨[e] ++ ls, w', (System.Run.single hs).append hr, h'⟩

section Told

variable {w : World} {i : ℕ} {t : Task}

/-- A step of a session that has nothing else to do, and what follows it. -/
theorem Ends.of_turn (hi : Inv w) (ht : w.sessions[i]? = some ⟨t, false⟩) {e : Session.Event}
    {t' : Task} (he : e.OfTask)
    (hturn : ∀ w : World, ∃ v : Session.World,
      Session.Step digest (w.view { t with todo := [] }) e v ∧ v.session = some t')
    (hnext : ∀ w : World, Inv w → w.sessions[i]? = some ⟨t', false⟩ → Ends digest i w) :
    Ends digest i w := by
  obtain ⟨ls, w₁, hr, h₁⟩ := exists_drained digest hi ht
  have hi₁ := (tasks_aside hi hr).1
  obtain ⟨v, hv, hv'⟩ := hturn w₁
  have hs : Step digest w₁ (.session i e) _ := .session h₁ he hv hv'
  have hrun : (tasks digest).Run w₁ [.session i e] _ := .single ⟨trivial, hs⟩
  exact .of_run hr (.of_run hrun (hnext _ (hi₁.step hs) (getElem?_set_self_of h₁)))

theorem ends_finished (hi : Inv w) (ht : w.sessions[i]? = some ⟨t, false⟩)
    (hplace : t.place = .finished) : Ends digest i w := by
  obtain ⟨ls, w₁, hr, h₁⟩ := exists_drained digest hi ht
  have hdead : ¬ Task.Live { t with todo := [] } := by
    rintro (h | h)
    · exact h hplace
    · exact h rfl
  have hs : Step digest w₁ (.sessionEnds i) _ := .sessionEnds h₁ hdead
  have hrun : (tasks digest).Run w₁ [.sessionEnds i] _ := .single ⟨trivial, hs⟩
  exact .of_run hr ⟨_, _, _, hrun, getElem?_set_self_of h₁⟩

/-- A task that waits and has been told to stop can end. -/
theorem ends_waiting (hi : Inv w) (ht : w.sessions[i]? = some ⟨t, false⟩)
    (hstop : t.stopSent = true) (hplace : t.place = .waiting) : Ends digest i w :=
  .of_turn hi ht (e := .stopped) trivial
    (fun _ => ⟨_, .stoppedIdle rfl rfl hstop (Or.inr hplace), rfl⟩)
    fun _ hi' ht' => ends_finished hi' ht' rfl

/-- So can one that connects and has been told to stop. -/
theorem ends_connecting (hi : Inv w) (ht : w.sessions[i]? = some ⟨t, false⟩)
    (hstop : t.stopSent = true) {queued : Bool} (hplace : t.place = .connecting queued) :
    Ends digest i w :=
  .of_turn hi ht (e := .connectFails) trivial
    (fun _ => ⟨_, .connectFails rfl rfl hplace, rfl⟩)
    fun _ hi' ht' => ends_waiting hi' ht' hstop rfl

/-- **A session that has been told to stop comes to its end**, wherever it is. -/
theorem exists_ended (hi : Inv w) (ht : w.sessions[i]? = some ⟨t, false⟩)
    (hstop : t.stopSent = true) : Ends digest i w := by
  cases hplace : t.place with
  | finished => exact ends_finished hi ht hplace
  | waiting => exact ends_waiting hi ht hstop hplace
  | connecting queued => exact ends_connecting hi ht hstop hplace
  | loop queued =>
    -- it begins an attempt before it looks at the flag
    exact .of_turn hi ht (e := .turn) trivial (fun _ => ⟨_, .turn rfl rfl hplace, rfl⟩)
      fun _ hi' ht' => ends_connecting hi' ht' hstop rfl
  | session c =>
    -- the flag closes the connection
    exact .of_turn hi ht (e := .stopped) trivial
      (fun _ => ⟨_, .stoppedConnected rfl (Or.inl rfl) hstop hplace, rfl⟩)
      fun _ hi' ht' => ends_finished hi' ht' rfl

end Told

/-- `stop_task` on a capture returns. -/
theorem exists_captureEnded (digest : Bytes → Vector UInt8 20) (w : World) {handle : Option ℕ}
    (hlt : ∀ j, handle = some j → j < w.captures.length) :
    ∃ ls w', (tasks digest).Run w ls w' ∧ w'.CaptureEnded handle := by
  -- a task that has cleared its flag has only to end
  have hends : ∀ (w : World) (j : ℕ), w.captures[j]? = some ⟨true, false⟩ →
      ∃ ls w', (tasks digest).Run w ls w' ∧ w'.CaptureEnded (some j) := by
    intro w j ht
    have hs : Step digest w (.captureEnds j) _ := .captureEnds ht
    refine ⟨[.captureEnds j], _, .single ⟨trivial, hs⟩, fun n hn => ?_⟩
    rw [← Option.some.inj hn]
    exact ⟨true, getElem?_set_self_of ht⟩
  -- without a capture task there is nothing to wait for
  cases handle with
  | none => exact ⟨[], w, .nil, fun n hn => absurd hn (by simp)⟩
  | some j =>
    obtain ⟨⟨cleared, ended⟩, ht⟩ : ∃ t, w.captures[j]? = some t :=
      ⟨_, List.getElem?_eq_getElem (hlt j rfl)⟩
    cases ended with
    | true =>
      refine ⟨[], w, .nil, fun n hn => ?_⟩
      rw [← Option.some.inj hn]
      exact ⟨cleared, ht⟩
    | false =>
      cases cleared with
      | true => exact hends w j ht
      | false =>
        -- it clears the flag of the data first
        have hs : Step digest w (.captureClears j) _ := .captureClears ht rfl
        have hrun : (tasks digest).Run w [.captureClears j] _ := .single ⟨trivial, hs⟩
        have hcleared : (w.captures.set j ⟨true, false⟩)[j]? = some ⟨true, false⟩ :=
          getElem?_set_self_of ht
        obtain ⟨ls, w', hr, hw'⟩ := hends { w with
          data := { w.data with capturing := false }
          captures := w.captures.set j ⟨true, false⟩ } j hcleared
        exact ⟨[.captureClears j] ++ ls, w', hrun.append hr, hw'⟩

/-- `stop_task` on a session returns. -/
theorem exists_sessionEnded (digest : Bytes → Vector UInt8 20) {w : World} (hi : Inv w)
    {handle : Option ℕ}
    (hlt : ∀ i, handle = some i → ∃ t, w.sessions[i]? = some t ∧ t.task.stopSent = true) :
    ∃ ls w', (tasks digest).Run w ls w' ∧ w'.SessionEnded handle := by
  cases handle with
  | none => exact ⟨[], w, .nil, fun n hn => absurd hn (by simp)⟩
  | some i =>
    obtain ⟨⟨t, ended⟩, ht, hstop⟩ := hlt i rfl
    -- a task that was told to stop comes to its end by its own steps
    have hends : Ends digest i w := by
      cases ended with
      | true => exact ⟨[], w, t, .nil, ht⟩
      | false => exact exists_ended hi ht hstop
    obtain ⟨ls, w', t', hr, ht'⟩ := hends
    refine ⟨ls, w', hr, fun n hn => ?_⟩
    rw [← Option.some.inj hn]
    exact ⟨t', ht'⟩

/-! ### The call -/

/-- A step of the call itself that obeys the files is one of its run. -/
theorem inCall_step (io : FileIo) {w w' : World} {e : Event} (hs : Step digest w e w')
    (hobeys : Obeys io w e) (he : ∀ c, e ≠ .acquires c) : (inCall digest io).Run w [e] w' :=
  .single ⟨he, hobeys, hs⟩

/-- A handle that has been taken is that of a task which has been told. -/
theorem told_of_handled {w : World} (h : Handled w) : ∀ i, w.session = some i →
    ∃ t, (tell w.sessions w.session)[i]? = some t ∧ t.task.stopSent = true := by
  intro i hi
  have hlt := h.session i hi
  refine ⟨(w.sessions[i]).tell, ?_, rfl⟩
  rw [hi, tell, List.getElem?_modify, List.getElem?_eq_getElem hlt]
  simp

/-- **A start gets to its flush**, with the output path of before. -/
theorem exists_flushing (io : FileIo) {w : World} (h : (control digest).Reachable w)
    (hfree : w.holder = none) {config : Config} (hvalid : config.validate = .ok ()) : ∃ w₁ ls w₂,
      (under digest io).step w (.acquires (.session (.start config))) w₁ ∧
      (inCall digest io).Run w₁ ls w₂ ∧
      w₂.holder = some (.preparing (.session (.start config))) ∧
      w₂.data.output = w.data.output := by
  obtain ⟨hi, hh⟩ := control_handled h
  have s₁ : Step digest w (.acquires (.session (.start config))) _ :=
    .acquires hfree fun config' hc => by rw [← Request.start.inj (Call.session.inj hc), hvalid]
  have s₂ : Step digest { w with holder := some (.stoppingSession (.start config)) }
      .takesSession _ := .takesSession rfl
  have hi₂ := (hi.step s₁).step s₂
  -- the session of the handle comes to its end
  obtain ⟨ls₃, w₃, r₃, hended⟩ := exists_sessionEnded digest hi₂
    fun i hi => told_of_handled hh i hi
  obtain ⟨hi₃, a₃⟩ := tasks_aside hi₂ r₃
  have s₄ : Step digest w₃ .joinsSession _ := .joinsSession a₃.holder hended
  have s₅ : Step digest { w₃ with holder := some (.stoppingCapture (.session (.start config))) }
      .takesCapture _ := .takesCapture rfl
  have hi₅ := (hi₃.step s₄).step s₅
  -- and so does the capture
  have hlt : ∀ j, w₃.capture = some j → j < w₃.captures.length := by
    intro j hj
    rw [a₃.later.captures]
    exact hh.capture j (a₃.capture.symm.trans hj)
  obtain ⟨ls₆, w₆, r₆, hcap⟩ := exists_captureEnded digest
    { w₃ with
      capture := none, holder := some (.joiningCapture (.session (.start config)) w₃.capture) } hlt
  obtain ⟨hi₆, a₆⟩ := tasks_aside hi₅ r₆
  have s₇ : Step digest w₆ .joinsCapture
      { w₆ with holder := some (.preparing (.session (.start config))) } :=
    .joinsCapture a₆.holder hcap
  have r₂ := inCall_step io s₂ trivial (by simp)
  have r₄ := inCall_step io s₄ trivial (by simp)
  have r₅ := inCall_step io s₅ trivial (by simp)
  have r₇ := inCall_step io s₇ trivial (by simp)
  have hrun :=
    ((((r₂.append (tasks_inCall r₃)).append r₄).append r₅).append (tasks_inCall r₆)).append r₇
  exact ⟨_, _, _, ⟨trivial, s₁⟩, hrun, rfl, a₆.output.trans a₃.output⟩

/-- How far a request has got, with the output path of before: up to its critical section
the path is still there, and a start is behind its flush only if that has succeeded. -/
structure Within (io : FileIo) (out : Option String) (w : World) (st : Stage) : Prop where
  before : st.Before → w.data.output = out
  flushed : ∀ config, st = .writing (.session (.start config)) ∨
    st = .spawning (.session (.start config)) → out.all io = true

/-- A call that has not come to its flush has changed nothing that the flush goes by. -/
theorem Within.of_before {io : FileIo} {out : Option String} {w : World} {st : Stage}
    (hst : st.Before) (h : w.data.output = out) : Within io out w st where
  before := fun _ => h
  flushed := by
    rintro config (rfl | rfl)
    · exact absurd hst (by simp [Stage.Before])
    · exact absurd hst (by simp [Stage.Before])

/-- **Every step of a call keeps this.** -/
theorem inCall_within {w₁ w₂ : World} {ls : List Event} (hi : Inv w₁)
    (hfirst : ∀ st, w₁.holder = some st → st.Before) (h : (inCall digest io).Run w₁ ls w₂) :
    Inv w₂ ∧ ∀ st, w₂.holder = some st → Within io w₁.data.output w₂ st := by
  refine h.preserves (P := fun w => Inv w ∧ ∀ st, w.holder = some st →
    Within io w₁.data.output w st) ?_ ⟨hi, fun st hst => .of_before (hfirst st hst) rfl⟩
  rintro w e w' ⟨hi, hw⟩ ⟨hcall, hobeys, hs⟩
  have hs : Step digest w e w' := hs
  refine ⟨hi.step hs, ?_⟩
  by_cases hback : e.Background
  · -- only the request itself writes the path
    obtain ⟨hholder, -, -, -, hout, -⟩ := hs.background hi hback
    intro st hst
    have hst := hw st (hholder ▸ hst)
    exact ⟨fun hb => hout.trans (hst.before hb), hst.flushed⟩
  cases hs with
  | free | session | sessionEnds | captureClears | captureEnds | invalid =>
    exact absurd trivial hback
  | acquires => exact absurd rfl (hcall _)
  | takesSession hst | joinsSession hst _ | checks hst _ | takesCapture hst =>
    intro st' hst'
    obtain rfl := Option.some.inj hst'
    exact .of_before trivial ((hw _ hst).before trivial)
  | @joinsCapture c j hst _ =>
    intro st' hst'
    have hout := (hw _ hst).before trivial
    cases c with
    | session | captureStart =>
      obtain rfl := Option.some.inj hst'
      exact .of_before trivial hout
    | captureStop => exact absurd hst' (by simp)
  | @prepared c hst =>
    -- the flush has succeeded on the path of before
    intro st' hst'
    obtain rfl := Option.some.inj hst'
    refine ⟨fun hb => absurd hb (by simp [Stage.Before]), ?_⟩
    rintro config (hc | hc)
    · obtain rfl := Stage.writing.inj hc
      rw [← (hw _ hst).before trivial]
      exact hobeys config hst
    · exact absurd hc (by simp)
  | @writes c s d hst _ _ =>
    -- behind the section the path may be another one, and nothing is said of it any more
    intro st' hst'
    obtain rfl := Option.some.inj hst'
    refine ⟨fun hb => absurd hb (by simp [Stage.Before]), ?_⟩
    rintro config (hc | hc)
    · exact absurd hc (by simp)
    · obtain rfl := Stage.spawning.inj hc
      exact (hw _ hst).flushed config (Or.inl rfl)
  | refused | fails | spawnsSession | spawnsCapture | spawnsNothing | dropped =>
    exact fun st' hst' => absurd hst' (by simp)

/-- **What `start` returns**: `Ok` exactly if a flush to the output path of before succeeds. -/
theorem returns_iff {w : World} (h : (control digest).Reachable w) (hfree : w.holder = none)
    {config : Config} (hvalid : config.validate = .ok ()) {ok : Bool} :
    (∃ w', Returns digest io config w ok w') ↔ ok = w.data.output.all io := by
  -- the call begins with the output path of before
  have hbegin : ∀ {w₁ : World}, (under digest io).step w (.acquires (.session (.start config))) w₁ →
      Inv w₁ ∧ (∀ st, w₁.holder = some st → st.Before) ∧ w₁.data.output = w.data.output := by
    rintro w₁ ⟨-, hs⟩
    have hs : Step digest w _ w₁ := hs
    refine ⟨(control_inv h).step hs, ?_⟩
    cases hs with
    | acquires =>
      refine ⟨fun st hst => ?_, rfl⟩
      rw [← Option.some.inj hst]
      trivial
  constructor
  · rintro ⟨w', hret⟩
    -- either way the flush has seen the output of before
    cases hret with
    | ok hs hr hst _ =>
      obtain ⟨hi, hfirst, hout⟩ := hbegin hs
      rw [← hout, ((inCall_within hi hfirst hr).2 _ hst).flushed config (Or.inr rfl)]
    | error hs hr hst hfails =>
      obtain ⟨hi, hfirst, hout⟩ := hbegin hs
      rw [← hout, ← ((inCall_within hi hfirst hr).2 _ hst).before trivial]
      exact (hfails.1 config hst).symm
  · rintro rfl
    obtain ⟨w₁, ls, w₂, hs, hr, hst, hout⟩ := exists_flushing io h hfree hvalid
    rw [← hout]
    -- from its flush on, the call is decided by what the flush returns
    cases hflush : w₂.data.output.all io with
    | true =>
      obtain ⟨d, hd⟩ : ∃ d, (Section.start config 0).run w₂.data = some d := ⟨_, rfl⟩
      have s₃ : Step digest w₂ .prepared _ := .prepared hst
      have s₄ : Step digest { w₂ with holder := some (.writing (.session (.start config))) }
        (.writes (.start config 0)) _ := .writes rfl (.start config 0) hd
      have s₅ : Step digest { w₂ with
        data := d, holder := some (.spawning (.session (.start config))) } .spawns _ :=
        .spawnsSession rfl
      have r₃ : (inCall digest io).Run w₂ [.prepared] _ :=
        inCall_step io s₃ (fun _ _ => hflush) (by simp)
      have r₄ := inCall_step io s₄ trivial (by simp)
      exact ⟨_, .ok hs ((hr.append r₃).append r₄) rfl ⟨trivial, s₅⟩⟩
    | false =>
      have hnone : w₂.data.output ≠ none := by
        intro hn
        rw [hn] at hflush
        exact absurd hflush (by simp)
      have s₃ : Step digest w₂ .fails _ := .fails hst hnone
      exact ⟨_, .error hs hr hst ⟨fun _ _ => hflush, s₃⟩⟩

/-- **Every start returns**, with what the flush of the old output says. -/
theorem exists_returns (io : FileIo) {w : World} (h : (control digest).Reachable w)
    (hfree : w.holder = none) {config : Config} (hvalid : config.validate = .ok ()) :
    ∃ w', Returns digest io config w (w.data.output.all io) w' :=
  (returns_iff h hfree hvalid).mpr rfl

/-! ### The way out -/

/-- A path that cannot be written stays where it is. -/
theorem under_output {w w' : World} {ls : List Event} (h : (control digest).Reachable w)
    (hfree : w.holder = none) {path : String} (hout : w.data.output = some path)
    (hio : io path = false) (hr : (under digest io).Run w ls w') :
    (control digest).Reachable w' ∧ w'.data.output = some path := by
  have hkeep : (control digest).Reachable w' ∧ w'.data.output = some path ∧
      ∀ config, w'.holder ≠ some (.writing (.session (.start config))) := by
    refine hr.preserves (P := fun w => (control digest).Reachable w ∧ w.data.output = some path ∧
      ∀ config, w.holder ≠ some (.writing (.session (.start config)))) ?_
      ⟨h, hout, fun config => by rw [hfree]; simp⟩
    rintro w e w' ⟨h, hout, hst⟩ ⟨hobeys, hstep⟩
    have hs : Step digest w e w' := hstep
    refine ⟨h.step hstep, ?_⟩
    by_cases hback : e.Background
    · obtain ⟨hholder, -, -, -, hout', -⟩ := hs.background (control_inv h) hback
      exact ⟨hout'.trans hout, hholder ▸ hst⟩
    -- the path is written by the section of a start only, and no start gets that far
    cases hs with
    | free | session | sessionEnds | captureClears | captureEnds | invalid =>
      exact absurd trivial hback
    | @prepared c hpre =>
      refine ⟨hout, fun config hc => ?_⟩
      -- the flush of a start does not succeed
      obtain rfl := Stage.writing.inj (Option.some.inj hc)
      have hok := hobeys config hpre
      rw [hout, Option.all_some, hio] at hok
      exact absurd hok Bool.false_ne_true
    | @writes c s d hwriting hdoes hrun =>
      refine ⟨?_, fun config => by simp⟩
      cases hdoes with
      | start config instant => exact absurd hwriting (hst config)
      | stop | captureStart =>
        obtain rfl := Option.some.inj hrun
        exact hout
    | @acquires c _ _ =>
      refine ⟨hout, fun config => ?_⟩
      cases c <;> simp [Call.first]
    | takesSession | joinsSession | checks | takesCapture => exact ⟨hout, fun config => by simp⟩
    | @joinsCapture c _ _ _ =>
      refine ⟨hout, fun config => ?_⟩
      cases c <;> simp
    | refused | fails | spawnsSession | spawnsCapture | spawnsNothing | dropped =>
      exact ⟨hout, fun config => by simp⟩
  exact ⟨hkeep.1, hkeep.2.1⟩

/-- A call of `start` begins with a free lock and a configuration that is accepted. -/
theorem Returns.begins {config : Config} {w w' : World} {ok : Bool}
    (h : Returns digest io config w ok w') : w.holder = none ∧ config.validate = .ok () := by
  have hs : ∃ w₁, Step digest w (.acquires (.session (.start config))) w₁ := by
    cases h with
    | ok hs _ _ _ => exact ⟨_, hs.2⟩
    | error hs _ _ _ => exact ⟨_, hs.2⟩
  obtain ⟨w₁, hs⟩ := hs
  cases hs with
  | acquires hfree hvalid => exact ⟨hfree, hvalid config rfl⟩

/-- What `start` returns is the same on all files. -/
def Unaffected (digest : Bytes → Vector UInt8 20) (config : Config) (w : World) : Prop :=
  ∀ io io' ok ok' w₁ w₂, Returns digest io config w ok w₁ → Returns digest io' config w ok' w₂ →
    ok = ok'

/-- On all files there is a configuration that can be started. -/
def Startable (digest : Bytes → Vector UInt8 20) (w : World) : Prop :=
  ∀ io, ∃ config w', Returns digest io config w true w'

/-- On files that can be written a start returns `Ok`, and on others it does not. -/
theorem not_unaffected {w : World} (h : (control digest).Reachable w) (hfree : w.holder = none)
    (hsome : w.data.output ≠ none) {config : Config} (hvalid : config.validate = .ok ()) :
    ¬ Unaffected digest config w := by
  intro hsame
  obtain ⟨path, hout⟩ := Option.ne_none_iff_exists'.mp hsome
  obtain ⟨w₁, h₁⟩ := exists_returns (fun _ => true) h hfree hvalid
  obtain ⟨w₂, h₂⟩ := exists_returns (fun _ => false) h hfree hvalid
  have hok := hsame _ _ _ _ _ _ h₁ h₂
  rw [hout] at hok
  exact absurd hok (by simp)

/-- With an output no start is certain to succeed: its path may be one that cannot be written. -/
theorem not_startable {w : World} (h : (control digest).Reachable w) (hfree : w.holder = none)
    (hsome : w.data.output ≠ none) : ¬ Startable digest w := by
  intro hstart
  obtain ⟨path, hout⟩ := Option.ne_none_iff_exists'.mp hsome
  obtain ⟨config, w', hret⟩ := hstart fun _ => false
  have hok := (returns_iff h hfree hret.begins.2).mp ⟨w', hret⟩
  rw [hout] at hok
  exact absurd hok (by simp)

/-- **When a bad output path cannot lock the service out**: in the states without an output
path, and in no other. In a state with one, no run leads out as long as the path cannot be
written. -/
theorem start_free_iff {w : World} (h : (control digest).Reachable w) (hfree : w.holder = none) :
    (∀ config : Config, config.validate = .ok () →
      (Unaffected digest config w ↔ w.data.output = none)) ∧
    (Startable digest w ↔ w.data.output = none) ∧
    ∀ path, w.data.output = some path → ∀ io : FileIo, io path = false → ∀ ls w',
      (under digest io).Run w ls w' →
        w'.data.output = some path ∧ ∀ config w'', ¬ Returns digest io config w' true w'' := by
  -- no step without a start changes the output, so a path that fails keeps failing
  have hdead : ∀ path, w.data.output = some path → ∀ io : FileIo, io path = false → ∀ ls w',
      (under digest io).Run w ls w' →
        w'.data.output = some path ∧ ∀ config w'', ¬ Returns digest io config w' true w'' := by
    intro path hout io hio ls w' hr
    obtain ⟨h', hout'⟩ := under_output h hfree hout hio hr
    refine ⟨hout', fun config w'' hret => ?_⟩
    obtain ⟨hfree', hvalid⟩ := hret.begins
    have hok := (returns_iff h' hfree' hvalid).mp ⟨w'', hret⟩
    rw [hout', Option.all_some, hio] at hok
    exact absurd hok (by simp)
  refine ⟨fun config hvalid => ⟨fun hsame => ?_, fun hnone => ?_⟩,
    ⟨fun hstart => ?_, fun hnone => ?_⟩, hdead⟩
  · -- with an output the two file systems are told apart
    by_contra hsome
    exact not_unaffected h hfree hsome hvalid hsame
  · intro io io' ok ok' w₁ w₂ h₁ h₂
    rw [(returns_iff h hfree hvalid).mp ⟨w₁, h₁⟩, (returns_iff h hfree hvalid).mp ⟨w₂, h₂⟩, hnone]
    rfl
  · by_contra hsome
    exact not_startable h hfree hsome hstart
  · intro io
    obtain ⟨w', hret⟩ := exists_returns io h hfree sampleConfig_valid
    rw [hnone] at hret
    exact ⟨sampleConfig, w', hret⟩

/-- Before the first start a session can be started whatever the files do. Behind a start with an
output path none can, as long as the path cannot be written. -/
theorem start_free_new :
    (Startable sampleDigest (World.new none) ∧ ∀ config : Config, config.validate = .ok () →
      Unaffected sampleDigest config (World.new none)) ∧
    ∃ w path, (control sampleDigest).Reachable w ∧ w.holder = none ∧ w.data.output = some path ∧
      ¬ Startable sampleDigest w ∧ ∀ io : FileIo, io path = false → ∀ ls w',
        (under sampleDigest io).Run w ls w' →
          w'.data.output = some path ∧
            ∀ config w'', ¬ Returns sampleDigest io config w' true w'' := by
  have hnew : (control sampleDigest).Reachable (World.new none) := .init ⟨none, rfl⟩
  obtain ⟨hunaffected, hstartable, -⟩ := start_free_iff hnew rfl
  obtain ⟨w, hkept, hfree, -, -, -, -, -, -, hout⟩ := exists_connecting outputConfig_valid
  have h : (control sampleDigest).Reachable w := hkept.of_restrict
  obtain ⟨-, hlocked, hdead⟩ := start_free_iff h hfree
  have hpath : w.data.output = some "/nonexistent/rib.json" := by
    rw [hout]
    rfl
  refine ⟨⟨hstartable.mpr rfl, fun config hvalid => (hunaffected config hvalid).mpr rfl⟩,
    w, _, h, hfree, hpath, fun hstart => ?_, hdead _ hpath⟩
  exact absurd (hpath.symm.trans (hlocked.mp hstart)) (Option.some_ne_none _)

/-- Behind a start with a path that cannot be written, nothing can be started. -/
theorem outputConfig_locked_out : ∃ w, (control sampleDigest).Reachable w ∧ w.holder = none ∧
    sampleConfig.validate = .ok () ∧ ¬ Unaffected sampleDigest sampleConfig w ∧
    ¬ Startable sampleDigest w := by
  obtain ⟨w, hkept, hfree, -, -, -, -, -, -, hout⟩ := exists_connecting outputConfig_valid
  have h : (control sampleDigest).Reachable w := hkept.of_restrict
  have hsome : w.data.output ≠ none := by
    rw [hout]
    simp [outputConfig]
  exact ⟨w, h, hfree, sampleConfig_valid, not_unaffected h hfree hsome sampleConfig_valid,
    not_startable h hfree hsome⟩

end Session.Control
