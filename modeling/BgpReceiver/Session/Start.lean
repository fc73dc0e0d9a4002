import BgpReceiver.Session.Control

/-!
# A start that fails

`App::start` returns an error at two points. Before it asks for the control lock it
refuses an invalid configuration, and nothing has changed. Behind the two calls of
`stop_task` the flush can fail; then the configuration and the output path are those of
before, but the tasks that `control` held have ended, and what they leave behind is the
idle state (`start_error`).

The world in which the lock was taken last is kept in a history variable (`attempts`).
-/

namespace Session.Control

open Rib (Data Section)

/-- The requests and the tasks, with the world in which the control lock was taken last. -/
def attempts (digest : Bytes → Vector UInt8 20) : System (World × World) Event :=
  (control digest).observe (fun w before => before = w) fun before w e _ =>
    match e with
    | .acquires _ => w
    | _ => before

/-- A request that gets the lock begins a new attempt at the state of that moment. -/
theorem attempts_acquires {digest : Bytes → Vector UInt8 20} {w before w' : World} {c : Call}
    (h : (attempts digest).Reachable (w, before)) (hs : Step digest w (.acquires c) w') :
    (attempts digest).Reachable (w', w) :=
  h.step ⟨hs, rfl⟩

/-- Any other step belongs to the attempt that is under way. -/
theorem attempts_goes {digest : Bytes → Vector UInt8 20} {w before w' : World} {e : Event}
    (h : (attempts digest).Reachable (w, before)) (hs : Step digest w e w')
    (he : ∀ c, e ≠ .acquires c) : (attempts digest).Reachable (w', before) := by
  refine h.step ⟨hs, ?_⟩
  cases e with
  | acquires c => exact absurd rfl (he c)
  | _ => rfl

/-- The return of `start` with an error. -/
inductive StartError (w : World) : Event → Prop
  | invalid (config : Config) : StartError w (.invalid config)
  | fails {config : Config} : w.holder = some (.preparing (.session (.start config))) →
      StartError w .fails

/-- What a start that failed behind its flush has done since it took the lock. -/
structure FailedStart (before after : World) : Prop where
  config : after.data.config = before.data.config
  output : after.data.output = before.data.output
  /-- Nothing has been spawned. -/
  sessions : after.sessions.length = before.sessions.length
  captures : after.captures.length = before.captures.length
  /-- The tasks of the handles have ended. -/
  session : after.session = none ∧ after.SessionEnded before.session
  capture : after.capture = none ∧ after.CaptureEnded before.capture
  /-- Without another session the data is idle. -/
  idle : (∀ (i : ℕ) (t : Task), before.sessions[i]? = some ⟨t, false⟩ → before.session = some i) →
    after.data.Idle
  /-- Without another capture there is none. -/
  capturing : (∀ (j : ℕ) (cleared : Bool), before.captures[j]? = some ⟨cleared, false⟩ →
    before.capture = some j) → after.data.capturing = false

/-! ### What has happened since the lock was taken -/

/-- The tasks of a world, seen from an earlier one: none has been spawned, and those that
had ended have. -/
structure Later (before w : World) : Prop where
  sessions : w.sessions.length = before.sessions.length
  captures : w.captures.length = before.captures.length
  sessionEnded : ∀ (i : ℕ) (t : Task), before.sessions[i]? = some ⟨t, true⟩ →
    ∃ t', w.sessions[i]? = some ⟨t', true⟩
  captureEnded : ∀ (j : ℕ) (cleared : Bool), before.captures[j]? = some ⟨cleared, true⟩ →
    ∃ cleared', w.captures[j]? = some ⟨cleared', true⟩

theorem Later.of_eq {w w' : World} (hs : w'.sessions = w.sessions) (hc : w'.captures = w.captures) :
    Later w w' where
  sessions := by rw [hs]
  captures := by rw [hc]
  sessionEnded := fun i t ht => ⟨t, by rw [hs, ht]⟩
  captureEnded := fun j c ht => ⟨c, by rw [hc, ht]⟩

/-- The handles at a stage. -/
def Handles (before w : World) : Stage → Prop
  | .stoppingSession _ => w.session = before.session ∧ w.capture = before.capture
  | .joiningSession _ i => i = before.session ∧ w.session = none ∧ w.capture = before.capture
  | .stoppingCapture (.session _) =>
    w.session = none ∧ w.SessionEnded before.session ∧ w.capture = before.capture
  | .joiningCapture (.session _) j =>
    w.session = none ∧ w.SessionEnded before.session ∧ w.capture = none ∧ j = before.capture
  | .preparing (.session _) =>
    (w.session = none ∧ w.SessionEnded before.session) ∧
      w.capture = none ∧ w.CaptureEnded before.capture
  | _ => True

/-- What holds since the lock was taken. -/
structure Since (before w : World) (st : Stage) : Prop where
  config : w.data.config = before.data.config
  output : w.data.output = before.data.output
  later : Later before w
  handles : Handles before w st

/-- The stages before the critical section of a request. -/
def Stage.Before : Stage → Prop
  | .writing _ | .spawning _ => False
  | _ => True

theorem Later.sessionEnded_of {w w' : World} (h : Later w w') {i : Option ℕ}
    (hi : w.SessionEnded i) : w'.SessionEnded i := by
  intro n hn
  obtain ⟨t, ht⟩ := hi n hn
  exact h.sessionEnded n t ht

theorem Later.captureEnded_of {w w' : World} (h : Later w w') {j : Option ℕ}
    (hj : w.CaptureEnded j) : w'.CaptureEnded j := by
  intro n hn
  obtain ⟨cleared, hc⟩ := hj n hn
  exact h.captureEnded n cleared hc

theorem Later.trans {w w' w'' : World} (h : Later w w') (h' : Later w' w'') : Later w w'' where
  sessions := h'.sessions.trans h.sessions
  captures := h'.captures.trans h.captures
  sessionEnded := fun i t ht =>
    let ⟨t', ht'⟩ := h.sessionEnded i t ht
    h'.sessionEnded i t' ht'
  captureEnded := fun j c hc =>
    let ⟨c', hc'⟩ := h.captureEnded j c hc
    h'.captureEnded j c' hc'

/-- The handles stay what they are when the holder does not move. -/
theorem Handles.mono {before w w' : World} {st : Stage} (h : Handles before w st)
    (hl : Later w w') (hs : w'.session = w.session) (hc : w'.capture = w.capture) :
    Handles before w' st := by
  unfold Handles at h ⊢
  rw [hs, hc]
  split at h
  · exact h
  · exact h
  · exact ⟨h.1, hl.sessionEnded_of h.2.1, h.2.2⟩
  · exact ⟨h.1, hl.sessionEnded_of h.2.1, h.2.2⟩
  · exact ⟨⟨h.1.1, hl.sessionEnded_of h.1.2⟩, h.2.1, hl.captureEnded_of h.2.2⟩
  · trivial

/-- Replacing a task that has not ended loses no end. -/
theorem ended_of_set {α : Type} {l : List α} {i n : ℕ} {a b c : α} (hi : l[i]? = some a)
    (hne : b ≠ a) (hn : l[n]? = some b) : (l.set i c)[n]? = some b := by
  rw [List.getElem?_set_ne, hn]
  rintro rfl
  rw [hi] at hn
  exact hne (Option.some.inj hn).symm

/-- The events of the tasks, and a refused configuration. -/
def Event.Background : Event → Prop
  | .free _ | .session _ _ | .sessionEnds _ | .captureClears _ | .captureEnds _ | .invalid _ => True
  | _ => False

/-- **What the tasks leave alone**: the requests, the handles and the configuration. -/
theorem Step.background {digest : Bytes → Vector UInt8 20} {w w' : World} {e : Event} (hi : Inv w)
    (h : Step digest w e w') (he : e.Background) :
    w'.holder = w.holder ∧ w'.session = w.session ∧ w'.capture = w.capture ∧
      w'.data.config = w.data.config ∧ w'.data.output = w.data.output ∧ Later w w' := by
  have hc := Rib.sections_consistent hi.reachable
  -- by step of a task
  cases h with
  | free hfree hcap hr =>
    obtain ⟨hconfig, houtput, -⟩ := Rib.Data.setup_eq_iff.mp (hfree.setup hcap hr)
    exact ⟨rfl, rfl, rfl, hconfig, houtput, .of_eq rfl rfl⟩
  | @session i t t' e v ht htask hs ht' =>
    obtain ⟨-, t'', -, -, -, hdata⟩ := task_step hs htask rfl (hi.sound i _ ht)
    -- a session's sections never touch what a start sets up
    have hsetup : v.data.setup = w.data.setup := by
      rcases hdata with ⟨hsame, -⟩ | ⟨s, hsec, hr, -⟩
      · exact congrArg Data.setup hsame
      · exact (hsec.frame hc hr).1
    obtain ⟨hconfig, houtput, -⟩ := Rib.Data.setup_eq_iff.mp hsetup
    refine ⟨rfl, rfl, rfl, hconfig, houtput, List.length_set, rfl, fun n u hu => ?_,
      fun _ c hc => ⟨c, hc⟩⟩
    exact ⟨u, ended_of_set ht (by simp) hu⟩
  | @sessionEnds i t ht hdead =>
    refine ⟨rfl, rfl, rfl, rfl, rfl, List.length_set, rfl, fun n u hu => ?_, fun _ c hc => ⟨c, hc⟩⟩
    exact ⟨u, ended_of_set ht (by simp) hu⟩
  | captureClears ht hr =>
    obtain rfl := Option.some.inj hr
    refine ⟨rfl, rfl, rfl, rfl, rfl, rfl, List.length_set, fun _ t ht => ⟨t, ht⟩, fun n u hu => ?_⟩
    exact ⟨u, ended_of_set ht (by simp) hu⟩
  | captureEnds ht =>
    refine ⟨rfl, rfl, rfl, rfl, rfl, rfl, List.length_set, fun _ t ht => ⟨t, ht⟩, fun n u hu => ?_⟩
    exact ⟨u, ended_of_set ht (by simp) hu⟩
  | invalid _ => exact ⟨rfl, rfl, rfl, rfl, rfl, .of_eq rfl rfl⟩
  | _ => exact absurd he (by simp [Event.Background])

/-- Telling a task to stop ends and spawns none. -/
theorem later_tell {w : World} {i capture session : Option ℕ} {holder : Option Stage} :
    Later w { w with
      sessions := tell w.sessions i, session := session, capture := capture,
      holder := holder } where
  sessions := by
    cases i with
    | none => rfl
    | some i => exact List.length_modify _ _ _
  captures := rfl
  sessionEnded := by
    intro n t ht
    obtain ⟨⟨t', ended⟩, ht', hended, -⟩ := getElem?_tell_of (i := i) ht
    obtain rfl : ended = true := hended
    exact ⟨t', ht'⟩
  captureEnded := fun _ c hc => ⟨c, hc⟩

/-- A request that goes on from one stage to the next. -/
theorem Since.goes {before w : World} {st st' : Stage} {session capture : Option ℕ}
    (h : Since before w st)
    (hh : Handles before
      { w with session := session, capture := capture, holder := some st' } st') :
    Since before { w with session := session, capture := capture, holder := some st' } st' :=
  ⟨h.config, h.output, ⟨h.later.sessions, h.later.captures, h.later.sessionEnded,
    h.later.captureEnded⟩, hh⟩

/-- **Every step keeps what holds since the lock was taken.** -/
theorem attempts_since {digest : Bytes → Vector UInt8 20} {p : World × World}
    (h : (attempts digest).Reachable p) :
    Inv p.1 ∧ ∀ st, p.1.holder = some st → st.Before → Since p.2 p.1 st := by
  -- two invariants at once: that of the world, and what the holder has seen since it began
  refine System.Invariant.reachable
    (P := fun p : World × World => Inv p.1 ∧
      ∀ st, p.1.holder = some st → st.Before → Since p.2 p.1 st)
    ⟨?_, ?_⟩ h
  · rintro ⟨w, before⟩ ⟨⟨output, rfl⟩, -⟩
    exact ⟨.new output, fun st hst => absurd hst (by simp [World.new])⟩
  · rintro ⟨w, before⟩ e ⟨w', before'⟩ ⟨hi, hsince⟩ ⟨hstep, hbefore⟩
    have hs : Step digest w e w' := hstep
    refine ⟨hi.step hs, ?_⟩
    show ∀ st, w'.holder = some st → st.Before → Since before' w' st
    by_cases hback : e.Background
    · -- a task: the holder, if there is one, stays where it is
      obtain ⟨hholder, hses, hcap, hconfig, houtput, hlater⟩ := hs.background hi hback
      have hsame : before' = before := by
        cases e <;> first | exact hbefore | exact absurd hback (by simp [Event.Background])
      intro st hst hb
      rw [hholder] at hst
      rw [hsame]
      have h₁ := hsince st hst hb
      exact ⟨hconfig.trans h₁.config, houtput.trans h₁.output, h₁.later.trans hlater,
        h₁.handles.mono hlater hses hcap⟩
    cases hs with
    | free | session | sessionEnds | captureClears | captureEnds | invalid =>
      exact absurd trivial hback
    | @acquires c hnone _ =>
      obtain rfl : before' = w := hbefore
      rintro st hst -
      obtain rfl := Option.some.inj hst
      -- the attempt begins, and nothing has been done since
      refine ⟨rfl, rfl, .of_eq rfl rfl, ?_⟩
      cases c with
      | session r => exact ⟨rfl, rfl⟩
      | captureStart | captureStop => trivial
    | @takesSession r hst =>
      obtain rfl : before' = before := hbefore
      rintro st' hst' -
      obtain rfl := Option.some.inj hst'
      have h₁ := hsince _ hst trivial
      -- the handle is taken, and its task is told to stop
      refine ⟨h₁.config, h₁.output, h₁.later.trans later_tell, ?_⟩
      exact ⟨h₁.handles.1, rfl, h₁.handles.2⟩
    | @joinsSession r i hst hended =>
      obtain rfl : before' = before := hbefore
      rintro st' hst' -
      obtain rfl := Option.some.inj hst'
      have h₁ := hsince _ hst trivial
      -- the session that was joined has ended
      obtain ⟨rfl, hnone, hcap⟩ := h₁.handles
      exact h₁.goes ⟨hnone, hended, hcap⟩
    | checks hst _ =>
      obtain rfl : before' = before := hbefore
      rintro st' hst' -
      obtain rfl := Option.some.inj hst'
      exact (hsince _ hst trivial).goes trivial
    | @takesCapture c hst =>
      obtain rfl : before' = before := hbefore
      rintro st' hst' -
      obtain rfl := Option.some.inj hst'
      have h₁ := hsince _ hst trivial
      refine h₁.goes ?_
      cases c with
      | session r => exact ⟨h₁.handles.1, h₁.handles.2.1, rfl, h₁.handles.2.2⟩
      | captureStart | captureStop => trivial
    | @joinsCapture c j hst hended =>
      obtain rfl : before' = before := hbefore
      rintro st' hst' -
      have h₁ := hsince _ hst trivial
      cases c with
      | session r =>
        obtain rfl := Option.some.inj hst'
        obtain ⟨hnone, hses, hcap, rfl⟩ := h₁.handles
        exact h₁.goes ⟨⟨hnone, hses⟩, hcap, hended⟩
      | captureStart =>
        obtain rfl := Option.some.inj hst'
        exact h₁.goes trivial
      | captureStop => exact absurd hst' (by simp)
    | prepared | writes =>
      rintro st' hst' hb
      obtain rfl := Option.some.inj hst'
      exact absurd hb (by simp [Stage.Before])
    | refused | fails | spawnsSession | spawnsCapture | spawnsNothing | dropped =>
      exact fun st' hst' => absurd hst' (by simp)

/-- All sessions have ended when the one of the handle has and there was no other. -/
theorem Later.sessions_ended {before w : World} (h : Later before w)
    (hended : w.SessionEnded before.session)
    (honly : ∀ (i : ℕ) (t : Task), before.sessions[i]? = some ⟨t, false⟩ → before.session = some i)
    {i : ℕ} {t : SessionTask} (ht : w.sessions[i]? = some t) : t.ended = true := by
  have hlt : i < before.sessions.length := by
    rw [← h.sessions]
    exact (List.getElem?_eq_some_iff.mp ht).1
  obtain ⟨⟨t₀, ended⟩, hbefore⟩ : ∃ u, before.sessions[i]? = some u :=
    ⟨_, List.getElem?_eq_getElem hlt⟩
  -- a task that ran before is the one of the handle, which was joined
  have hends : ∃ t', w.sessions[i]? = some ⟨t', true⟩ := by
    cases ended with
    | true => exact h.sessionEnded i t₀ hbefore
    | false => exact hended i (honly i t₀ hbefore)
  obtain ⟨t', ht'⟩ := hends
  rw [ht] at ht'
  rw [Option.some.inj ht']

/-- All captures have ended when the only one that had not been has been waited for. -/
theorem Later.captures_ended {before w : World} (h : Later before w)
    (hended : w.CaptureEnded before.capture)
    (honly : ∀ (j : ℕ) (cleared : Bool), before.captures[j]? = some ⟨cleared, false⟩ →
      before.capture = some j) {j : ℕ} {t : CaptureTask} (ht : w.captures[j]? = some t) :
    t.ended = true := by
  have hlt : j < before.captures.length := by
    rw [← h.captures]
    exact (List.getElem?_eq_some_iff.mp ht).1
  obtain ⟨⟨c, ended⟩, hbefore⟩ : ∃ u, before.captures[j]? = some u :=
    ⟨_, List.getElem?_eq_getElem hlt⟩
  -- whether it ended before or since, it has ended
  have hends : ∃ c', w.captures[j]? = some ⟨c', true⟩ := by
    cases ended with
    | true => exact h.captureEnded j c hbefore
    | false => exact hended j (honly j c hbefore)
  obtain ⟨c', hc'⟩ := hends
  rw [ht] at hc'
  rw [Option.some.inj hc']

/-- **A start that fails.** A refused configuration changes nothing. A flush that fails
leaves the configuration and the output path as they were and spawns nothing; the tasks of
before have ended. -/
theorem start_error {digest : Bytes → Vector UInt8 20} {w before w' : World} {e : Event}
    (h : (attempts digest).Reachable (w, before)) (he : StartError w e)
    (hstep : (control digest).step w e w') :
    (∀ config, e = .invalid config → w' = w) ∧ (e = .fails → FailedStart before w') := by
  obtain ⟨hi, hsince⟩ := attempts_since h
  have hs : Step digest w e w' := hstep
  cases he with
  | invalid config =>
    refine ⟨fun config' _ => ?_, nofun⟩
    cases hs with
    | invalid _ => rfl
  | @fails config hst =>
    refine ⟨nofun, fun _ => ?_⟩
    have hi' := hi.step hs
    have h₁ := hsince _ hst trivial
    cases hs with
    | fails _ _ =>
      -- both tasks are joined by the time the output is prepared
      obtain ⟨⟨hnone, hses⟩, hcap, hended⟩ := h₁.handles
      refine ⟨h₁.config, h₁.output, h₁.later.sessions, h₁.later.captures, ⟨hnone, hses⟩,
        ⟨hcap, hended⟩, fun honly => ?_, fun honly => ?_⟩
      · refine hi'.quiet (fun i t ht => ?_) (by rintro ⟨config, hs⟩; exact absurd hs (by simp))
        exact hi.ended i t ht (h₁.later.sessions_ended hses honly ht)
      · -- a flag still up would belong to a capture task, and they have all cleared theirs
        by_contra hflag
        rcases hi'.flagged (by simpa using hflag) with ⟨j, t, ht, hfalse⟩ | hs
        · have hcleared := hi.cleared j t ht (h₁.later.captures_ended hended honly ht)
          rw [hfalse] at hcleared
          exact absurd hcleared (by simp)
        · exact absurd hs (by simp)

/-! A session is running, and the flush of the next start fails. -/

/-- A configuration whose output path cannot be written. -/
def outputConfig : Config := { sampleConfig with jsonOutput := some "/nonexistent/rib.json" }

/-- The checks of a configuration do not look at the file system. -/
theorem outputConfig_valid : outputConfig.validate = .ok () := by decide

/-- A configuration is started from the beginning, and its session has begun to connect. -/
theorem exists_connecting {config : Config} (hvalid : config.validate = .ok ()) :
    ∃ w, (kept sampleDigest).Reachable w ∧ w.holder = none ∧
    w.session = some 0 ∧ w.capture = none ∧ w.captures = [] ∧
    w.sessions = [⟨⟨config, false, .connecting false, []⟩, false⟩] ∧
    w.data.running = true ∧ w.data.state = .connect ∧ w.data.output = config.jsonOutput := by
  have h₀ : (kept sampleDigest).Reachable (World.new none) := .init ⟨none, rfl⟩
  -- a start from a new world goes through all its stages
  have h₁ := kept_step h₀ (Step.acquires (c := .session (.start config)) rfl
    fun config' hc => by rw [← Request.start.inj (Call.session.inj hc), hvalid]) trivial
  have h₂ := kept_step h₁ (Step.takesSession rfl) trivial
  have h₃ := kept_step h₂
    (Step.joinsSession rfl fun n hn => absurd hn (by simp [World.new])) trivial
  have h₄ := kept_step h₃ (Step.takesCapture rfl) trivial
  have h₅ := kept_step h₄
    (Step.joinsCapture rfl fun n hn => absurd hn (by simp [World.new])) trivial
  have h₆ := kept_step h₅ (Step.prepared rfl) trivial
  have h₇ := kept_step h₆ (Step.writes rfl (.start config 0) rfl) trivial
  have h₈ := kept_step h₇ (Step.spawnsSession rfl) trivial
  -- and the session it has spawned goes on to its connecting state
  have h₉ := kept_step h₈ (Step.session (i := 0) (e := .turn) rfl trivial (.turn rfl rfl rfl) rfl)
    trivial
  have h₁₀ := kept_step h₉ (Step.session (i := 0) (e := .act _) rfl trivial
    (.act rfl rfl (.setState .connect) rfl) rfl) trivial
  exact ⟨_, h₁₀, rfl, rfl, rfl, rfl, rfl, rfl, rfl, rfl⟩

/-- The session has ended, and the flush is next. -/
theorem exists_preparing : ∃ w before, (attempts sampleDigest).Reachable (w, before) ∧
    w.holder = some (.preparing (.session (.start sampleConfig))) ∧
    w.data.output = outputConfig.jsonOutput ∧
    before.data.running = true ∧ before.data.state = .connect ∧
    (∃ t, before.session = some 0 ∧ before.sessions = [⟨t, false⟩]) ∧
    w.data.running = false ∧ w.data.state = .idle ∧ w.session = none := by
  obtain ⟨⟨d, sessions, captures, session, capture, holder⟩, hkept, h₁, h₂, h₃, h₄, h₅, hrunning,
    hstate, hout⟩ := exists_connecting outputConfig_valid
  subst h₁ h₂ h₃ h₄ h₅
  obtain ⟨w₀, ls, hinit, hrun⟩ := hkept.of_restrict
  -- what the attempts have seen is observed beside the run
  obtain ⟨before, hobs⟩ : ∃ before, (attempts sampleDigest).Run (w₀, w₀) ls (_, before) :=
    hrun.observed w₀
  have h : (attempts sampleDigest).Reachable (_, before) := ⟨_, _, ⟨hinit, rfl⟩, hobs⟩
  -- a second start stops the connecting session, and comes as far as its output
  have a₁ := attempts_acquires h (Step.acquires (c := .session (.start sampleConfig)) rfl
    fun config hc => by rw [← Request.start.inj (Call.session.inj hc), sampleConfig_valid])
  have a₂ := attempts_goes a₁ (Step.takesSession rfl) (by simp)
  have a₃ := attempts_goes a₂ (Step.session (i := 0) (e := .stopped) rfl trivial
    (.stoppedIdle rfl rfl rfl (.inl rfl)) rfl) (by simp)
  have a₄ := attempts_goes a₃ (Step.session (i := 0) (e := .act _) rfl trivial
    (.act rfl rfl (.runEnded 0) rfl) rfl) (by simp)
  have a₅ := attempts_goes a₄
    (Step.sessionEnds (i := 0) rfl (by rintro (hp | hp) <;> exact hp rfl)) (by simp)
  have a₆ := attempts_goes a₅
    (Step.joinsSession rfl fun n hn => by rw [← Option.some.inj hn]; exact ⟨_, rfl⟩) (by simp)
  have a₇ := attempts_goes a₆ (Step.takesCapture rfl) (by simp)
  have a₈ := attempts_goes a₇ (Step.joinsCapture rfl nofun) (by simp)
  exact ⟨_, _, a₈, rfl, hout, hrunning, hstate, ⟨_, rfl, rfl⟩, rfl, rfl, rfl⟩

/-- The failed flush of a start, behind a session that was connecting. -/
theorem start_error_flush : ∃ w before w', (attempts sampleDigest).Reachable (w, before) ∧
    (control sampleDigest).step w .fails w' ∧ FailedStart before w' ∧ w'.data.Idle := by
  obtain ⟨w, before, h, hst, hout, -, -, ⟨t, hses, hsessions⟩, -⟩ := exists_preparing
  have hfails : (control sampleDigest).step w .fails { w with holder := none } :=
    Step.fails hst (by rw [World.CanFail, hout]; simp [outputConfig])
  have hfailed := (start_error h (.fails hst) hfails).2 rfl
  refine ⟨w, before, _, h, hfails, hfailed, hfailed.idle fun i t' ht' => ?_⟩
  rw [hsessions] at ht'
  cases i with
  | zero => exact hses
  | succ i => exact absurd ht' (by simp)

/-- The session of before is gone. -/
theorem start_changes : ∃ w before w', (attempts sampleDigest).Reachable (w, before) ∧
    StartError w .fails ∧ (control sampleDigest).step w .fails w' ∧
    before.session = some 0 ∧ before.data.running = true ∧ before.data.state = .connect ∧
    w'.session = none ∧ w'.data.running = false ∧ w'.data.state = .idle := by
  obtain ⟨w, before, h, hst, hout, hrun, hstate, ⟨t, hses, -⟩, hrun', hstate', hses'⟩ :=
    exists_preparing
  have hfails : (control sampleDigest).step w .fails { w with holder := none } :=
    Step.fails hst (by rw [World.CanFail, hout]; simp [outputConfig])
  exact ⟨w, before, _, h, .fails hst, hfails, hses, hrun, hstate, hses', hrun', hstate'⟩

end Session.Control
