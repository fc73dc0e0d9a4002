import BgpReceiver.Session.Start

/-!
# One session and one capture

`stop_task` takes a handle out of `control` and waits for its task while the control lock
is held. So whoever comes next finds no task without a handle, as long as no handler is
dropped in that wait (`Kept`). Then at most one session and one capture are unfinished, the
running flag tells whether there is a session, and only the newest session can write
(`kept_exclusive`).

A handler that is dropped there lets go of the lock and leaves its task behind. The next
request starts a second session, and the section at the end of the first one clears the
running flag of the second (`dropped_overlap`).
-/

namespace Session.Control

open Rib (Data Section)
open System (getElem?_set_cases getElem?_set_self_of getElem?_concat_cases)

/-- A session task that has not ended. -/
def World.Unfinished (w : World) (i : ℕ) : Prop := ∃ t, w.sessions[i]? = some ⟨t, false⟩

/-- A capture task that has not ended. -/
def World.CaptureUnfinished (w : World) (j : ℕ) : Prop :=
  ∃ cleared, w.captures[j]? = some ⟨cleared, false⟩

/-- What the control lock is for. -/
structure Exclusive (digest : Bytes → Vector UInt8 20) (w : World) : Prop where
  session : ∀ i i', w.Unfinished i → w.Unfinished i' → i = i'
  capture : ∀ j j', w.CaptureUnfinished j → w.CaptureUnfinished j' → j = j'
  running : w.holder = none → (w.data.running = true ↔ ∃ i, w.Unfinished i)
  capturing : w.holder = none → w.data.capturing = true → ∃ j, w.CaptureUnfinished j
  /-- A session task that takes a step is the newest one. -/
  newest : ∀ i e w', (control digest).step w (.session i e) w' → i + 1 = w.sessions.length

/-! ### The handles -/

/-- The session whose handle is there: in `control`, or with the request that waits for
it. -/
def World.currentSession (w : World) : Option ℕ :=
  match w.holder with
  | some (.joiningSession _ i) => i
  | _ => w.session

/-- The capture whose handle is there. -/
def World.currentCapture (w : World) : Option ℕ :=
  match w.holder with
  | some (.joiningCapture _ j) => j
  | _ => w.capture

/-- The request has taken the session out of `control`. -/
def Stage.TookSession : Stage → Prop
  | .joiningSession _ _ | .stoppingCapture (.session _) | .joiningCapture (.session _) _
  | .preparing (.session _) | .writing (.session _) | .spawning (.session _) => True
  | _ => False

/-- The request has taken the capture out of `control`. -/
def Stage.TookCapture : Stage → Prop
  | .joiningCapture _ _ | .preparing _ | .writing _ | .spawning _ => True
  | _ => False

/-- What holds when no task is left behind. -/
structure Orderly (w : World) : Prop where
  session : ∀ i, w.Unfinished i → w.currentSession = some i
  capture : ∀ j, w.CaptureUnfinished j → w.currentCapture = some j
  newest : ∀ i, w.currentSession = some i → i + 1 = w.sessions.length
  tookSession : ∀ st, w.holder = some st → st.TookSession → w.session = none
  tookCapture : ∀ st, w.holder = some st → st.TookCapture → w.capture = none
  /-- The session in `control` has not been told to stop. -/
  untold : ∀ i, w.session = some i → ∃ t, w.sessions[i]? = some ⟨t, false⟩ ∧ t.stopSent = false
  running : ∀ (i : ℕ) (t : SessionTask), w.sessions[i]? = some t → t.task.Live →
    w.data.running = true
  starting : w.Starting → w.data.running = true

theorem Orderly.new (output : Option String) : Orderly (World.new output) where
  session := fun i ⟨t, ht⟩ => absurd ht (by simp [World.new])
  capture := fun j ⟨c, hc⟩ => absurd hc (by simp [World.new])
  newest := fun i hi => absurd hi (by simp [World.new, World.currentSession])
  tookSession := fun st hst => absurd hst (by simp [World.new])
  tookCapture := fun st hst => absurd hst (by simp [World.new])
  untold := fun i hi => absurd hi (by simp [World.new])
  running := fun i t ht => absurd ht (by simp [World.new])
  starting := fun ⟨_, hs⟩ => absurd hs (by simp [World.new])

/-- A live task has not ended. -/
theorem Inv.unfinished_of_live {w : World} (h : Inv w) {i : ℕ} {t : SessionTask}
    (ht : w.sessions[i]? = some t) (hlive : t.task.Live) : w.Unfinished i := by
  obtain ⟨t, ended⟩ := t
  cases ended with
  | true => exact absurd hlive (h.ended i _ ht rfl)
  | false => exact ⟨t, ht⟩

/-- **Order is what the lock is for.** -/
theorem Orderly.exclusive {digest : Bytes → Vector UInt8 20} {w : World} (hi : Inv w)
    (h : Orderly w) : Exclusive digest w where
  session := fun i i' hu hu' => Option.some.inj ((h.session i hu).symm.trans (h.session i' hu'))
  capture := fun j j' hu hu' => Option.some.inj ((h.capture j hu).symm.trans (h.capture j' hu'))
  running := by
    intro hfree
    constructor
    · -- without a session the data would be idle
      intro hrunning
      by_contra hnone
      -- with no session alive, and none about to be spawned, the data is idle
      have hidle : w.data.Idle := by
        refine hi.quiet (fun i t ht hlive => hnone ⟨i, hi.unfinished_of_live ht hlive⟩) ?_
        rintro ⟨config, hs⟩
        rw [hfree] at hs
        exact absurd hs (by simp)
      rw [hidle.running] at hrunning
      exact absurd hrunning Bool.false_ne_true
    · -- a session in `control` has not been told to stop, so it is alive
      rintro ⟨i, hu⟩
      have hcur := h.session i hu
      rw [World.currentSession, hfree] at hcur
      obtain ⟨t, ht, hstop⟩ := h.untold i hcur
      refine h.running i _ ht (Or.inl fun hplace => ?_)
      have htold := (hi.sound i _ ht).told hplace
      rw [hstop] at htold
      exact absurd htold Bool.false_ne_true
  capturing := by
    intro hfree hflag
    rcases hi.flagged hflag with ⟨j, ⟨cleared, ended⟩, ht, hfalse⟩ | hs
    · refine ⟨j, cleared, ?_⟩
      -- a capture task that has ended has taken its flag back
      cases ended with
      | false => exact ht
      | true =>
        have hc := hi.cleared j _ ht rfl
        rw [hfalse] at hc
        exact absurd hc Bool.false_ne_true
    · rw [hfree] at hs
      exact absurd hs (by simp)
  newest := by
    intro i e w' hstep
    have hs : Step digest w (.session i e) w' := hstep
    cases hs with
    | session ht _ _ _ => exact h.newest i (h.session i ⟨_, ht⟩)

/-! ### Every step -/

/-- A request that goes on, and leaves the tasks and the data alone. -/
theorem Orderly.goes {w : World} (h : Orderly w) {session capture : Option ℕ}
    {holder : Option Stage}
    (hses : ∀ i, w.Unfinished i →
      World.currentSession { w with session := session, holder := holder } = some i)
    (hcap : ∀ j, w.CaptureUnfinished j →
      World.currentCapture { w with capture := capture, holder := holder } = some j)
    (hnew : ∀ i, World.currentSession { w with session := session, holder := holder } = some i →
      w.currentSession = some i)
    (htookS : ∀ st, holder = some st → st.TookSession → session = none)
    (htookC : ∀ st, holder = some st → st.TookCapture → capture = none)
    (huntold : ∀ i, session = some i → w.session = some i)
    (hstart : ∀ c, holder ≠ some (.spawning c)) :
    Orderly { w with session := session, capture := capture, holder := holder } where
  session := hses
  capture := hcap
  newest := fun i hi => h.newest i (hnew i hi)
  tookSession := htookS
  tookCapture := htookC
  untold := fun i hi => h.untold i (huntold i hi)
  running := h.running
  starting := fun ⟨_, hs⟩ => absurd hs (hstart _)

/-- Nothing is unfinished behind a join. -/
theorem Orderly.joined {w : World} (h : Orderly w) {r : Request} {i : Option ℕ}
    (hst : w.holder = some (.joiningSession r i)) (hended : w.SessionEnded i) (n : ℕ) :
    ¬ w.Unfinished n := by
  rintro ⟨t, ht⟩
  have hcur := h.session n ⟨t, ht⟩
  rw [World.currentSession, hst] at hcur
  obtain ⟨t', ht'⟩ := hended n hcur
  rw [ht] at ht'
  exact absurd (Option.some.inj ht') (by simp)

/-- No capture is unfinished behind its join. -/
theorem Orderly.captureJoined {w : World} (h : Orderly w) {c : Call} {j : Option ℕ}
    (hst : w.holder = some (.joiningCapture c j)) (hended : w.CaptureEnded j) (n : ℕ) :
    ¬ w.CaptureUnfinished n := by
  rintro ⟨cleared, hc⟩
  have hcur := h.capture n ⟨cleared, hc⟩
  rw [World.currentCapture, hst] at hcur
  obtain ⟨cleared', hc'⟩ := hended n hcur
  rw [hc] at hc'
  exact absurd (Option.some.inj hc') (by simp)

/-- Nothing is unfinished while no handle is there. -/
theorem Orderly.none_unfinished {w : World} (h : Orderly w) (hnone : w.currentSession = none)
    (n : ℕ) : ¬ w.Unfinished n := by
  intro hu
  have hcur := h.session n hu
  rw [hnone] at hcur
  exact absurd hcur (by simp)

/-- **The steps of the tasks keep the order.** -/
theorem Orderly.background {digest : Bytes → Vector UInt8 20} {w w' : World} {e : Event}
    (hi : Inv w) (h : Orderly w) (he : e.Background) (hstep : Step digest w e w') :
    Orderly w' := by
  have hc := Rib.sections_consistent hi.reachable
  -- by step of a task; `control` is not touched by any of them
  cases hstep with
  | @free s d hfree hcap hr =>
    have hrunning : d.running = w.data.running := (free_frame hfree hr).2.1
    exact ⟨h.session, h.capture, h.newest, h.tookSession, h.tookCapture, h.untold,
      fun i t ht hl => hrunning.trans (h.running i t ht hl),
      fun hs => hrunning.trans (h.starting hs)⟩
  | @session i t t' e v ht htask hs ht' =>
    obtain ⟨hlive, t'', ht'', hsound, hstop, hdata⟩ := task_step hs htask rfl (hi.sound i _ ht)
    rw [ht'] at ht''
    obtain rfl := Option.some.inj ht''
    have hcur := h.session i ⟨t, ht⟩
    -- no other session is unfinished
    have hself : (w.sessions.set i ⟨t', false⟩)[i]? = some ⟨t', false⟩ := getElem?_set_self_of ht
    have hunf : ∀ n, World.Unfinished
        { w with data := v.data, sessions := w.sessions.set i ⟨t', false⟩ } n → n = i := by
      rintro n ⟨u, hu⟩
      rcases getElem?_set_cases hu with ⟨hn, -⟩ | ⟨-, hu⟩
      · exact hn
      · exact Option.some.inj ((h.session n ⟨u, hu⟩).symm.trans hcur)
    refine ⟨fun n hn => ?_, h.capture, fun n hn => ?_, h.tookSession, h.tookCapture,
      fun n hn => ?_, fun n u hu hlive' => ?_, fun hs => ?_⟩
    · rw [hunf n hn]
      exact hcur
    · show n + 1 = (w.sessions.set i _).length
      rw [List.length_set]
      exact h.newest n hn
    · obtain ⟨u, hu, hstopped⟩ := h.untold n hn
      have hni : n = i := hunf n ⟨_, by
        show (w.sessions.set i _)[n]? = some ⟨if n = i then t' else u, false⟩
        split_ifs with hni
        · rw [hni, hself]
        · rw [List.getElem?_set_ne (Ne.symm hni), hu]⟩
      rw [hni, ht] at hu
      have htu : t = u := congrArg SessionTask.task (Option.some.inj hu)
      exact ⟨t', hni ▸ hself, by rw [hstop, htu, hstopped]⟩
    · have hrun := h.running i _ ht hlive
      rcases hdata with ⟨hsame, -⟩ | ⟨s, hsec, hr, ⟨-, hne⟩ | ⟨hdead, -⟩⟩
      · show v.data.running = true
        rw [hsame]
        exact hrun
      · rcases (hsec.frame hc hr).2 with hrunning | ⟨n, hended⟩
        · exact hrunning.trans hrun
        · exact absurd hended (hne n)
      · -- the only session is at its end
        have hni : n = i := by
          rcases getElem?_set_cases hu with ⟨hn, -⟩ | ⟨-, hu⟩
          · exact hn
          · exact Option.some.inj ((h.session n (hi.unfinished_of_live hu hlive')).symm.trans hcur)
        have hself' : (w.sessions.set i ⟨t', false⟩)[n]? = some u := hu
        rw [hni, hself] at hself'
        rw [← Option.some.inj hself'] at hlive'
        exact absurd hlive' hdead
    · -- a session is not about to be spawned beside another one
      obtain ⟨config, hst⟩ := hs
      have hnone := h.tookSession _ hst trivial
      rw [World.currentSession, hst] at hcur
      rw [hnone] at hcur
      exact absurd hcur (by simp)
  | @sessionEnds i t ht hdead =>
    -- a session that has ended leaves no new one unfinished
    have hunf : ∀ n, World.Unfinished { w with sessions := w.sessions.set i ⟨t, true⟩ } n →
        w.Unfinished n := by
      rintro n ⟨u, hu⟩
      rcases getElem?_set_cases hu with ⟨-, hu⟩ | ⟨-, hu⟩
      · exact absurd hu (by simp)
      · exact ⟨u, hu⟩
    refine ⟨fun n hn => h.session n (hunf n hn), h.capture, fun n hn => ?_, h.tookSession,
      h.tookCapture, fun n hn => ?_, fun n u hu hlive => ?_, h.starting⟩
    · show n + 1 = (w.sessions.set i _).length
      rw [List.length_set]
      exact h.newest n hn
    · -- a session that has not been told to stop is not at its end
      obtain ⟨u, hu, hstopped⟩ := h.untold n hn
      have hni : n ≠ i := by
        rintro rfl
        rw [ht] at hu
        have htu : t = u := congrArg SessionTask.task (Option.some.inj hu)
        refine hdead (Or.inl fun hplace => ?_)
        have htold := (hi.sound n _ ht).told hplace
        rw [htu, hstopped] at htold
        exact absurd htold Bool.false_ne_true
      refine ⟨u, ?_, hstopped⟩
      show (w.sessions.set i _)[n]? = _
      rw [List.getElem?_set_ne (Ne.symm hni), hu]
    · rcases getElem?_set_cases hu with ⟨-, rfl⟩ | ⟨-, hu⟩
      · exact absurd hlive hdead
      · exact h.running n u hu hlive
  | @captureClears j d ht hr =>
    -- the captures keep their number, and which of them are unfinished
    obtain rfl := Option.some.inj hr
    refine ⟨h.session, fun n hn => h.capture n ?_, h.newest, h.tookSession, h.tookCapture, h.untold,
      h.running, h.starting⟩
    obtain ⟨c, hu⟩ := hn
    rcases getElem?_set_cases hu with ⟨rfl, -⟩ | ⟨-, hu⟩
    · exact ⟨false, ht⟩
    · exact ⟨c, hu⟩
  | @captureEnds j ht =>
    refine ⟨h.session, fun n hn => h.capture n ?_, h.newest, h.tookSession, h.tookCapture, h.untold,
      h.running, h.starting⟩
    obtain ⟨c, hu⟩ := hn
    rcases getElem?_set_cases hu with ⟨-, hu⟩ | ⟨-, hu⟩
    · exact absurd hu (by simp)
    · exact ⟨c, hu⟩
  | invalid _ => exact h
  | _ => exact absurd he (by simp [Event.Background])

/-- A stage in which a request waits for a task. -/
def Stage.Joining : Stage → Prop
  | .joiningSession _ _ | .joiningCapture _ _ => True
  | _ => False

/-- Outside of a wait, the handles are in `control`. -/
theorem World.current_of_not_joining {w : World} (h : ∀ st, w.holder = some st → ¬ st.Joining) :
    w.currentSession = w.session ∧ w.currentCapture = w.capture := by
  unfold World.currentSession World.currentCapture
  cases hst : w.holder with
  | none => exact ⟨rfl, rfl⟩
  | some st =>
    cases st with
    | joiningSession r i => exact absurd trivial (h _ hst)
    | joiningCapture c j => exact absurd trivial (h _ hst)
    | _ => exact ⟨rfl, rfl⟩

/-- A request that goes on outside of its waits. -/
theorem Orderly.moves {w : World} (h : Orderly w) (hfrom : ∀ st, w.holder = some st → ¬ st.Joining)
    {holder : Option Stage}
    (hto : ∀ st, holder = some st → ¬ st.Joining ∧ (∀ c, st ≠ .spawning c) ∧
      (st.TookSession → w.session = none) ∧ (st.TookCapture → w.capture = none)) :
    Orderly { w with holder := holder } := by
  obtain ⟨hses, hcap⟩ := World.current_of_not_joining hfrom
  obtain ⟨hses', hcap'⟩ := World.current_of_not_joining (w := { w with holder := holder })
    fun st hst => (hto st hst).1
  refine h.goes (fun i hi => ?_) (fun j hj => ?_) (fun i hi => ?_)
    (fun st hst => (hto st hst).2.2.1) (fun st hst => (hto st hst).2.2.2) (fun _ hi => hi)
    fun c hc => (hto _ hc).2.1 c rfl
  · exact hses'.trans (hses.symm.trans (h.session i hi))
  · exact hcap'.trans (hcap.symm.trans (h.capture j hj))
  · exact hses.trans (hses'.symm.trans hi)

/-- A request that is done without having spawned anything. -/
theorem Orderly.releases {w : World} (h : Orderly w) {st : Stage} (hst : w.holder = some st)
    (hj : ¬ st.Joining) : Orderly { w with holder := none } :=
  h.moves (fun st' hst' => by rw [hst] at hst'; rwa [← Option.some.inj hst'])
    fun st' hst' => absurd hst' (by simp)

/-- A request that goes on to a stage, outside of its waits. -/
theorem Orderly.movesTo {w : World} (h : Orderly w) {st st' : Stage} (hst : w.holder = some st)
    (hj : ¬ st.Joining) (hj' : ¬ st'.Joining) (hs : ∀ c, st' ≠ .spawning c)
    (htookS : st'.TookSession → st.TookSession) (htookC : st'.TookCapture → st.TookCapture) :
    Orderly { w with holder := some st' } := by
  refine h.moves (fun st₁ h₁ => ?_) fun st₁ h₁ => ?_
  · rw [hst] at h₁
    rwa [← Option.some.inj h₁]
  · rw [← Option.some.inj h₁]
    exact ⟨hj', hs, fun htook => h.tookSession st hst (htookS htook),
      fun htook => h.tookCapture st hst (htookC htook)⟩

/-- The handle of the session goes from `control` to the request. -/
theorem Orderly.takesSession {w : World} (h : Orderly w) {r : Request}
    (hst : w.holder = some (.stoppingSession r)) :
    Orderly { w with
      session := none
      sessions := tell w.sessions w.session
      holder := some (.joiningSession r w.session) } := by
  -- the handle that the holder has now is the one of before
  have hcur : w.currentSession = w.session := by rw [World.currentSession, hst]
  have hcap : w.currentCapture = w.capture := by rw [World.currentCapture, hst]
  refine ⟨fun i hu => ?_, fun j hu => hcap.symm.trans (h.capture j hu), fun i hi => ?_,
    fun _ _ _ => rfl, fun st hst' htook => ?_, fun i hi => absurd hi (by simp),
    fun i t ht hlive => ?_, fun hs => ?_⟩
  · obtain ⟨t, ht⟩ := hu
    obtain ⟨⟨t₀, ended⟩, ht₀, hended, -⟩ := getElem?_tell ht
    obtain rfl : false = ended := hended
    exact hcur.symm.trans (h.session i ⟨t₀, ht₀⟩)
  · -- telling a task to stop leaves the number of tasks
    have hlen : (tell w.sessions w.session).length = w.sessions.length := by
      cases w.session with
      | none => rfl
      | some i => exact List.length_modify _ _ _
    show i + 1 = (tell w.sessions w.session).length
    rw [hlen]
    exact h.newest i (hcur.trans hi)
  · rw [← Option.some.inj hst'] at htook
    exact absurd htook (by simp [Stage.TookCapture])
  · obtain ⟨t₀, ht₀, -, hplace, htodo, -⟩ := getElem?_tell ht
    refine h.running i t₀ ht₀ ?_
    unfold Task.Live at hlive ⊢
    rwa [← hplace, ← htodo]
  · obtain ⟨config, hs⟩ := hs
    exact absurd (Option.some.inj hs) (by simp)

/-- Behind the join of a session none is unfinished. -/
theorem Orderly.behindSession {w : World} (h : Orderly w) {r : Request} {i : Option ℕ}
    (hst : w.holder = some (.joiningSession r i)) (hended : w.SessionEnded i)
    {holder : Option Stage}
    (hto : ∀ st, holder = some st → ¬ st.Joining ∧ (∀ c, st ≠ .spawning c) ∧ ¬ st.TookCapture) :
    Orderly { w with holder := holder } := by
  have hnone := h.tookSession _ hst trivial
  have hcap : w.currentCapture = w.capture := by rw [World.currentCapture, hst]
  obtain ⟨hses', hcap'⟩ := World.current_of_not_joining (w := { w with holder := holder })
    fun st hst => (hto st hst).1
  refine h.goes (fun n hn => absurd hn (h.joined hst hended n)) (fun j hj => ?_) (fun n hn => ?_)
    (fun _ _ _ => hnone) (fun st hst' htook => absurd htook (hto st hst').2.2) (fun _ hi => hi)
    fun c hc => (hto _ hc).2.1 c rfl
  · exact hcap'.trans (hcap.symm.trans (h.capture j hj))
  · have hn' : w.session = some n := hses'.symm.trans hn
    rw [hnone] at hn'
    exact absurd hn' (by simp)

/-- Behind the join of a capture none is unfinished. -/
theorem Orderly.behindCapture {w : World} (h : Orderly w) {c : Call} {j : Option ℕ}
    (hst : w.holder = some (.joiningCapture c j)) (hended : w.CaptureEnded j)
    {holder : Option Stage}
    (hto : ∀ st, holder = some st → ¬ st.Joining ∧ (∀ c, st ≠ .spawning c) ∧
      (st.TookSession → (Stage.joiningCapture c j).TookSession)) :
    Orderly { w with holder := holder } := by
  have hnone := h.tookCapture _ hst trivial
  have hcur : w.currentSession = w.session := by rw [World.currentSession, hst]
  obtain ⟨hses', -⟩ := World.current_of_not_joining (w := { w with holder := holder })
    fun st hst => (hto st hst).1
  refine h.goes (fun i hi => ?_) (fun n hn => absurd hn (h.captureJoined hst hended n))
    (fun i hi => ?_) (fun st hst' htook => h.tookSession _ hst ((hto st hst').2.2 htook))
    (fun _ _ _ => hnone) (fun _ hi => hi) fun c hc => (hto _ hc).2.1 c rfl
  · exact hses'.trans (hcur.symm.trans (h.session i hi))
  · exact hcur.trans (hses'.symm.trans hi)

theorem Orderly.takesCapture {w : World} (h : Orderly w) {c : Call}
    (hst : w.holder = some (.stoppingCapture c)) :
    Orderly { w with capture := none, holder := some (.joiningCapture c w.capture) } := by
  have hcur : w.currentSession = w.session := by rw [World.currentSession, hst]
  have hcap : w.currentCapture = w.capture := by rw [World.currentCapture, hst]
  refine h.goes (fun i hi => hcur.symm.trans (h.session i hi))
    (fun j hj => hcap.symm.trans (h.capture j hj)) (fun i hi => hcur.trans hi)
    (fun st hst' htook => ?_) (fun _ _ _ => rfl) (fun _ hi => hi)
    (fun c hc => absurd (Option.some.inj hc) (by simp))
  rw [← Option.some.inj hst'] at htook
  refine h.tookSession _ hst ?_
  cases c <;> exact htook

/-- The critical section of a request. -/
theorem Orderly.writes {w : World} (hi : Inv w) (h : Orderly w) {c : Call} {s : Section} {d : Data}
    (hst : w.holder = some (.writing c)) (hdoes : c.Does s) (hr : s.run w.data = some d) :
    Orderly { w with data := d, holder := some (.spawning c) } := by
  have hcur : w.currentSession = w.session := by rw [World.currentSession, hst]
  have hcap : w.currentCapture = w.capture := by rw [World.currentCapture, hst]
  refine ⟨fun i hi => hcur.symm.trans (h.session i hi),
    fun j hj => hcap.symm.trans (h.capture j hj),
    fun i hi => h.newest i (hcur.trans hi), fun st hst' htook => ?_,
    fun _ _ _ => h.tookCapture _ hst trivial, h.untold, fun i t ht hlive => ?_, fun hs => ?_⟩
  · rw [← Option.some.inj hst'] at htook
    refine h.tookSession _ hst ?_
    cases c <;> exact htook
  · cases hdoes with
    | start config instant => rw [← Option.some.inj hr]
    | stop instant =>
      -- no session is left
      have hgone := h.none_unfinished (hcur.trans (h.tookSession _ hst trivial)) i
      exact absurd (hi.unfinished_of_live ht hlive) hgone
    | captureStart =>
      rw [← Option.some.inj hr]
      exact h.running i t ht hlive
  · obtain ⟨config, hs⟩ := hs
    obtain rfl : c = .session (.start config) := Stage.spawning.inj (Option.some.inj hs)
    cases hdoes with
    | start config instant => rw [← Option.some.inj hr]

/-- The new session is the only one, since the request has waited for the old one. -/
theorem Orderly.spawnsSession {w : World} (h : Orderly w) {config : Config}
    (hst : w.holder = some (.spawning (.session (.start config)))) :
    Orderly { w with
      sessions := w.sessions ++ [⟨⟨config, false, .loop false, []⟩, false⟩]
      session := some w.sessions.length
      holder := none } := by
  have hcap : w.currentCapture = w.capture := by rw [World.currentCapture, hst]
  -- the request took the old task, so the new one is alone
  have hcur : w.currentSession = none := by
    rw [World.currentSession, hst]
    exact h.tookSession _ hst trivial
  have hnew : ∀ i, some w.sessions.length = some i → i = w.sessions.length := fun i hi =>
    (Option.some.inj hi).symm
  refine ⟨fun i hu => ?_, fun j hj => hcap.symm.trans (h.capture j hj), fun i hi => ?_,
    fun st hst' => absurd hst' (by simp), fun st hst' => absurd hst' (by simp),
    fun i hi => ?_, fun i t ht hlive => h.starting ⟨config, hst⟩, fun _ => h.starting ⟨config, hst⟩⟩
  · obtain ⟨t, ht⟩ := hu
    rcases getElem?_concat_cases ht with ⟨rfl, -⟩ | ht
    · rfl
    · exact absurd ⟨t, ht⟩ (h.none_unfinished hcur i)
  · rw [hnew i hi]
    show w.sessions.length + 1 = (w.sessions ++ [_]).length
    rw [List.length_append, List.length_singleton]
  · rw [hnew i hi]
    exact ⟨_, List.getElem?_concat_length, rfl⟩

/-- The new capture is the only one, for the same reason. -/
theorem Orderly.spawnsCapture {w : World} (h : Orderly w)
    (hst : w.holder = some (.spawning .captureStart)) :
    Orderly { w with
      captures := w.captures ++ [⟨false, false⟩], capture := some w.captures.length,
      holder := none } := by
  have hcur : w.currentSession = w.session := by rw [World.currentSession, hst]
  -- the request took the old capture task, so the new one is alone
  have hcap : w.currentCapture = none := by
    rw [World.currentCapture, hst]
    exact h.tookCapture _ hst trivial
  refine ⟨fun i hi => hcur.symm.trans (h.session i hi), fun j hu => ?_,
    fun i hi => h.newest i (hcur.trans hi), fun st hst' => absurd hst' (by simp),
    fun st hst' => absurd hst' (by simp), h.untold, h.running, fun ⟨_, hs⟩ => absurd hs (by simp)⟩
  obtain ⟨c, hc⟩ := hu
  rcases getElem?_concat_cases hc with ⟨rfl, -⟩ | hc
  · rfl
  · have hj := h.capture j ⟨c, hc⟩
    rw [hcap] at hj
    exact absurd hj (by simp)

/-- **Every step that leaves no task behind keeps the order.** -/
theorem Orderly.step {digest : Bytes → Vector UInt8 20} {w w' : World} {e : Event} (hi : Inv w)
    (h : Orderly w) (hkept : Kept w e) (hstep : Step digest w e w') : Orderly w' := by
  have hback : e.Background → Orderly w' := fun he => h.background hi he hstep
  -- by step: a task works in the background, and the holder moves from stage to stage
  cases hstep with
  | free | session | sessionEnds | captureClears | captureEnds | invalid => exact hback trivial
  | @acquires c hnone _ =>
    refine h.moves (fun st hst => absurd (hnone.symm.trans hst) (by simp)) fun st hst => ?_
    rw [← Option.some.inj hst]
    cases c <;> simp [Call.first, Stage.Joining, Stage.TookSession, Stage.TookCapture]
  | takesSession hst => exact h.takesSession hst
  | joinsSession hst hended =>
    refine h.behindSession hst hended fun st hst' => ?_
    rw [← Option.some.inj hst']
    simp [Stage.Joining, Stage.TookCapture]
  | checks hst _ =>
    exact h.movesTo hst (by simp [Stage.Joining]) (by simp [Stage.Joining]) (by simp)
      (by simp [Stage.TookSession]) (by simp [Stage.TookCapture])
  | refused hst _ | fails hst _ | spawnsNothing hst =>
    exact h.releases hst (by simp [Stage.Joining])
  | takesCapture hst => exact h.takesCapture hst
  | @joinsCapture c j hst hended =>
    -- the capture task that was waited for has ended
    refine h.behindCapture hst hended fun st hst' => ?_
    cases c with
    | captureStop => exact absurd hst' (by simp)
    | session r | captureStart =>
      rw [← Option.some.inj hst']
      simp [Stage.Joining, Stage.TookSession]
  | @prepared c hst =>
    exact h.movesTo hst (by simp [Stage.Joining]) (by simp [Stage.Joining]) (by simp)
      (by cases c <;> simp [Stage.TookSession]) (by simp [Stage.TookCapture])
  | writes hst hdoes hr => exact h.writes hi hst hdoes hr
  | spawnsSession hst => exact h.spawnsSession hst
  | spawnsCapture hst => exact h.spawnsCapture hst
  | @dropped st hst hjoins =>
    -- a call is dropped in a join only when the task it waits for has ended
    obtain ⟨hkeptS, hkeptC⟩ := hkept
    cases st with
    | joiningSession r i =>
      exact h.behindSession hst (hkeptS r i hst) fun st hst' => absurd hst' (by simp)
    | joiningCapture c j =>
      exact h.behindCapture hst (hkeptC c j hst) fun st hst' => absurd hst' (by simp)
    | _ => exact absurd hjoins (by simp [Stage.Joins])

/-- The order is kept in every run of the condition. -/
theorem kept_orderly {digest : Bytes → Vector UInt8 20} {w : World}
    (h : (kept digest).Reachable w) : Inv w ∧ Orderly w := by
  refine System.Invariant.reachable (P := fun w => Inv w ∧ Orderly w) ⟨?_, ?_⟩ h
  · rintro w ⟨output, rfl⟩
    exact ⟨.new output, .new output⟩
  · rintro w e w' ⟨hi, ho⟩ ⟨hkept, hstep⟩
    exact ⟨hi.step hstep, ho.step hi hkept hstep⟩

/-- **One session and one capture**, in every run in which no handler is dropped before the
task that it waits for has ended. -/
theorem kept_exclusive {digest : Bytes → Vector UInt8 20} {w : World}
    (h : (kept digest).Reachable w) : Exclusive digest w := by
  obtain ⟨hi, ho⟩ := kept_orderly h
  exact ho.exclusive hi

/-! A session is started, and a handler that stops it is dropped in its wait. -/

/-- A session that connects is the only one, and the flag tells of it. -/
theorem connecting_exclusive : ∃ w, w.Unfinished 0 ∧ w.data.running = true ∧
    Exclusive sampleDigest w := by
  obtain ⟨w, h, -, -, -, -, hsessions, hrunning, -⟩ :=
    exists_connecting sampleConfig_valid
  exact ⟨w, ⟨_, by rw [hsessions]; rfl⟩, hrunning, kept_exclusive h⟩

/-- The next session runs beside the first one, whose end clears its running flag. -/
theorem dropped_overlap : ∃ w, (control sampleDigest).Reachable w ∧ w.holder = none ∧
    w.Unfinished 0 ∧ w.Unfinished 1 ∧ w.data.running = false ∧ ¬ Exclusive sampleDigest w := by
  obtain ⟨⟨d, sessions, captures, session, capture, holder⟩, h, h₁, h₂, h₃, h₄, h₅, hrunning, -⟩ :=
    exists_connecting sampleConfig_valid
  subst h₁ h₂ h₃ h₄ h₅
  -- a stop takes the session, and its caller goes away before the session has ended
  have a₁ := h.of_restrict.step
    (Step.acquires (c := .session .stop) rfl fun config hc => absurd hc (by simp))
  have a₂ := a₁.step (Step.takesSession rfl)
  have a₃ := a₂.step (Step.dropped rfl rfl)
  -- the next start finds no session to wait for, and spawns its own
  have a₄ := a₃.step (Step.acquires (c := .session (.start sampleConfig)) rfl fun config hc => by
    rw [← Request.start.inj (Call.session.inj hc), sampleConfig_valid])
  have a₅ := a₄.step (Step.takesSession rfl)
  have a₆ := a₅.step (Step.joinsSession rfl fun n hn => absurd hn (by simp))
  have a₇ := a₆.step (Step.takesCapture rfl)
  have a₈ := a₇.step (Step.joinsCapture rfl fun n hn => absurd hn (by simp))
  have a₉ := a₈.step (Step.prepared rfl)
  have a₁₀ := a₉.step (Step.writes rfl (.start sampleConfig 0) rfl)
  have a₁₁ := a₁₀.step (Step.spawnsSession rfl)
  -- the first session finds out that it has been told to stop
  have a₁₂ := a₁₁.step (Step.session (i := 0) (e := .stopped) rfl trivial
    (.stoppedIdle rfl rfl rfl (.inl rfl)) rfl)
  have a₁₃ := a₁₂.step (Step.session (i := 0) (e := .act _) rfl trivial
    (.act rfl rfl (.runEnded 0) rfl) rfl)
  refine ⟨_, a₁₃, rfl, ⟨_, rfl⟩, ⟨_, rfl⟩, rfl, fun hex => ?_⟩
  exact absurd (hex.session 0 1 ⟨_, rfl⟩ ⟨_, rfl⟩) (by simp)

end Session.Control
