import BgpReceiver.Session.Framing

/-!
# The timers of a session

The read loop under a clock. Two timers run beside the read of a frame: the hold timer is
set anew by every frame that the match takes, the KEEPALIVE timer by every KEEPALIVE that
has been written. Neither is looked at while the write of a KEEPALIVE is under way, and that
write has a time limit of its own.

What the timers promise comes in two parts. However late the loop is woken, the hold timer
accuses no peer that has been heard within the hold time, and KEEPALIVEs are at least a
period apart (`clocked_timely`). When the loop is woken in time, a silent peer is given up
within twice the hold time, the excess being the write that was under way, and each write
begins exactly one period after the last one was done (`prompt_timed`).
-/

namespace Session

/-! ### The loop under a clock -/

/-- A read loop, the time, and the write that is under way. -/
structure Clocked where
  loop : Loop
  now : ℕ
  /-- When the write of a KEEPALIVE began. -/
  writing : Option ℕ

/-- What happens to it. -/
inductive ClockEvent where
  | elapse (time : ℕ)
  /-- The KEEPALIVE timer goes off, and the write begins. -/
  | due
  | does (ev : LoopEvent)

/-- When a step of the loop can be taken. -/
def Clocked.Allows (s : Clocked) : LoopEvent → Prop
  | .arrive _ => True
  | .pull _ | .header => s.writing = none
  | .frame now => s.writing = none ∧ now = s.now
  | .keepalive now => s.writing.isSome ∧ now = s.now
  | .expire => s.writing = none ∧ s.loop.conn.deadline ≤ s.now
  -- the time limit is that of the write
  | .lose error => error = "Keepalive write timed out" →
      ∃ start, s.writing = some start ∧ start + fromSecs s.loop.conn.hold ≤ s.now

/-- The write that is under way after a step. -/
def writingAfter (writing : Option ℕ) : LoopEvent → Option ℕ
  | .keepalive _ => none
  | _ => writing

section Clock

variable (config : Config)

/-- Time goes on, a KEEPALIVE is due, or the loop takes a step that the time allows. -/
inductive ClockStep (s : Clocked) : ClockEvent → Clocked → Prop
  | elapse {time : ℕ} : ClockStep s (.elapse time) { s with now := s.now + time }
  | due : s.loop.ended = none → s.writing = none → s.loop.conn.receivedOpen = true →
      0 < s.loop.conn.hold → s.loop.conn.nextKeepalive ≤ s.now →
      ClockStep s .due { s with writing := some s.now }
  | does {ev : LoopEvent} {l : Loop} : s.Allows ev → LoopStep config s.loop ev l →
      ClockStep s (.does ev) ⟨l, s.now, writingAfter s.writing ev⟩

/-- The loop at its beginning, with nothing being written. -/
def Clocked.start (now : ℕ) : Clocked := ⟨.start config now, now, none⟩

/-- The loop under a clock, from the beginning of the session. -/
def clocked (now : ℕ) : System Clocked ClockEvent where
  init := fun s => s = .start config now
  step := ClockStep config

end Clock

/-- No timer that is due is slept through. -/
def Prompt (s : Clocked) : ClockEvent → Prop
  | .elapse time => s.loop.ended = none → 0 < s.loop.conn.hold →
      match s.writing with
      | some start => s.now + time ≤ start + fromSecs s.loop.conn.hold
      | none => s.now + time ≤ s.loop.conn.deadline ∧
          (s.loop.conn.receivedOpen = true → s.now + time ≤ s.loop.conn.nextKeepalive)
  | _ => True

/-- What the loop does. -/
def doneOf (es : List ClockEvent) : List LoopEvent :=
  es.filterMap fun
    | .does ev => some ev
    | _ => none

/-- When KEEPALIVEs have been written on the timer. -/
def keepalivesOf (es : List ClockEvent) : List ℕ :=
  es.filterMap fun
    | .does (.keepalive now) => some now
    | _ => none

/-- When a frame was last taken, or when the session began. -/
def Loop.lastHeard (l : Loop) (start : ℕ) : ℕ := (l.handed.map Arrival.now).getLastD start

/-- When KEEPALIVEs have been written: the first one answers the OPEN. -/
def Clocked.sent (s : Clocked) (es : List ClockEvent) : List ℕ :=
  (s.loop.handed.take 1).map Arrival.now ++ keepalivesOf es

/-! ### What a frame does to the timers -/

/-- **The timers behind a frame that is taken.** -/
theorem dispatch_timers {config : Config} {now : ℕ} {c c' : Conn} {f : Frame}
    {out : List Effect} (h : dispatch config now c f = .ok (c', out)) :
    c.receivedOpen = false ∧ c'.receivedOpen = true ∧ c'.established = c.established ∧
        c'.nextKeepalive = now + fromSecs (keepalivePeriod c'.hold) ∨
      (c.receivedOpen = true ∨ c.established = true) ∧ c'.receivedOpen = c.receivedOpen ∧
        c'.hold = c.hold ∧ c'.nextKeepalive = c.nextKeepalive := by
  unfold dispatch at h
  split_ifs at h with hopen hkeepalive hestablished hupdate
  · -- the OPEN sets the KEEPALIVE timer
    refine .inl ⟨hopen.2, ?_⟩
    unfold onOpen at h
    simp only [Reader.bind_eq_ok_iff] at h
    obtain ⟨info, -, h⟩ := h
    by_cases hpeer : info.index "peer_as" = .num config.peerAs.toNat
    · simp only [hpeer, ne_eq, not_true_eq_false, if_false] at h
      obtain ⟨rfl, -⟩ := Prod.mk.inj (Except.ok.inj h)
      exact ⟨rfl, rfl, by generalize fromSecs = secs; rfl⟩
    · simp only [ne_eq, hpeer, not_false_eq_true, if_true] at h
      exact absurd h (by simp [throw, throwThe, MonadExceptOf.throw, bind, Except.bind])
  · obtain ⟨rfl, -⟩ := Prod.mk.inj (Except.ok.inj h)
    exact .inr ⟨.inl hkeepalive.2.1, rfl, rfl, rfl⟩
  · obtain ⟨rfl, -⟩ := Prod.mk.inj (Except.ok.inj h)
    exact .inr ⟨.inl hkeepalive.2.1, rfl, rfl, rfl⟩
  · simp only [Reader.bind_eq_ok_iff] at h
    obtain ⟨u, -, h⟩ := h
    obtain ⟨rfl, -⟩ := Prod.mk.inj (Except.ok.inj h)
    exact .inr ⟨.inr hupdate.2, rfl, rfl, rfl⟩

/-- What a step of the loop does to the timers. -/
inductive TimerStep (config : Config) (l : Loop) : LoopEvent → Loop → Prop
  /-- nothing -/
  | quiet {ev : LoopEvent} {l' : Loop} : (∀ now, ev ≠ .keepalive now) → l'.conn = l.conn →
      l'.handed = l.handed → (l'.ended = none → l.ended = none) → TimerStep config l ev l'
  | taken {a : Arrival} {l' : Loop} {out : List Effect} : l.ended = none → l'.ended = none →
      l'.handed = l.handed ++ [a] → onFrame config l.conn a = .ok (l'.conn, out) →
      TimerStep config l (.frame a.now) l'
  | refused {a : Arrival} {l' : Loop} : l.ended = none → l'.ended ≠ none → l'.conn = l.conn →
      l'.handed = l.handed ++ [a] → TimerStep config l (.frame a.now) l'
  | keepalive {now : ℕ} {l' : Loop} : l.ended = none → l'.ended = none →
      l.conn.receivedOpen = true → l'.handed = l.handed →
      l'.conn = { l.conn with nextKeepalive := now + fromSecs (keepalivePeriod l.conn.hold) } →
      TimerStep config l (.keepalive now) l'

/-- **What a step of the loop does to the timers**, by the kind of its event. -/
theorem LoopStep.timers {config : Config} {l l' : Loop} {ev : LoopEvent}
    (h : LoopStep config l ev l') : TimerStep config l ev l' := by
  cases h with
  | arrive => exact .quiet nofun rfl rfl id
  | pullHeader hrun | pullBody hrun | header hrun => exact .quiet nofun rfl rfl fun _ => hrun
  | badHeader hrun | expire hrun | lose hrun => exact .quiet nofun rfl rfl fun _ => hrun
  | @frame kind len got now conn effects hrun _ _ hok =>
    exact TimerStep.taken (a := ⟨now, kind, got⟩) hrun hrun rfl hok
  | @refused kind len got now error hrun =>
    exact TimerStep.refused (a := ⟨now, kind, got⟩) hrun nofun rfl rfl
  | keepalive hrun hopen => exact .keepalive hrun hrun hopen rfl rfl

/-- The timers behind the match. -/
theorem onFrame_timers {config : Config} {c c' : Conn} {a : Arrival} {out : List Effect}
    (h : onFrame config c a = .ok (c', out)) (hc : c.established = true → c.receivedOpen = true) :
    c'.receivedOpen = true ∧ (0 < c'.hold → c'.deadline = a.now + fromSecs c'.hold) ∧
      (c.receivedOpen = false ∧ c'.nextKeepalive = a.now + fromSecs (keepalivePeriod c'.hold) ∨
        c.receivedOpen = true ∧ c'.hold = c.hold ∧ c'.nextKeepalive = c.nextKeepalive) := by
  unfold onFrame at h
  simp only [Reader.bind_eq_ok_iff] at h
  obtain ⟨⟨c₁, out₁⟩, hd, h⟩ := h
  have hturn : (if c₁.hold > 0 then { c₁ with deadline := a.now + fromSecs c₁.hold } else c₁)
      = c' := (Prod.mk.inj (Except.ok.inj h)).1
  -- nothing but the deadline is set behind the dispatch
  have hsame : c'.receivedOpen = c₁.receivedOpen ∧ c'.hold = c₁.hold ∧
      c'.nextKeepalive = c₁.nextKeepalive ∧
      (0 < c₁.hold → c'.deadline = a.now + fromSecs c₁.hold) := by
    rw [← hturn]
    split_ifs with hpos
    · exact ⟨rfl, rfl, rfl, fun _ => rfl⟩
    · exact ⟨rfl, rfl, rfl, fun h => absurd h hpos⟩
  obtain ⟨hopen, hhold, hnext, hdeadline⟩ := hsame
  rw [hopen, hhold, hnext]
  refine ⟨?_, hdeadline, ?_⟩
  · obtain ⟨-, h₁, -⟩ | ⟨hor, h₁, -⟩ := dispatch_timers hd
    · exact h₁
    · exact h₁.trans (hor.elim id hc)
  · obtain ⟨h₀, -, -, hn⟩ | ⟨hor, -, hh, hn⟩ := dispatch_timers hd
    · exact .inl ⟨h₀, hn⟩
    · exact .inr ⟨hor.elim id hc, hh, hn⟩

/-! ### However late -/

/-- The writes that have begun, with one more event. -/
theorem keepalivesOf_concat (es : List ClockEvent) (e : ClockEvent) :
    keepalivesOf (es ++ [e]) = keepalivesOf es ++ keepalivesOf [e] :=
  List.filterMap_append

/-- The writes that are done, with one more event. -/
theorem doneOf_concat (es : List ClockEvent) (e : ClockEvent) :
    doneOf (es ++ [e]) = doneOf es ++ doneOf [e] :=
  List.filterMap_append

/-- The frames and the KEEPALIVEs that have been written make up the same writes. -/
theorem sent_congr {s s' : Clocked} {es es' : List ClockEvent}
    (hhanded : s'.loop.handed.take 1 = s.loop.handed.take 1)
    (hsent : keepalivesOf es' = keepalivesOf es) : s'.sent es' = s.sent es := by
  unfold Clocked.sent
  rw [hhanded, hsent]

/-- A frame is the last one that was heard. -/
theorem lastHeard_concat {l l' : Loop} {a : Arrival} (h : l'.handed = l.handed ++ [a])
    (start : ℕ) : l'.lastHeard start = a.now := by
  unfold Loop.lastHeard
  rw [h, List.map_append, List.map_singleton, List.getLastD_concat]

/-- A chain goes on behind its last element. -/
theorem isChain_concat {R : ℕ → ℕ → Prop} {ts : List ℕ} {t : ℕ} (h : ts.IsChain R)
    (hlast : ∀ t₀ ∈ ts.getLast?, R t₀ t) : (ts ++ [t]).IsChain R :=
  h.append (List.isChain_singleton t) fun t₀ h₀ _ h' => Option.some.inj h' ▸ hlast t₀ h₀

/-- Two writes that follow each other are a period apart. -/
def Apart (hold t t' : ℕ) : Prop := t + fromSecs (keepalivePeriod hold) ≤ t'

/-- **How the timers stand**, whenever the loop is woken. -/
structure Timed (start : ℕ) (es : List ClockEvent) (s : Clocked) : Prop where
  heard : s.loop.lastHeard start ≤ s.now
  before : start ≤ s.loop.lastHeard start ∧ ∀ a ∈ s.loop.handed, a.now ≤ s.loop.lastHeard start
  apart : (s.sent es).IsChain (Apart s.loop.conn.hold)
  deadline : s.loop.ended = none → 0 < s.loop.conn.hold →
    s.loop.conn.deadline = s.loop.lastHeard start + fromSecs s.loop.conn.hold
  /-- Before the OPEN. -/
  silent : s.loop.ended = none → s.loop.conn.receivedOpen = false →
    s.loop.conn.established = false ∧ s.loop.handed = [] ∧ keepalivesOf es = [] ∧ s.writing = none
  /-- Behind it. -/
  opened : s.loop.ended = none → s.loop.conn.receivedOpen = true → s.loop.handed ≠ [] ∧
    ∃ t, (s.sent es).getLast? = some t ∧ t ≤ s.now ∧
      s.loop.conn.nextKeepalive = t + fromSecs (keepalivePeriod s.loop.conn.hold)
  writing : ∀ t, s.writing = some t → 0 < s.loop.conn.hold ∧ s.loop.conn.nextKeepalive ≤ t ∧
    t ≤ s.now

/-- What changes neither the variables nor the frames. -/
theorem Timed.keep {start : ℕ} {es es' : List ClockEvent} {s s' : Clocked} (h : Timed start es s)
    (hconn : s'.loop.conn = s.loop.conn) (hhanded : s'.loop.handed = s.loop.handed)
    (hended : s'.loop.ended = none → s.loop.ended = none) (hnow : s.now ≤ s'.now)
    (hwriting : s'.writing = s.writing) (hsent : keepalivesOf es' = keepalivesOf es) :
    Timed start es' s' := by
  -- the clauses about the peer need that nothing was taken
  have hlast : s'.loop.lastHeard start = s.loop.lastHeard start := by
    unfold Loop.lastHeard
    rw [hhanded]
  -- those about the KEEPALIVEs need that none was written
  have hall : s'.sent es' = s.sent es := sent_congr (by rw [hhanded]) hsent
  refine ⟨?_, ?_, ?_, ?_, ?_, ?_, ?_⟩
  · rw [hlast]
    exact h.heard.trans hnow
  · rw [hlast, hhanded]
    exact h.before
  · rw [hall, hconn]
    exact h.apart
  · rw [hlast, hconn]
    exact fun he => h.deadline (hended he)
  · rw [hconn, hhanded, hsent, hwriting]
    exact fun he => h.silent (hended he)
  · rw [hconn, hhanded, hall]
    intro he hopen
    obtain ⟨hne, t, ht, hle, hn⟩ := h.opened (hended he) hopen
    exact ⟨hne, t, ht, hle.trans hnow, hn⟩
  · rw [hconn, hwriting]
    intro t ht
    obtain ⟨hpos, hn, hle⟩ := h.writing t ht
    exact ⟨hpos, hn, hle.trans hnow⟩

theorem timed_start (config : Config) (now : ℕ) : Timed now [] (.start config now) where
  heard := le_rfl
  before := ⟨le_rfl, nofun⟩
  apart := .nil
  deadline := fun _ hpos => by
    have hne : config.holdTime.toNat ≠ 0 := Nat.ne_of_gt hpos
    change now + fromSecs (if config.holdTime.toNat = 0 then _ else config.holdTime.toNat)
      = now + fromSecs config.holdTime.toNat
    rw [if_neg hne]
  silent := fun _ _ => ⟨rfl, rfl, rfl, rfl⟩
  opened := fun _ hopen => by cases hopen
  writing := nofun

/-- The writes behind a frame: the first one is answered, the others are not. -/
theorem Timed.sent_frame {start : ℕ} {es : List ClockEvent} {s : Clocked}
    (h : Timed start es s) (s' : Clocked) (hrun : s.loop.ended = none) {a : Arrival}
    (hhanded : s'.loop.handed = s.loop.handed ++ [a]) :
    (s.loop.conn.receivedOpen = false → s'.sent (es ++ [.does (.frame a.now)]) = [a.now]) ∧
    (s.loop.conn.receivedOpen = true →
      s'.sent (es ++ [.does (.frame a.now)]) = s.sent es) := by
  have hkept : keepalivesOf (es ++ [.does (.frame a.now)]) = keepalivesOf es := by
    rw [keepalivesOf_concat]
    exact List.append_nil _
  constructor
  · intro hopen
    obtain ⟨-, hnil, hnone, -⟩ := h.silent hrun hopen
    unfold Clocked.sent
    rw [hkept, hnone, hhanded, hnil]
    rfl
  · intro hopen
    refine sent_congr ?_ hkept
    rw [hhanded, List.take_append_of_le_length]
    exact List.length_pos_iff.mpr (h.opened hrun hopen).1

/-- An established session has been opened. -/
theorem Timed.established_opened {start : ℕ} {es : List ClockEvent} {s : Clocked}
    (h : Timed start es s) (hrun : s.loop.ended = none)
    (he : s.loop.conn.established = true) : s.loop.conn.receivedOpen = true := by
  cases hopen : s.loop.conn.receivedOpen with
  | false => exact absurd he (by simp [(h.silent hrun hopen).1])
  | true => rfl

/-- A frame that the match refuses. -/
theorem Timed.refused {start : ℕ} {es : List ClockEvent} {s : Clocked} (h : Timed start es s)
    (hrun : s.loop.ended = none) {a : Arrival} {l' : Loop} (ha : a.now = s.now)
    (hhanded : l'.handed = s.loop.handed ++ [a]) (hended : l'.ended ≠ none)
    (hconn : l'.conn = s.loop.conn) :
    Timed start (es ++ [.does (.frame a.now)]) ⟨l', s.now, s.writing⟩ := by
  obtain ⟨hfirst, hlater⟩ := h.sent_frame ⟨l', s.now, s.writing⟩ hrun hhanded
  -- a frame that is refused has been heard
  have hlast := lastHeard_concat hhanded start
  refine ⟨(hlast.trans ha).le, ?_, ?_, fun he => absurd he hended, fun he => absurd he hended,
    fun he => absurd he hended, ?_⟩
  · rw [hlast, hhanded, ha]
    refine ⟨h.before.1.trans h.heard, fun b hb => ?_⟩
    obtain hb | hb := List.mem_append.mp hb
    · exact (h.before.2 b hb).trans h.heard
    · rw [List.mem_singleton.mp hb, ha]
  · rw [hconn]
    cases hopen : s.loop.conn.receivedOpen with
    | false =>
      rw [hfirst hopen]
      exact List.isChain_singleton _
    | true =>
      rw [hlater hopen]
      exact h.apart
  · rw [hconn]
    exact h.writing

/-- A frame that it takes. -/
theorem Timed.taken {config : Config} {start : ℕ} {es : List ClockEvent} {s : Clocked}
    (h : Timed start es s) (hrun : s.loop.ended = none) (hwriting : s.writing = none)
    {a : Arrival} {l' : Loop} {out : List Effect} (ha : a.now = s.now)
    (hhanded : l'.handed = s.loop.handed ++ [a])
    (hok : onFrame config s.loop.conn a = .ok (l'.conn, out)) :
    Timed start (es ++ [.does (.frame a.now)]) ⟨l', s.now, s.writing⟩ := by
  obtain ⟨hfirst, hlater⟩ := h.sent_frame ⟨l', s.now, s.writing⟩ hrun hhanded
  -- the frame is the last one heard, and sets the deadline anew
  have hlast := lastHeard_concat hhanded start
  obtain ⟨hopened, hdeadline, hnext⟩ := onFrame_timers hok (h.established_opened hrun)
  refine ⟨(hlast.trans ha).le, ?_, ?_, fun _ hpos => ?_, fun _ hopen => ?_, fun _ _ => ⟨?_, ?_⟩, ?_⟩
  · rw [hlast, hhanded, ha]
    refine ⟨h.before.1.trans h.heard, fun b hb => ?_⟩
    obtain hb | hb := List.mem_append.mp hb
    · exact (h.before.2 b hb).trans h.heard
    · rw [List.mem_singleton.mp hb, ha]
  · obtain ⟨hopen, -⟩ | ⟨hopen, hhold, -⟩ := hnext
    · rw [hfirst hopen]
      exact List.isChain_singleton _
    · rw [hlater hopen, hhold]
      exact h.apart
  · rw [hlast]
    exact hdeadline hpos
  · exact absurd hopen (by simp [hopened])
  · simp [hhanded]
  · obtain ⟨hopen, hn⟩ | ⟨hopen, hhold, hn⟩ := hnext
    · -- behind the OPEN the first KEEPALIVE is due a period from now
      exact ⟨a.now, by rw [hfirst hopen]; rfl, ha.le, hn⟩
    · obtain ⟨-, t, ht, hle, hn'⟩ := h.opened hrun hopen
      exact ⟨t, by rw [hlater hopen, ht], hle, by rw [hn, hn', hhold]⟩
  · exact fun t ht => absurd ht (by simp [hwriting])

/-- The writes behind a KEEPALIVE. -/
theorem sent_keepalive {s : Clocked} {l' : Loop} (hhanded : l'.handed = s.loop.handed)
    (es : List ClockEvent) : Clocked.sent ⟨l', s.now, none⟩ (es ++ [.does (.keepalive s.now)])
      = s.sent es ++ [s.now] := by
  unfold Clocked.sent
  rw [keepalivesOf_concat, hhanded, List.append_assoc]
  rfl

/-- A KEEPALIVE that has been written. -/
theorem Timed.keepalive {start : ℕ} {es : List ClockEvent} {s : Clocked} (h : Timed start es s)
    (hrun : s.loop.ended = none) (hwriting : s.writing.isSome) {l' : Loop}
    (hopen : s.loop.conn.receivedOpen = true) (hhanded : l'.handed = s.loop.handed)
    (hconn : l'.conn = { s.loop.conn with
      nextKeepalive := s.now + fromSecs (keepalivePeriod s.loop.conn.hold) }) :
    Timed start (es ++ [.does (.keepalive s.now)]) ⟨l', s.now, none⟩ := by
  obtain ⟨t, ht⟩ := Option.isSome_iff_exists.mp hwriting
  obtain ⟨hpos, hdue, hle⟩ := h.writing t ht
  obtain ⟨hne, t₀, ht₀, -, hnext⟩ := h.opened hrun hopen
  -- a write takes no frame
  have hlast : l'.lastHeard start = s.loop.lastHeard start := by
    unfold Loop.lastHeard
    rw [hhanded]
  have hhold : l'.conn.hold = s.loop.conn.hold := by rw [hconn]
  refine ⟨?_, ?_, ?_, fun _ hpos => ?_, fun _ h₀ => ?_,
    fun _ _ => ⟨?_, s.now, ?_, le_rfl, ?_⟩, nofun⟩
  · rw [hlast]
    exact h.heard
  · rw [hlast, hhanded]
    exact h.before
  · rw [sent_keepalive hhanded, hhold]
    refine isChain_concat h.apart fun t' ht' => ?_
    -- the write began when the timer went off
    rw [Option.mem_def, ht₀] at ht'
    obtain rfl := Option.some.inj ht'
    exact hnext.symm.le.trans (hdue.trans hle)
  · rw [hlast, hhold, hconn]
    exact h.deadline hrun (hhold ▸ hpos)
  · rw [hconn] at h₀
    exact absurd h₀ (by simp [hopen])
  · rw [hhanded]
    exact hne
  · rw [sent_keepalive hhanded, List.getLast?_concat]
  · rw [hconn]

/-- **Every step keeps the loop timed.** -/
theorem Timed.step {config : Config} {start : ℕ} {es : List ClockEvent} {s s' : Clocked}
    {e : ClockEvent} (h : Timed start es s) (hstep : ClockStep config s e s') :
    Timed start (es ++ [e]) s' := by
  -- a step that writes no KEEPALIVE leaves the ones written as they are
  have hquiet : ∀ e, keepalivesOf [e] = [] → keepalivesOf (es ++ [e]) = keepalivesOf es :=
    fun e he => by rw [keepalivesOf_concat, he, List.append_nil]
  cases hstep with
  | @elapse time =>
    exact h.keep rfl rfl id (Nat.le_add_right _ _) rfl (hquiet (.elapse time) rfl)
  | due hrun hwriting hopen hpos hdue =>
    have hkeep : Timed start (es ++ [.due]) s := h.keep rfl rfl id le_rfl rfl (hquiet .due rfl)
    refine ⟨hkeep.heard, hkeep.before, hkeep.apart, hkeep.deadline, fun _ h₀ => ?_, hkeep.opened,
      fun t ht => ?_⟩
    · exact absurd h₀ (by simp [hopen])
    · obtain rfl := Option.some.inj ht
      exact ⟨hpos, hdue, le_rfl⟩
  | @does ev l hallows hdoes =>
    -- a step of the loop takes a frame, refuses one, writes, or leaves the timers alone
    cases hdoes.timers with
    | quiet hev hconn hhanded hended =>
      cases ev with
      | keepalive now => exact absurd rfl (hev now)
      | arrive | pull | header | frame | expire | lose =>
        exact h.keep hconn hhanded hended le_rfl rfl (hquiet (.does _) rfl)
    | taken hrun _ hhanded hok => exact h.taken hrun hallows.1 hallows.2 hhanded hok
    | refused hrun hended hconn hhanded => exact h.refused hrun hallows.2 hhanded hended hconn
    | keepalive hrun hended hopen hhanded hconn =>
      obtain ⟨hwriting, rfl⟩ := hallows
      exact h.keepalive hrun hwriting hopen hhanded hconn

theorem clocked_timed {config : Config} {start : ℕ} {es : List ClockEvent} {s : Clocked}
    (h : (clocked config start).Run (.start config start) es s) : Timed start es s := by
  induction h with
  | nil => exact timed_start config start
  | snoc _ hstep ih => exact ih.step hstep

/-- The clock makes no step that the loop could not make. -/
theorem clocked_done {config : Config} {start : ℕ} {es : List ClockEvent} {s : Clocked}
    (h : (clocked config start).Run (.start config start) es s) :
    (readLoop config start).Run (.start config start) (doneOf es) s.loop := by
  induction h with
  | nil => exact .nil
  | snoc _ hstep ih =>
    rw [doneOf_concat]
    cases hstep with
    | elapse | due =>
      rw [show doneOf [_] = [] from rfl, List.append_nil]
      exact ih
    | does _ hdoes => exact ih.snoc hdoes

/-- What the timers promise however late the loop is woken. -/
structure TimelyFacts (config : Config) (start : ℕ) (es : List ClockEvent) (s : Clocked) :
    Prop where
  /-- A session with a clock is one of the sessions without. -/
  done : (readLoop config start).Run (.start config start) (doneOf es) s.loop
  /-- The hold timer goes off for a peer only that has not been heard for the hold time. -/
  unheard : ∀ s', ClockStep config s (.does .expire) s' → 0 < s.loop.conn.hold ∧
    start + fromSecs s.loop.conn.hold ≤ s.now ∧
    ∀ a ∈ s.loop.handed, a.now + fromSecs s.loop.conn.hold ≤ s.now
  /-- The answer to the OPEN and the KEEPALIVEs are a period apart. -/
  apart : (s.sent es).IsChain (Apart s.loop.conn.hold)

/-- **Late wakings harm no peer.** -/
theorem clocked_timely {config : Config} {start : ℕ} {es : List ClockEvent} {s : Clocked}
    (h : (clocked config start).Run (.start config start) es s) :
    TimelyFacts config start es s := by
  have htimed := clocked_timed h
  refine ⟨clocked_done h, ?_, htimed.apart⟩
  -- of all steps it is the one that expires
  rintro s' (_ | _ | ⟨hallows, hdoes⟩)
  cases hdoes with
  | expire hrun hpos =>
    have hdue := hallows.2
    rw [htimed.deadline hrun hpos] at hdue
    refine ⟨hpos, ?_, fun a ha => ?_⟩
    · exact (Nat.add_le_add_right htimed.before.1 _).trans hdue
    · exact (Nat.add_le_add_right (htimed.before.2 a ha) _).trans hdue

/-! ### In time -/

/-- A write begins when a period has passed since the last one, and is done within the hold
time. -/
def Punctual (hold t t' : ℕ) : Prop :=
  t' ≤ t + fromSecs (keepalivePeriod hold) + fromSecs hold

/-- **How the timers stand** when the loop is woken in time. -/
structure InTime (es : List ClockEvent) (s : Clocked) : Prop where
  punctual : (s.sent es).IsChain (Punctual s.loop.conn.hold)
  /-- Between two writes; at the end of one the hold timer may be overdue. -/
  deadline : s.loop.ended = none → 0 < s.loop.conn.hold → s.writing = none →
    s.now ≤ s.loop.conn.deadline ∨ (s.sent es).getLast? = some s.now ∧
      s.loop.conn.nextKeepalive = s.now + fromSecs (keepalivePeriod s.loop.conn.hold) ∧
      s.now ≤ s.loop.conn.deadline + fromSecs s.loop.conn.hold
  next : s.loop.ended = none → 0 < s.loop.conn.hold → s.writing = none →
    s.loop.conn.receivedOpen = true → s.now ≤ s.loop.conn.nextKeepalive
  writing : ∀ t, s.writing = some t → s.loop.ended = none → t = s.loop.conn.nextKeepalive ∧
    t ≤ s.loop.conn.deadline ∧ s.now ≤ t + fromSecs s.loop.conn.hold

theorem inTime_start (config : Config) (now : ℕ) : InTime [] (.start config now) where
  punctual := .nil
  deadline := fun _ _ _ => .inl (Nat.le_add_right _ _)
  next := fun _ _ _ hopen => by cases hopen
  writing := nofun

/-- What changes neither the variables nor the frames, and takes no time. -/
theorem InTime.keep {es es' : List ClockEvent} {s s' : Clocked} (h : InTime es s)
    (hconn : s'.loop.conn = s.loop.conn) (hhanded : s'.loop.handed = s.loop.handed)
    (hended : s'.loop.ended = none → s.loop.ended = none) (hnow : s'.now = s.now)
    (hwriting : s'.writing = s.writing) (hsent : keepalivesOf es' = keepalivesOf es) :
    InTime es' s' := by
  have hall : s'.sent es' = s.sent es := sent_congr (by rw [hhanded]) hsent
  refine ⟨?_, ?_, ?_, ?_⟩
  · rw [hall, hconn]
    exact h.punctual
  · rw [hall, hconn, hnow, hwriting]
    exact fun he => h.deadline (hended he)
  · rw [hconn, hnow, hwriting]
    exact fun he => h.next (hended he)
  · rw [hconn, hnow, hwriting]
    exact fun t ht he => h.writing t ht (hended he)

/-- There is time between two KEEPALIVEs. -/
theorem fromSecs_period_pos (hold : ℕ) : 0 < fromSecs (keepalivePeriod hold) := by
  unfold fromSecs keepalivePeriod
  omega

/-- Time that goes on up to the next timer leaves nothing overdue. -/
theorem InTime.elapse {start : ℕ} {es : List ClockEvent} {s : Clocked} (h : InTime es s)
    (htimed : Timed start es s) {time : ℕ} (hprompt : Prompt s (.elapse time)) :
    InTime (es ++ [.elapse time]) { s with now := s.now + time } := by
  have hall : Clocked.sent { s with now := s.now + time } (es ++ [.elapse time]) = s.sent es :=
    sent_congr rfl (by rw [keepalivesOf_concat]; exact List.append_nil _)
  refine ⟨by rw [hall]; exact h.punctual, fun he hpos hw => .inl ?_, fun he hpos hw hopen => ?_,
    fun t ht he => ?_⟩
  · have hlimit := hprompt he hpos
    rw [show s.writing = none from hw] at hlimit
    exact hlimit.1
  · have hlimit := hprompt he hpos
    rw [show s.writing = none from hw] at hlimit
    exact hlimit.2 hopen
  · obtain ⟨hnext, hle, -⟩ := h.writing t ht he
    -- time does not pass beyond what is due
    have hlimit := hprompt he (htimed.writing t ht).1
    rw [show s.writing = some t from ht] at hlimit
    exact ⟨hnext, hle, hlimit⟩

/-- The KEEPALIVE timer goes off at its time, and the hold timer is not overdue then. -/
theorem InTime.due {es : List ClockEvent} {s : Clocked} (h : InTime es s)
    (hrun : s.loop.ended = none) (hwriting : s.writing = none)
    (hopen : s.loop.conn.receivedOpen = true) (hpos : 0 < s.loop.conn.hold)
    (hdue : s.loop.conn.nextKeepalive ≤ s.now) :
    InTime (es ++ [.due]) { s with writing := some s.now } := by
  have hall : Clocked.sent { s with writing := some s.now } (es ++ [.due]) = s.sent es :=
    sent_congr rfl (by rw [keepalivesOf_concat]; exact List.append_nil _)
  have hnow : s.now = s.loop.conn.nextKeepalive :=
    (h.next hrun hpos hwriting hopen).antisymm hdue
  refine ⟨by rw [hall]; exact h.punctual, fun _ _ hw => ?_, fun _ _ hw => ?_, fun t ht _ => ?_⟩
  · cases hw
  · cases hw
  · obtain rfl := Option.some.inj ht
    refine ⟨hnow, ?_, Nat.le_add_right _ _⟩
    obtain hle | ⟨-, hnext, -⟩ := h.deadline hrun hpos hwriting
    · exact hle
    · -- a write that has just ended sets the timer to a later time
      have hperiod := fromSecs_period_pos s.loop.conn.hold
      omega

/-- A frame that is refused ends the loop. -/
theorem InTime.refused {start : ℕ} {es : List ClockEvent} {s : Clocked} (h : InTime es s)
    (htimed : Timed start es s) (hrun : s.loop.ended = none) {a : Arrival} {l' : Loop}
    (hhanded : l'.handed = s.loop.handed ++ [a]) (hended : l'.ended ≠ none)
    (hconn : l'.conn = s.loop.conn) :
    InTime (es ++ [.does (.frame a.now)]) ⟨l', s.now, s.writing⟩ := by
  -- a refused OPEN begins the chain all the same
  obtain ⟨hfirst, hlater⟩ := htimed.sent_frame ⟨l', s.now, s.writing⟩ hrun hhanded
  refine ⟨?_, fun he => absurd he hended, fun he => absurd he hended,
    fun _ _ he => absurd he hended⟩
  rw [hconn]
  cases hopen : s.loop.conn.receivedOpen with
  | false =>
    rw [hfirst hopen]
    exact List.isChain_singleton _
  | true =>
    rw [hlater hopen]
    exact h.punctual

/-- A frame that is taken moves the deadline. -/
theorem InTime.taken {config : Config} {start : ℕ} {es : List ClockEvent} {s : Clocked}
    (h : InTime es s) (htimed : Timed start es s) (hrun : s.loop.ended = none)
    (hwriting : s.writing = none) {a : Arrival} {l' : Loop} {out : List Effect}
    (ha : a.now = s.now) (hhanded : l'.handed = s.loop.handed ++ [a])
    (hok : onFrame config s.loop.conn a = .ok (l'.conn, out)) :
    InTime (es ++ [.does (.frame a.now)]) ⟨l', s.now, s.writing⟩ := by
  -- the OPEN begins the chain of KEEPALIVEs, and a later frame leaves it as it is
  obtain ⟨hfirst, hlater⟩ := htimed.sent_frame ⟨l', s.now, s.writing⟩ hrun hhanded
  obtain ⟨-, hdeadline, hnext⟩ := onFrame_timers hok (htimed.established_opened hrun)
  refine ⟨?_, fun _ hpos _ => .inl ?_, fun _ hpos _ _ => ?_,
    fun t ht => absurd ht (by simp [hwriting])⟩
  · obtain ⟨hopen, -⟩ | ⟨hopen, hhold, -⟩ := hnext
    · rw [hfirst hopen]
      exact List.isChain_singleton _
    · rw [hlater hopen, hhold]
      exact h.punctual
  · rw [hdeadline hpos, ha]
    exact Nat.le_add_right _ _
  · obtain ⟨-, hn⟩ | ⟨hopen, hhold, hn⟩ := hnext
    · rw [hn, ha]
      exact Nat.le_add_right _ _
    · rw [hn]
      exact h.next hrun (hhold ▸ hpos) hwriting hopen

/-- A write that is done sets the timer anew. -/
theorem InTime.keepalive {start : ℕ} {es : List ClockEvent} {s : Clocked} (h : InTime es s)
    (htimed : Timed start es s) (hrun : s.loop.ended = none) (hwriting : s.writing.isSome)
    {l' : Loop} (hopen : s.loop.conn.receivedOpen = true)
    (hhanded : l'.handed = s.loop.handed) (hconn : l'.conn = { s.loop.conn with
      nextKeepalive := s.now + fromSecs (keepalivePeriod s.loop.conn.hold) }) :
    InTime (es ++ [.does (.keepalive s.now)]) ⟨l', s.now, none⟩ := by
  obtain ⟨t, ht⟩ := Option.isSome_iff_exists.mp hwriting
  obtain ⟨hbegan, hle, hnow⟩ := h.writing t ht hrun
  obtain ⟨-, t₀, ht₀, -, hnext⟩ := htimed.opened hrun hopen
  have hhold : l'.conn.hold = s.loop.conn.hold := by rw [hconn]
  refine ⟨?_, fun _ _ _ => .inr ⟨?_, ?_, ?_⟩, fun _ _ _ _ => ?_, nofun⟩
  · rw [sent_keepalive hhanded, hhold]
    refine isChain_concat h.punctual fun t' ht' => ?_
    rw [Option.mem_def, ht₀] at ht'
    obtain rfl := Option.some.inj ht'
    calc s.now ≤ t + fromSecs s.loop.conn.hold := hnow
      _ = _ := by rw [hbegan, hnext]
  · rw [sent_keepalive hhanded, List.getLast?_concat]
  · rw [hconn]
  · -- the hold timer went off during the write at the earliest
    rw [hconn]
    exact hnow.trans (Nat.add_le_add_right hle _)
  · rw [hconn]
    exact Nat.le_add_right _ _

/-- **Every prompt step keeps the loop in time.** -/
theorem InTime.step {config : Config} {start : ℕ} {es : List ClockEvent} {s s' : Clocked}
    {e : ClockEvent} (h : InTime es s) (htimed : Timed start es s) (hprompt : Prompt s e)
    (hstep : ClockStep config s e s') : InTime (es ++ [e]) s' := by
  -- by step of the clock
  cases hstep with
  | elapse => exact h.elapse htimed hprompt
  | due hrun hwriting hopen hpos hdue => exact h.due hrun hwriting hopen hpos hdue
  | @does ev l hallows hdoes =>
    cases hdoes.timers with
    | quiet hev hconn hhanded hended =>
      cases ev with
      | keepalive now => exact absurd rfl (hev now)
      | arrive | pull | header | frame | expire | lose =>
        refine h.keep hconn hhanded hended rfl rfl ?_
        rw [keepalivesOf_concat]
        exact List.append_nil _
    | taken hrun _ hhanded hok => exact h.taken htimed hrun hallows.1 hallows.2 hhanded hok
    | refused hrun hended hconn hhanded => exact h.refused htimed hrun hhanded hended hconn
    | keepalive hrun hended hopen hhanded hconn =>
      obtain ⟨hwriting, rfl⟩ := hallows
      exact h.keepalive htimed hrun hwriting hopen hhanded hconn

/-- The loop is in time in every prompt run. -/
theorem prompt_inTime {config : Config} {start : ℕ} {es : List ClockEvent} {s : Clocked}
    (h : ((clocked config start).restrict Prompt).Run (.start config start) es s) :
    InTime es s := by
  induction h with
  | nil => exact inTime_start config start
  | snoc hr hstep ih => exact ih.step (clocked_timed hr.of_restrict) hstep.1 hstep.2

/-- A step in which nobody else has a part. -/
def ClockEvent.Own : ClockEvent → Prop
  | .elapse time => 0 < time
  | .due => True
  | .does .expire => True
  | .does (.lose error) => error = "Keepalive write timed out"
  | .does _ => False

/-- What the timers promise when the loop is woken in time. -/
structure PromptFacts (config : Config) (start : ℕ) (es : List ClockEvent) (s : Clocked) :
    Prop where
  /-- A peer that is silent is given up within twice the hold time, -/
  silence : s.loop.ended = none → 0 < s.loop.conn.hold →
    s.now ≤ s.loop.lastHeard start + 2 * fromSecs s.loop.conn.hold
  /-- by the hold timer at its time, or at the end of the write that was under way then. -/
  expires : ∀ s', ClockStep config s (.does .expire) s' →
    s.now = s.loop.lastHeard start + fromSecs s.loop.conn.hold ∨
    s.loop.lastHeard start + fromSecs s.loop.conn.hold < s.now ∧
      (s.sent es).getLast? = some s.now
  /-- Each write begins one period after the last one was done, -/
  begins : ∀ s', ClockStep config s .due s' → ∃ t, (s.sent es).getLast? = some t ∧
    s.now = t + fromSecs (keepalivePeriod s.loop.conn.hold)
  /-- and is done within the hold time. -/
  punctual : (s.sent es).IsChain (Punctual s.loop.conn.hold)
  /-- Three periods make up a hold time at most. -/
  room : config.validate = .ok () → s.loop.ended = none → 0 < s.loop.conn.hold →
    3 * fromSecs (keepalivePeriod s.loop.conn.hold) ≤ fromSecs s.loop.conn.hold
  /-- No timer stops the clock: there is a step in time that waits for nobody. -/
  goesOn : s.loop.ended = none → 0 < s.loop.conn.hold →
    ∃ e s', e.Own ∧ Prompt s e ∧ ClockStep config s e s'

/-- Three periods fit in the hold time that has been negotiated. -/
theorem readLoop_period {config : Config} (hv : config.validate = .ok ()) {start : ℕ}
    {ls : List LoopEvent} {l : Loop}
    (h : (readLoop config start).Run (.start config start) ls l) (hrun : l.ended = none)
    (hpos : 0 < l.conn.hold) : 3 * keepalivePeriod l.conn.hold ≤ l.conn.hold := by
  obtain ⟨c, hc, htime⟩ := (readLoop_connected h).goesOn (by simp [hrun])
  obtain ⟨n, c', hfacts⟩ := connected_sessionFacts hv start l.handed
  have hhold : c.hold = l.conn.hold := show c.timeless.hold = l.conn.timeless.hold by rw [htime]
  -- the loop that still runs has taken every frame, so its connection is that of the facts
  have hn : n = l.handed.length := by
    refine hfacts.le.antisymm (Nat.le_of_not_lt fun hlt => ?_)
    obtain ⟨error, he⟩ := hfacts.fails hlt
    rw [hc] at he
    cases he
  have hc' := hfacts.continues hn
  rw [hc] at hc'
  rw [← hhold, Except.ok.inj hc']
  exact hfacts.period (by rw [← Except.ok.inj hc', hhold]; exact hpos.ne')

/-- A loop that waits can be let wait, unless a timer is due. -/
theorem Clocked.goes_on {config : Config} {s : Clocked} (hrun : s.loop.ended = none)
    (hpos : 0 < s.loop.conn.hold) : ∃ e s', e.Own ∧ Prompt s e ∧ ClockStep config s e s' := by
  have hwait : Prompt s (.elapse 1) → ∃ e s', e.Own ∧ Prompt s e ∧ ClockStep config s e s' :=
    fun h => ⟨.elapse 1, _, Nat.one_pos, h, .elapse⟩
  -- a write under way ends or times out
  cases hwriting : s.writing with
  | some t =>
    by_cases hlimit : t + fromSecs s.loop.conn.hold ≤ s.now
    · exact ⟨.does (.lose "Keepalive write timed out"), _, rfl, trivial,
        .does (fun _ => ⟨t, hwriting, hlimit⟩) (.lose hrun)⟩
    · refine hwait fun _ _ => ?_
      rw [hwriting]
      exact Nat.lt_of_not_le hlimit
  | none =>
    -- otherwise a timer is due, or time passes
    by_cases hexpired : s.loop.conn.deadline ≤ s.now
    · exact ⟨.does .expire, _, trivial, trivial, .does ⟨hwriting, hexpired⟩ (.expire hrun hpos)⟩
    by_cases hdue : s.loop.conn.receivedOpen = true ∧ s.loop.conn.nextKeepalive ≤ s.now
    · exact ⟨.due, _, trivial, trivial, .due hrun hwriting hdue.1 hpos hdue.2⟩
    · refine hwait fun _ _ => ?_
      rw [hwriting]
      exact ⟨Nat.lt_of_not_le hexpired, fun hopen => Nat.lt_of_not_le fun h => hdue ⟨hopen, h⟩⟩

/-- **Prompt wakings keep the times of the protocol.** -/
theorem prompt_timed {config : Config} {start : ℕ} {es : List ClockEvent} {s : Clocked}
    (h : ((clocked config start).restrict Prompt).Run (.start config start) es s) :
    PromptFacts config start es s := by
  have htimed := clocked_timed h.of_restrict
  have hin := prompt_inTime h
  refine ⟨fun hrun hpos => ?_, ?_, ?_, hin.punctual, fun hv hrun hpos => ?_, Clocked.goes_on⟩
  · -- a write under way bounds the time, and without one the deadline does
    have hdeadline := htimed.deadline hrun hpos
    cases hwriting : s.writing with
    | some t =>
      obtain ⟨-, hle, hnow⟩ := hin.writing t hwriting hrun
      omega
    | none =>
      obtain hle | ⟨-, -, hle⟩ := hin.deadline hrun hpos hwriting
      · omega
      · omega
  · rintro s' (_ | _ | ⟨⟨hwriting, hdue⟩, hdoes⟩)
    cases hdoes with
    | expire hrun hpos =>
      have hdeadline := htimed.deadline hrun hpos
      obtain hle | ⟨hlast, -⟩ := hin.deadline hrun hpos hwriting
      · exact .inl ((hle.antisymm hdue).trans hdeadline)
      · -- the timer went off at the very end of a write, or earlier
        obtain heq | hlt := Nat.eq_or_lt_of_le (hdeadline ▸ hdue)
        · exact .inl heq.symm
        · exact .inr ⟨hlt, hlast⟩
  · rintro s' (_ | ⟨hrun, hwriting, hopen, hpos, hdue⟩ | _)
    obtain ⟨-, t, ht, -, hnext⟩ := htimed.opened hrun hopen
    exact ⟨t, ht, ((hin.next hrun hpos hwriting hopen).antisymm hdue).trans hnext⟩
  · -- a period is a third of the hold time, and at least a second
    have hperiod := readLoop_period hv (clocked_done h.of_restrict) hrun hpos
    unfold fromSecs
    omega

/-! ### A session that expires -/

/-- A read takes no time. -/
theorem clocked_reads {config : Config} {start : ℕ} {l l' : Loop} {ls : List LoopEvent}
    (h : (readLoop config start).Run l ls l') (hreads : ∀ ev ∈ ls, ev.OfRead) (now : ℕ) :
    l.handed.length ≤ l'.handed.length ∧ (l'.handed.length = l.handed.length →
      ∃ es, keepalivesOf es = [] ∧ ((clocked config start).restrict Prompt).Run ⟨l, now, none⟩ es
        ⟨l', now, none⟩) := by
  induction h with
  | nil => exact ⟨le_rfl, fun _ => ⟨[], rfl, .nil⟩⟩
  | @snoc ls l₁ l₂ ev hr hstep ih =>
    obtain ⟨hle, hrun⟩ := ih fun ev hev => hreads ev (List.mem_append_left _ hev)
    have hread := hreads ev (by simp)
    -- reading takes no time, so the clock stands still in between
    have hdoes : l₂.handed = l₁.handed → Clocked.Allows ⟨l₁, now, none⟩ ev →
        (∀ now, ev ≠ .keepalive now) → l.handed.length ≤ l₂.handed.length ∧
          (l₂.handed.length = l.handed.length → ∃ es, keepalivesOf es = [] ∧
            ((clocked config start).restrict Prompt).Run ⟨l, now, none⟩ es ⟨l₂, now, none⟩) := by
      intro hsame hallows hkeep
      rw [hsame]
      refine ⟨hle, fun heq => ?_⟩
      obtain ⟨es, hnone, hrun'⟩ := hrun heq
      have hone := ClockStep.does (s := ⟨l₁, now, none⟩) hallows hstep
      refine ⟨es ++ [.does ev], ?_, ?_⟩
      · rw [keepalivesOf_concat, hnone]
        cases ev with
        | keepalive now => exact absurd rfl (hkeep now)
        | _ => rfl
      · cases ev with
        | keepalive now => exact absurd rfl (hkeep now)
        | _ => exact hrun'.snoc ⟨trivial, hone⟩
    cases hstep with
    | pullHeader | pullBody | header | badHeader => exact hdoes rfl rfl nofun
    | frame | refused =>
      -- a frame that is handed over cannot be taken back
      simp only [List.length_append, List.length_singleton]
      exact ⟨by omega, fun heq => by omega⟩
    | arrive | keepalive | expire | lose => exact absurd hread id

/-- The write of a KEEPALIVE can be done at any time. -/
theorem keepalive_step (config : Config) {l : Loop} (hrun : l.ended = none)
    (hopen : l.conn.receivedOpen = true) (hpos : 0 < l.conn.hold) (now : ℕ) :
    ∃ l', LoopStep config l (.keepalive now) l' ∧ l'.ended = none ∧ l'.conn = { l.conn with
      nextKeepalive := now + fromSecs (keepalivePeriod l.conn.hold) } := by
  have hstep : LoopStep config l (.keepalive now) _ := .keepalive hrun hopen hpos
  refine ⟨_, hstep, ?_⟩
  cases hstep.timers with
  | quiet hev => exact absurd rfl (hev now)
  | keepalive _ hended _ _ hconn => exact ⟨hended, hconn⟩

/-- A KEEPALIVE is written when its time comes, and the write takes some time. -/
theorem prompt_write (config : Config) (start : ℕ) {s : Clocked} (hrun : s.loop.ended = none)
    (hwriting : s.writing = none) (hopen : s.loop.conn.receivedOpen = true)
    (hpos : 0 < s.loop.conn.hold) (hnow : s.now ≤ s.loop.conn.nextKeepalive)
    (hnext : s.loop.conn.nextKeepalive ≤ s.loop.conn.deadline) (time : ℕ)
    (htime : time ≤ fromSecs s.loop.conn.hold) :
    ∃ es s', ((clocked config start).restrict Prompt).Run s es s' ∧
      keepalivesOf es = [s.loop.conn.nextKeepalive + time] ∧ s'.loop.ended = none ∧
      s'.writing = none ∧ s'.now = s.loop.conn.nextKeepalive + time ∧
      s'.loop.conn = { s.loop.conn with
        nextKeepalive := s.loop.conn.nextKeepalive + time +
          fromSecs (keepalivePeriod s.loop.conn.hold) } := by
  obtain ⟨l, now, writing⟩ := s
  obtain rfl : writing = none := hwriting
  have hto : now + (l.conn.nextKeepalive - now) = l.conn.nextKeepalive :=
    Nat.add_sub_of_le hnow
  -- the time comes
  have hwait : ((clocked config start).restrict Prompt).Run ⟨l, now, none⟩
      [.elapse (l.conn.nextKeepalive - now)] ⟨l, l.conn.nextKeepalive, none⟩ := by
    refine .single ⟨fun _ _ => ⟨hto.le.trans hnext, fun _ => hto.le⟩, ?_⟩
    have h : ClockStep config ⟨l, now, none⟩ (.elapse (l.conn.nextKeepalive - now)) _ := .elapse
    rwa [hto] at h
  -- the write begins and takes its time
  have hdue := hwait.snoc (l := ClockEvent.due) ⟨trivial, .due hrun rfl hopen hpos le_rfl⟩
  have hlimit : l.conn.nextKeepalive + time ≤ l.conn.nextKeepalive + fromSecs l.conn.hold :=
    Nat.add_le_add_left htime _
  have htook := hdue.snoc (l := ClockEvent.elapse time) ⟨fun _ _ => hlimit, .elapse⟩
  obtain ⟨l', hstep, hended, hconn⟩ :=
    keepalive_step config hrun hopen hpos (l.conn.nextKeepalive + time)
  have hdone := htook.snoc (l := ClockEvent.does (.keepalive (l.conn.nextKeepalive + time)))
    ⟨trivial, .does ⟨rfl, Eq.refl (l.conn.nextKeepalive + time)⟩ hstep⟩
  exact ⟨_, _, hdone, by simp [keepalivesOf], hended, rfl, by simp, hconn⟩

/-- A peer that sends its OPEN and nothing more: the hold timer of thirty seconds goes off
while the second KEEPALIVE is being written. -/
theorem exists_overdue : ∃ es s s',
    ((clocked sampleConfig 0).restrict Prompt).Run (.start sampleConfig 0) es s ∧
    keepalivesOf es = [fromSecs 10, fromSecs 35] ∧
    ClockStep sampleConfig s (.does .expire) s' := by
  let body := (Wire.buildOpen 65001 30 [192, 0, 2, 1]).drop 19
  have hbody : body.length ≤ 4077 := by decide
  let l := { Loop.start sampleConfig 0 with buffer := Wire.message 1 body }
  have harrive : ((clocked sampleConfig 0).restrict Prompt).Run (.start sampleConfig 0)
      [.does (.arrive (Wire.message 1 body))] ⟨l, 0, none⟩ :=
    .single ⟨trivial, .does trivial .arrive⟩
  obtain ⟨ls, hreads, hls⟩ := reads_message sampleConfig 0 (l := l)
    (show _ = none from rfl) (show _ = Reading.header [] from rfl) (by decide) hbody
    (show [] ++ Wire.message 1 body = Wire.message 1 body ++ [] by simp)
  obtain ⟨es, hes, hread⟩ := (clocked_reads hreads hls 0).2 rfl
  have hopen := (harrive.append hread).snoc (l := ClockEvent.does (.frame 0))
    ⟨trivial, .does ⟨rfl, rfl⟩ (.frame rfl rfl rfl sampleConn_open)⟩
  obtain ⟨es₀, s₀, hrun₀, hes₀, hended₀, hwriting₀, hnow₀, hconn₀⟩ : ∃ es s,
      ((clocked sampleConfig 0).restrict Prompt).Run (.start sampleConfig 0) es s ∧
      keepalivesOf es = [] ∧ s.loop.ended = none ∧ s.writing = none ∧ s.now = 0 ∧
      s.loop.conn = sampleConn := by
    refine ⟨_, _, hopen, ?_, rfl, rfl, rfl, rfl⟩
    rw [keepalivesOf_concat, keepalivesOf, List.filterMap_append, ← keepalivesOf, ← keepalivesOf,
      hes]
    rfl
  -- ten seconds later a KEEPALIVE, at once
  obtain ⟨es₁, s₁, hrun₁, hes₁, hended₁, hwriting₁, hnow₁, hconn₁⟩ :=
    prompt_write sampleConfig 0 hended₀ hwriting₀ (by rw [hconn₀]; rfl)
      (by rw [hconn₀]; decide) (by rw [hnow₀]; exact Nat.zero_le _)
      (by rw [hconn₀]; simp [sampleConn, fromSecs]) 0 (Nat.zero_le _)
  rw [hconn₀] at hes₁ hnow₁ hconn₁
  -- and ten seconds later another, in fifteen seconds
  obtain ⟨es₂, s₂, hrun₂, hes₂, hended₂, hwriting₂, hnow₂, hconn₂⟩ :=
    prompt_write sampleConfig 0 hended₁ hwriting₁ (by rw [hconn₁]; rfl)
      (by rw [hconn₁]; decide) (by rw [hconn₁, hnow₁]; exact Nat.le_add_right _ _)
      (by rw [hconn₁]; simp [sampleConn, fromSecs, keepalivePeriod])
      (fromSecs 15) (by rw [hconn₁]; simp [sampleConn, fromSecs])
  rw [hconn₁] at hes₂ hnow₂ hconn₂
  refine ⟨_, s₂, _, (hrun₀.append hrun₁).append hrun₂, ?_,
    .does ⟨hwriting₂, ?_⟩ (.expire hended₂ ?_)⟩
  · rw [keepalivesOf, List.filterMap_append, List.filterMap_append, ← keepalivesOf,
      ← keepalivesOf, ← keepalivesOf, hes₀, hes₁, hes₂]
    simp [sampleConn, fromSecs, keepalivePeriod]
  · rw [hconn₂, hnow₂]
    simp [sampleConn, fromSecs, keepalivePeriod]
  · rw [hconn₂]
    decide

/-- A peer that opens the session and is silent then: the hold timer goes off behind a write that
took too long. -/
theorem clocked_timely_overdue : ∃ es s s', keepalivesOf es = [fromSecs 10, fromSecs 35] ∧
    ClockStep sampleConfig s (.does .expire) s' ∧ TimelyFacts sampleConfig 0 es s := by
  obtain ⟨es, s, s', hrun, hes, hexpire⟩ := exists_overdue
  exact ⟨es, s, s', hes, hexpire, clocked_timely hrun.of_restrict⟩

theorem prompt_timed_overdue : ∃ es s s', keepalivesOf es = [fromSecs 10, fromSecs 35] ∧
    ClockStep sampleConfig s (.does .expire) s' ∧ PromptFacts sampleConfig 0 es s := by
  obtain ⟨es, s, s', hrun, hes, hexpire⟩ := exists_overdue
  exact ⟨es, s, s', hes, hexpire, prompt_timed hrun⟩

end Session
