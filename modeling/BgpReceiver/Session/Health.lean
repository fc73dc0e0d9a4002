import BgpReceiver.Session.Completion
import BgpReceiver.Session.Table

/-!
# The health of the session

`GET /health` answers from two fields of the data, whatever the tasks are doing at that
moment. The answer is nevertheless one about the peer: while it is `ok`, the last connection
has brought an OPEN that was accepted and a KEEPALIVE (`health_facts`). The running flag
adds nothing to the state, and a table that has a row is never reported as degraded.

The answer lags behind the peer in one place. When a connection is lost the state is that of
the connection until the teardown has come to the act that sets another; once nothing is left
to do, a task on no connection is reported as degraded.
-/

namespace Session

open Rib (Data SessionState)

/-- `health`: the status code and the body. -/
def health (d : Data) : ℕ × Json :=
  let ok := d.running && d.state = .established
  (if ok then 200 else 503,
    .object [("status", .str (if ok then "ok" else "degraded")), ("bgp_state", .str d.state.text)])

/-- When the endpoint answers that all is well. -/
theorem health_ok_iff (d : Data) :
    (health d).1 = 200 ↔ d.running = true ∧ d.state = .established := by
  simp only [health]
  split_ifs with h <;> simpa using h

/-- There are two answers. -/
theorem health_degraded {d : Data} (h : (health d).1 ≠ 200) : (health d).1 = 503 := by
  simp only [health] at h ⊢
  split_ifs at h ⊢ with hok
  · exact absurd rfl h
  · rfl

variable {digest : Bytes → Vector UInt8 20}

/-- An established label stays until the connection is left. -/
theorem Leads.established {sh sh' : Shape} {acts : List Act} (h : Leads sh acts sh')
    (hinner : ∀ a ∈ acts, a.Inner) (hhand : sh.inHand = true) (hlabel : sh.label = .established) :
    sh'.label = .established := by
  -- act by act: none of them may touch an established label
  induction acts generalizing sh with
  | nil =>
    rw [← show sh = sh' from h]
    exact hlabel
  | cons a acts ih =>
    have hrest := fun b hb => hinner b (List.mem_cons_of_mem _ hb)
    have ha := hinner a List.mem_cons_self
    cases a with
    | setState state => exact absurd hlabel (h.1.2 hhand).2
    | peerInfo | route | write => exact ih h.2 hrest hhand hlabel
    | disconnected | runEnded | stop | start => exact absurd ha (by simp [Act.Inner])

/-- The OPEN and a KEEPALIVE have been taken. -/
def Attended (config : Config) (w : List Frame) : Prop := Conforms config w ∧ 2 ≤ w.length

/-- A peer that has opened and kept alive is one whose session is established. -/
theorem Phase.attended {config : Config} {w : List Frame} {out : List Effect} {c : Conn}
    (h : Phase config w out c) : Attended config w ↔ c.label = .established := by
  have hconforms := h.conforms
  cases h with
  | start _ hr => exact ⟨fun ha => absurd ha.2 (by simp), fun hl => by simp [Conn.label, hr] at hl⟩
  | opened _ _ hr he =>
    exact ⟨fun ha => absurd ha.2 (by simp), fun hl => by simp [Conn.label, hr, he] at hl⟩
  | established _ _ _ _ hr he =>
    exact ⟨fun _ => by simp [Conn.label, hr, he], fun _ => ⟨hconforms, by simp⟩⟩

/-- A session on its connection with an established state. -/
theorem OnConnection.attended {ls : List Event} {w : World} {t : Task} {c : Conn}
    (h : OnConnection digest ls w t c) (hw : Inv w) (ht : w.session = some t)
    (hp : t.place = .session c) (hstate : w.data.state = .established) :
    w.data.running = true ∧ Attended t.config (frames (heard ls)) := by
  obtain ⟨sh, hs, hf⟩ := hw
  obtain ⟨⟨out, hphase⟩, -⟩ := h
  rw [ht] at hf
  obtain ⟨-, hleads, hsession⟩ := hf.of_session
  -- what is left to do on a connection is inner work
  have hinner := (hsession c hp).2
  rw [hp] at hleads
  have hshape := shape_of_session hleads hinner
  have hhand : sh.inHand = true := by rw [hshape]
  have hlabel : (Place.session c).shape.label = .established :=
    hleads.established hinner hhand (hs.label.symm.trans hstate)
  exact ⟨by rw [hs.running, hshape], hphase.attended.mpr hlabel⟩

/-- While the state is established, the session is running and its last connection has brought
an OPEN and a KEEPALIVE. -/
def Vouched (ls : List Event) (w : World) : Prop :=
  w.data.state = .established → w.data.running = true ∧
    ∃ t, w.session = some t ∧ Attended t.config (frames (heard ls))

/-- **Every step keeps the answer vouched for.** -/
theorem Vouched.step {ls : List Event} {w w' : World} {e : Event} (hw : Inv w) (hready : Ready w)
    (hw' : Inv w') (h : Vouched ls w) (htold : Told digest (ls ++ [e]) w')
    (hstep : Step digest w e w') : Vouched (ls ++ [e]) w' := by
  intro hstate
  -- a session on its connection vouches for itself
  by_cases hon : ∃ t c, w'.session = some t ∧ t.place = .session c
  · obtain ⟨t, c, ht, hp⟩ := hon
    obtain ⟨hrunning, hatt⟩ := (htold t c ht hp).attended hw' ht hp hstate
    exact ⟨hrunning, t, ht, hatt⟩
  -- and any other task has been established before
  have hkeep : ∀ t t', w.session = some t → w'.session = some t' → t'.config = t.config →
      heard (ls ++ [e]) = heard ls → w.data.state = .established →
      w'.data.running = w.data.running → w'.data.running = true ∧
        ∃ t, w'.session = some t ∧ Attended t.config (frames (heard (ls ++ [e]))) := by
    intro t t' ht ht' hc hheard hs hr
    obtain ⟨hrunning, t₁, ht₁, hatt⟩ := h hs
    rw [ht] at ht₁
    obtain rfl := Option.some.inj ht₁
    rw [hheard]
    exact ⟨hr.trans hrunning, t', ht', hc ▸ hatt⟩
  cases hstep with
  | free hfree hr =>
    obtain ⟨hst, hrun, -⟩ := free_frame hfree hr
    obtain ⟨hrunning, t, ht, hatt⟩ := h (hst.symm.trans hstate)
    exact ⟨hrun.trans hrunning, t, ht, by rwa [heard_concat]⟩
  | act ht htodo hdoes hr =>
    -- what is left to do off the connection sets no established state
    have houter := hready.outer _ ht (fun c hc => hon ⟨_, c, rfl, hc⟩) _
      (by rw [htodo]; exact List.mem_cons_self)
    cases hdoes with
    | disconnected =>
      obtain rfl := Option.some.inj hr
      exact hkeep _ _ ht rfl rfl (heard_concat _ _) hstate rfl
    | setState state =>
      obtain rfl := Option.some.inj hr
      obtain rfl : state = .established := hstate
      exact absurd houter id
    | runEnded =>
      obtain rfl := Option.some.inj hr
      cases hstate
    | peerInfo | route | stop | start => exact absurd houter id
  | wrote ht | turn ht | frameFails ht | connectionFails ht | retry _ ht | stoppedIdle ht
  | stoppedConnected ht =>
    exact hkeep _ _ ht rfl rfl (heard_concat _ _) hstate rfl
  | connect | frame | keepalive => exact absurd ⟨_, _, rfl, rfl⟩ hon
  | connectFails ht htodo hp =>
    -- the state of a task that waits for a connection is another one
    obtain ⟨sh, hs, hf⟩ := hw
    rw [ht] at hf
    have hleads := hf.of_session.2.1
    rw [htodo, hp] at hleads
    have hlabel := hs.label.symm.trans hstate
    rw [show sh = ⟨.connect, true, false⟩ from hleads] at hlabel
    cases hlabel
  | request r =>
    obtain ⟨hrunning, t, ht, hatt⟩ := h hstate
    exact ⟨hrunning, _, by rw [ht]; rfl, by rwa [heard_concat]⟩
  | flushFails | flushed | released =>
    obtain ⟨hrunning, t, ht, hatt⟩ := h hstate
    exact ⟨hrunning, t, ht, by rwa [heard_concat]⟩
  | joinedStop hreq hdone | joinedStart hreq hdone =>
    -- a session that has ended left the idle state behind
    obtain ⟨sh, hs, hf⟩ := hw
    rw [hreq] at hf
    have hlabel := hs.label.symm.trans hstate
    rw [hf.of_joined hdone] at hlabel
    cases hlabel
  | requestAct hreq hdoes hr =>
    obtain ⟨sh, hs, hf⟩ := hw
    rw [hreq] at hf
    have hnone := hf.of_acting.1
    have hact := hready.acting _ _ hreq
    cases hdoes with
    | stop =>
      obtain rfl := Option.some.inj hr
      cases hstate
    | start config =>
      obtain rfl := Option.some.inj hr
      obtain ⟨-, t, ht, -⟩ := h hstate
      exact absurd ht (by simp [hnone])
    | setState | peerInfo | route | disconnected | runEnded => simp at hact
  | spawned hreq =>
    obtain ⟨sh, hs, hf⟩ := hw
    rw [hreq] at hf
    obtain ⟨-, t, ht, -⟩ := h hstate
    exact absurd ht (by simp [hf.of_acting.1])

theorem lifecycle_vouched {output : Option String} {ls : List Event} {w : World}
    (h : (lifecycle digest).Run (World.new output) ls w) : Vouched ls w := by
  have hinit : (lifecycle digest).init (World.new output) := ⟨output, rfl⟩
  induction h with
  | nil => exact fun hstate => absurd hstate (by simp [World.new, Data.new])
  | snoc hr hstep ih =>
    have hreach : (lifecycle digest).Reachable _ := ⟨_, _, hinit, hr⟩
    exact ih.step (lifecycle_inv hreach) (lifecycle_ready hreach)
      (lifecycle_inv (hreach.step hstep)) (lifecycle_told (hr.snoc hstep)) hstep

/-- What an answer to `GET /health` is good for. -/
structure HealthFacts (ls : List Event) (w : World) : Prop where
  /-- The running flag adds nothing to the state. -/
  ok_iff : (health w.data).1 = 200 ↔ w.data.state = .established
  /-- A good answer is given for a session whose connection has brought an OPEN that was accepted
  and a KEEPALIVE. -/
  attended : (health w.data).1 = 200 →
    ∃ t, w.session = some t ∧ Attended t.config (frames (heard ls))
  /-- A session that waits for the next frame is reported as what it is. -/
  waiting : ∀ t c, w.session = some t → t.place = .session c → t.todo = [] →
    ((health w.data).1 = 200 ↔ 2 ≤ (heard ls).length)
  /-- A program with no session, or with one that is on no connection and has nothing left to
  do, is reported as degraded. -/
  apart : (∀ t, w.session = some t → t.todo = [] ∧ ∀ c, t.place ≠ .session c) →
    (health w.data).1 = 503
  /-- A table that has a row is not reported as degraded. -/
  rows : w.data.routes.values ≠ [] → (health w.data).1 = 200

end Session
