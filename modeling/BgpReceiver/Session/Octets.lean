import BgpReceiver.Framework.Product
import BgpReceiver.Session.Framing
import BgpReceiver.Session.Table

/-!
# From the octets of a connection to the store

The program of `lifecycle` and the read loop of the connection in hand, side by side. Octets
arrive in chunks at any moment; the loop reads while the session waits for a frame, and a
frame that the loop hands over is the one that the session takes. The end of the loop ends
the session, and a new connection starts the loop anew (`Joint`).

In every run the frames that the session has taken are those that the loop has handed over
(`Linked`). So when what has arrived on the connection is the encoding of some messages, all
of it has been read and nothing is left to do, the messages are a conversation of the
protocol and the store refines the table of their UPDATEs (`receiver_table`): however the
octets were cut into chunks, whatever the timers did, and whatever other tasks and requests
did in between.
-/

namespace Session

/-! ### The read loop of the connection in hand -/

/-- A read loop, with the configuration of its session. -/
structure Link where
  config : Config
  loop : Loop

/-- A new connection, or an event of the loop of the one in hand. -/
inductive LinkEvent where
  /-- a connection is taken in hand -/
  | opened (config : Config) (now : ℕ)
  | loop (ev : LoopEvent)

/-- A new connection has a new loop, with nothing read. -/
inductive LinkStep (k : Link) : LinkEvent → Link → Prop
  | opened {config : Config} {now : ℕ} :
      LinkStep k (.opened config now) ⟨config, .start config now⟩
  | loop {ev : LoopEvent} {l : Loop} : LoopStep k.config k.loop ev l →
      LinkStep k (.loop ev) ⟨k.config, l⟩

/-- The read loops of one connection after the other. -/
def link : System Link LinkEvent where
  init := fun k => ∃ config now, k = ⟨config, .start config now⟩
  step := LinkStep

/-- What the loop of the connection in hand has done, behind one more event. -/
def onward (ls : List LoopEvent) : LinkEvent → List LoopEvent
  | .opened _ _ => []
  | .loop ev => ls ++ [ev]

/-- The events of the loop of the connection in hand. -/
def since (ls : List LinkEvent) : List LoopEvent := ls.foldl onward []

/-- The events of the connection in hand, with one more. -/
theorem since_concat (ls : List LinkEvent) (e : LinkEvent) :
    since (ls ++ [e]) = onward (since ls) e := by
  rw [since, List.foldl_append]
  rfl

/-- The loop of the connection in hand has a run of its own. -/
theorem link_readLoop {k₀ k : Link} {ls : List LinkEvent} (h₀ : link.init k₀)
    (h : link.Run k₀ ls k) :
    ∃ now, (readLoop k.config now).Run (.start k.config now) (since ls) k.loop := by
  induction h with
  | nil =>
    obtain ⟨config, now, rfl⟩ := h₀
    exact ⟨now, .nil⟩
  | snoc _ hs ih =>
    rw [since_concat]
    cases hs with
    | opened => exact ⟨_, .nil⟩
    | loop hl =>
      obtain ⟨now, hr⟩ := ih
      exact ⟨now, hr.snoc hl⟩

/-! ### Side by side -/

/-- The events that the session and its read loop have in common. -/
def Event.OfLoop : Event → Prop
  | .connect _ | .frame _ | .frameFails _ | .keepalive _ | .connectionFails => True
  | _ => False

/-- Which steps go together. -/
inductive Joint (w : World) (k : Link) : Option Event → Option LinkEvent → Prop
  | connect {t : Task} {now : ℕ} : w.session = some t →
      Joint w k (some (.connect now)) (some (.opened t.config now))
  | arrive {octets : Bytes} : Joint w k none (some (.loop (.arrive octets)))
  /-- a read goes on while the session waits for a frame -/
  | pull {t : Task} {c : Conn} {n : ℕ} : w.session = some t → t.todo = [] → t.place = .session c →
      Joint w k none (some (.loop (.pull n)))
  | header {t : Task} {c : Conn} {got : Bytes} {r : UInt8 × ℕ} : w.session = some t →
      t.todo = [] → t.place = .session c → k.loop.reading = .header got → Wire.header got = .ok r →
      Joint w k none (some (.loop .header))
  /-- a frame is complete, and is matched -/
  | frame {a : Arrival} {len : ℕ} : k.loop.reading = .body a.frame.kind len a.frame.body →
      Joint w k (some (.frame a)) (some (.loop (.frame a.now)))
  | frameFails {a : Arrival} {len : ℕ} : k.loop.reading = .body a.frame.kind len a.frame.body →
      Joint w k (some (.frameFails a)) (some (.loop (.frame a.now)))
  | keepalive {now : ℕ} : Joint w k (some (.keepalive now)) (some (.loop (.keepalive now)))
  | badHeader {got : Bytes} {error : String} : k.loop.reading = .header got →
      Wire.header got = .error error → Joint w k (some .connectionFails) (some (.loop .header))
  | expire : Joint w k (some .connectionFails) (some (.loop .expire))
  | lose {error : String} : Joint w k (some .connectionFails) (some (.loop (.lose error)))
  /-- anything else is no matter of the loop -/
  | apart {e : Event} : ¬ e.OfLoop → Joint w k (some e) none

/-- **The program and the octets of its connections.** -/
def receiver (digest : Bytes → Vector UInt8 20) :
    System (World × Link) (Option Event × Option LinkEvent) :=
  (lifecycle digest).product link Joint

/-- The octets that have arrived on the connection in hand. -/
def received (ls : List (Option Event × Option LinkEvent)) : Bytes :=
  arrivedOf (since (System.rights ls))

/-- The frames that have been taken on the connection in hand. -/
def taken (ls : List (Option Event × Option LinkEvent)) : List Frame :=
  frames (heard (System.lefts ls))

/-- The session and the loop go hand in hand. -/
def Linked (ls : List Event) (w : World) (k : Link) : Prop :=
  ∀ t c, w.session = some t → t.place = .session c →
    k.config = t.config ∧ k.loop.conn = c ∧ k.loop.handed = heard ls ∧ k.loop.ended = none

variable {digest : Bytes → Vector UInt8 20}

/-- A step that is no matter of the loop leaves a session that is on its connection where it
was. -/
theorem step_apart {w w' : World} {e : Event} (hw : Inv w) (h : Step digest w e w')
    (he : ¬ e.OfLoop) {t' : Task} {c : Conn} (ht' : w'.session = some t')
    (hp' : t'.place = .session c) :
    (∃ t, w.session = some t ∧ t.place = .session c ∧ t.config = t'.config) ∧
      ∀ ls, heard (ls ++ [e]) = heard ls := by
  obtain ⟨sh, -, hf⟩ := hw
  -- a step that neither opens a connection nor hands it a frame leaves the one heard as it is
  cases h with
  | free => exact ⟨⟨t', ht', hp', rfl⟩, fun ls => heard_concat _ _⟩
  | act ht | wrote ht =>
    obtain rfl := Option.some.inj ht'
    exact ⟨⟨_, ht, hp', rfl⟩, fun ls => heard_concat _ _⟩
  | request =>
    obtain ⟨t, ht, rfl⟩ := Option.map_eq_some_iff.mp ht'
    exact ⟨⟨t, ht, hp', rfl⟩, fun ls => heard_concat _ _⟩
  | flushFails | flushed | released => exact ⟨⟨t', ht', hp', rfl⟩, fun ls => heard_concat _ _⟩
  | requestAct hreq =>
    rw [hreq] at hf
    have hnone := hf.of_acting.1
    exact absurd ht' (by simp [World.after, hnone])
  | joinedStop | joinedStart => exact absurd ht' (by simp)
  | turn | connectFails | retry | stoppedIdle | stoppedConnected | spawned =>
    obtain rfl := Option.some.inj ht'
    exact absurd hp' (by simp)
  | connect | frame | frameFails | keepalive | connectionFails => exact absurd trivial he

/-- What the loop does by itself. -/
theorem LoopStep.alone {config : Config} {l l' : Loop} {ev : LoopEvent}
    (h : LoopStep config l ev l') (hev : ∀ now, ev ≠ .frame now)
    (hended : l'.ended = none) (hk : ∀ now, ev ≠ .keepalive now) :
    l'.conn = l.conn ∧ l'.handed = l.handed := by
  cases h with
  | arrive | pullHeader | pullBody | header => exact ⟨rfl, rfl⟩
  | frame | refused => exact absurd rfl (hev _)
  | keepalive => exact absurd rfl (hk _)
  | badHeader | expire | lose => exact absurd hended (by simp)

/-- The frame that the loop hands over is the one that the session takes. -/
theorem LoopStep.taken {config : Config} {l l' : Loop} {a : Arrival} {len : ℕ} {c' : Conn}
    {out : List Effect} (h : LoopStep config l (.frame a.now) l')
    (hreading : l.reading = .body a.frame.kind len a.frame.body)
    (ha : onFrame config l.conn a = .ok (c', out)) :
    l'.conn = c' ∧ l'.handed = l.handed ++ [a] ∧ l'.ended = l.ended := by
  cases h with
  | frame _ hreading' _ ha' =>
    rw [hreading] at hreading'
    obtain ⟨rfl, rfl, rfl⟩ := Reading.body.inj hreading'
    obtain ⟨rfl, -⟩ := Prod.mk.inj (Except.ok.inj (ha.symm.trans ha'))
    exact ⟨rfl, rfl, rfl⟩
  | refused _ hreading' _ herror =>
    -- what the loop refuses the session does not take
    rw [hreading] at hreading'
    obtain ⟨rfl, rfl, rfl⟩ := Reading.body.inj hreading'
    cases ha.symm.trans herror

/-- A read that is complete and good does not end the loop. -/
theorem LoopStep.goes {config : Config} {l l' : Loop} {ev : LoopEvent}
    (h : LoopStep config l ev l')
    (hev : (∃ octets, ev = .arrive octets) ∨ (∃ n, ev = .pull n) ∨
      ev = .header ∧ ∃ got r, l.reading = .header got ∧ Wire.header got = .ok r) :
    l'.ended = l.ended := by
  cases h with
  | arrive | pullHeader | pullBody | header => rfl
  | badHeader _ hreading _ herror =>
    obtain ⟨got, r, hgot, hok⟩ := (hev.resolve_left (by simp)).resolve_left (by simp) |>.2
    rw [hreading] at hgot
    obtain rfl := Reading.header.inj hgot
    cases hok.symm.trans herror
  | frame | refused | keepalive | expire | lose => simp at hev

/-- A KEEPALIVE is written by both. -/
theorem LoopStep.kept {config : Config} {l l' : Loop} {now : ℕ}
    (h : LoopStep config l (.keepalive now) l') :
    l'.conn = { l.conn with nextKeepalive := now + fromSecs (keepalivePeriod l.conn.hold) } ∧
      l'.handed = l.handed ∧ l'.ended = l.ended := by
  cases h with
  | keepalive => exact ⟨rfl, rfl, rfl⟩

/-- The loop reads on by itself. -/
theorem Linked.reads {ls : List Event} {w : World} {k k' : Link} {ev : LoopEvent}
    (h : Linked ls w k) (hstep : LinkStep k (.loop ev) k')
    (hev : (∃ octets, ev = .arrive octets) ∨ (∃ n, ev = .pull n) ∨
      ev = .header ∧ ∃ got r, k.loop.reading = .header got ∧ Wire.header got = .ok r) :
    Linked ls w k' := by
  intro t c ht hp
  obtain ⟨hconfig, hconn, hhanded, hended⟩ := h t c ht hp
  cases hstep with
  | loop hl =>
    have hgoes := (hl.goes hev).trans hended
    have halone := hl.alone (fun now hne => by simp [hne] at hev) hgoes
      (fun now hne => by simp [hne] at hev)
    exact ⟨hconfig, halone.1.trans hconn, halone.2.trans hhanded, hgoes⟩

/-- **Every step keeps them together.** -/
theorem Linked.step {ls : List Event} {w w' : World} {k k' : Link}
    {e : Option Event} {f : Option LinkEvent} (hw : Inv w) (h : Linked ls w k)
    (hj : Joint w k e f) (he : (lifecycle digest).Moves w e w') (hf : link.Moves k f k') :
    Linked (ls ++ e.toList) w' k' := by
  -- by joint step: of the loop alone, of the world alone, or of both
  cases hj with
  | arrive =>
    obtain rfl : w' = w := he
    rw [Option.toList_none, List.append_nil]
    exact h.reads hf (Or.inl ⟨_, rfl⟩)
  | pull =>
    obtain rfl : w' = w := he
    rw [Option.toList_none, List.append_nil]
    exact h.reads hf (Or.inr (Or.inl ⟨_, rfl⟩))
  | header _ _ _ hreading hok =>
    obtain rfl : w' = w := he
    rw [Option.toList_none, List.append_nil]
    exact h.reads hf (Or.inr (Or.inr ⟨rfl, _, _, hreading, hok⟩))
  | apart hapart =>
    obtain rfl : k' = k := hf
    intro t' c' ht' hp'
    obtain ⟨⟨t, ht, hp, hconfig⟩, hheard⟩ := step_apart hw he hapart ht' hp'
    obtain ⟨h₁, h₂, h₃, h₄⟩ := h t c' ht hp
    exact ⟨h₁.trans hconfig, h₂, h₃.trans (hheard ls).symm, h₄⟩
  | @connect t now ht =>
    -- a connection is opened on both sides at once
    cases he with
    | connect _ o ht₀ _ _ =>
      cases hf with
      | opened =>
        intro t' c' ht' hp'
        obtain rfl := Option.some.inj ht'
        obtain rfl := Place.session.inj hp'
        rw [ht] at ht₀
        obtain rfl := Option.some.inj ht₀
        exact ⟨rfl, rfl, (heard_concat ls (.connect now)).symm, rfl⟩
  | @frame a len hreading =>
    cases he with
    | frame o ht _ hp ha =>
      cases hf with
      | loop hl =>
        intro t' c' ht' hp'
        obtain rfl := Option.some.inj ht'
        obtain rfl := Place.session.inj hp'
        obtain ⟨hconfig, hconn, hhanded, hended⟩ := h _ _ ht hp
        rw [← hconfig, ← hconn] at ha
        -- the loop hands over what the world takes
        obtain ⟨hconn', hhanded', hended'⟩ := hl.taken hreading ha
        refine ⟨hconfig, hconn', ?_, hended'.trans hended⟩
        show _ = heard (ls ++ [.frame a])
        rw [hhanded', heard_concat, hhanded]
        rfl
  | @keepalive now =>
    cases he with
    | keepalive _ ht _ hp =>
      cases hf with
      | loop hl =>
        intro t' c' ht' hp'
        obtain rfl := Option.some.inj ht'
        obtain rfl := Place.session.inj hp'
        obtain ⟨hconfig, hconn, hhanded, hended⟩ := h _ _ ht hp
        obtain ⟨hconn', hhanded', hended'⟩ := hl.kept
        rw [hconn] at hconn'
        refine ⟨hconfig, hconn', ?_, hended'.trans hended⟩
        show _ = heard (ls ++ [.keepalive now])
        rw [hhanded', heard_concat, hhanded]
        rfl
  | frameFails =>
    -- the session leaves its connection
    cases he with
    | frameFails =>
      intro t' c' ht' hp'
      obtain rfl := Option.some.inj ht'
      exact absurd hp' (by simp)
  | badHeader | expire | lose =>
    cases he with
    | connectionFails =>
      intro t' c' ht' hp'
      obtain rfl := Option.some.inj ht'
      exact absurd hp' (by simp)

/-- The program and its read loop agree in every run. -/
theorem receiver_inv {p₀ p : World × Link} {ls : List (Option Event × Option LinkEvent)}
    (h₀ : (receiver digest).init p₀) (h : (receiver digest).Run p₀ ls p) :
    Inv p.1 ∧ Linked (System.lefts ls) p.1 p.2 := by
  refine ⟨lifecycle_inv ⟨p₀.1, _, h₀.1, h.left⟩, ?_⟩
  induction h with
  | nil =>
    obtain ⟨output, hw⟩ := h₀.1
    intro t c ht
    rw [hw] at ht
    exact absurd ht (by simp [World.new])
  | snoc hr hs ih =>
    rw [System.lefts_concat]
    exact ih.step (lifecycle_inv ⟨p₀.1, _, h₀.1, hr.left⟩) hs.1 hs.2.1 hs.2.2

/-! ### What has arrived, and what is in the store -/

/-- The UPDATEs among the first of some messages are UPDATEs among the messages. -/
theorem decodedOf_mono {w ms : List Frame} (h : w <+: ms) {u : Json}
    (hu : u ∈ decodedOf w) : u ∈ decodedOf ms := by
  obtain ⟨more, rfl⟩ := h
  unfold decodedOf at hu ⊢
  obtain ⟨f, hf, rfl⟩ := List.mem_map.mp hu
  rw [List.mem_filter] at hf
  refine List.mem_map.mpr ⟨f, List.mem_filter.mpr ⟨List.mem_append_left _ hf.1, hf.2⟩, ?_⟩
  -- both begin with the same OPEN
  cases w with
  | nil => exact absurd hf.1 List.not_mem_nil
  | cons g w => rfl

/-- What has become of the messages that arrive on the connection in hand. -/
structure ReceiverFacts (config : Config) (ms : List Frame)
    (ls : List (Option Event × Option LinkEvent)) (d : Rib.Data) (settled : Prop) : Prop where
  /-- The frames that the session has taken are the first of the messages. -/
  inOrder : taken ls <+: ms
  conforms : Conforms config (taken ls)
  /-- Every key shows the table before the last UPDATE that was taken, or the one behind it. -/
  between : ∀ k,
    (Rib.rowsOf d k).map Rib.Route.content
        = (Rib.tableOf config.peerIp.text (decodedOf (taken ls)).dropLast k).toList ∨
      (Rib.rowsOf d k).map Rib.Route.content
        = (Rib.tableOf config.peerIp.text (decodedOf (taken ls)) k).toList
  /-- When all messages have arrived and there is nothing left to do, they are a conversation
  of the protocol, and the store refines the table of their UPDATEs. -/
  settled : received ls = encode ms → settled → Conforms config ms ∧
    Rib.Refines d (Rib.tableOf config.peerIp.text (decodedOf ms))

/-- The run of the program alone tells what its session has taken. -/
theorem receiver_told {p₀ : World × Link} {ls : List (Option Event × Option LinkEvent)}
    {p : World × Link} (h₀ : (receiver digest).init p₀) (h : (receiver digest).Run p₀ ls p) :
    Told digest (System.lefts ls) p.1 := by
  obtain ⟨output, hw₀⟩ := h₀.1
  have hrun := h.left
  rw [hw₀] at hrun
  exact lifecycle_told hrun

section

variable {ms : List Frame} (hms : ∀ m ∈ ms, m.body.length ≤ 4077)
  {p₀ : World × Link} {ls : List (Option Event × Option LinkEvent)} {w : World} {k : Link}
  (h₀ : (receiver digest).init p₀) (h : (receiver digest).Run p₀ ls (w, k)) {t : Task} {c : Conn}
  (ht : w.session = some t) (hp : t.place = .session c)

include h₀ h ht hp

/-- The loop of the connection in hand, with the frames that the session has taken. -/
theorem receiver_read : Read k.config (since (System.rights ls)) k.loop ∧
    k.loop.frames = taken ls := by
  obtain ⟨-, hlinked⟩ := receiver_inv h₀ h
  obtain ⟨-, -, hhanded, -⟩ := hlinked t c ht hp
  obtain ⟨now, hloop⟩ := link_readLoop h₀.2 h.right
  exact ⟨readLoop_read hloop, congrArg frames hhanded⟩

include hms

/-- **What has been taken is the beginning** of what was sent. -/
theorem taken_prefix (hreceived : received ls <+: encode ms) : taken ls <+: ms := by
  obtain ⟨hread, hframes⟩ := receiver_read h₀ h ht hp
  have hoctets := hread.octets
  obtain ⟨later, hlater⟩ := hreceived
  rw [received, hoctets, ← List.append_nil (encode ms), encode_eq ms, encode_eq, List.append_assoc,
    List.append_assoc] at hlater
  obtain ⟨rest, hrest, -⟩ := Framing.prefix_of_append (fits_of hread.fits) (fits_of hms)
    (Framing.stops_nil (by decide)) hlater
  rw [← hframes]
  exact frames_prefix hrest

/-- A loop that waits has no message in hand. -/
theorem taken_all (hreceived : received ls = encode ms) (hwait : k.loop.Waiting k.config) :
    taken ls = ms := by
  obtain ⟨hread, hframes⟩ := receiver_read h₀ h ht hp
  have hoctets := hread.octets
  obtain ⟨hbuffer, hshort⟩ := hread.short hwait
  rw [show arrivedOf (since (System.rights ls)) = encode ms from hreceived, hbuffer,
    List.append_nil, ← List.append_nil (encode ms), encode_eq ms, encode_eq] at hoctets
  obtain ⟨hsame, -⟩ := Framing.eq_of_append (fits_of hread.fits) (fits_of hms)
    (Framing.stops_nil (by decide)) hoctets.symm (hshort.not_prefix hread.partway)
  rw [← hframes]
  exact pairs_injective.list_map hsame

end

/-- The steps that need nothing from outside: reading what has arrived, matching a frame, and the
acts and writes of the session. -/
def Own : Option Event × Option LinkEvent → Prop
  | (none, some (.loop ev)) => ev.OfRead
  | (some (.act _), none) | (some .wrote, none) => True
  | (some (.frame _), some (.loop ev)) | (some (.frameFails _), some (.loop ev))
  | (some .connectionFails, some (.loop ev)) => ev.OfRead
  | _ => False

/-- A step of the program's own brings no octets. -/
theorem received_own {ls : List (Option Event × Option LinkEvent)}
    {l : Option Event × Option LinkEvent} (h : Own l) : received (ls ++ [l]) = received ls := by
  unfold received
  rw [System.rights_concat]
  obtain ⟨e, f⟩ := l
  -- the program's own steps take octets from what has arrived, and bring none in
  cases f with
  | none => rw [Option.toList_none, List.append_nil]
  | some f =>
    rw [Option.toList_some, since_concat]
    cases f with
    | opened config now =>
      cases e with
      | none => exact absurd h id
      | some e => cases e <;> exact absurd h id
    | loop ev =>
      have hread : ev.OfRead := by
        cases e with
        | none => exact h
        | some e => cases e <;> first | exact h | exact absurd h id
      have hnil : arrivedOf [ev] = [] := arrivedOf_reads (List.forall_mem_singleton.mpr hread)
      show arrivedOf (since _ ++ [ev]) = _
      rw [arrivedOf_append, hnil, List.append_nil]

/-- How far a session gets by itself: it waits for octets with nothing left to do, or what it
has read ends it. -/
def Through (w : World) (k : Link) (config : Config) : Prop :=
  k.config = config ∧ ((∃ t c, w.session = some t ∧ t.config = config ∧ t.place = .session c ∧
      t.todo = [] ∧ k.loop.Waiting k.config) ∨
    (∃ error, k.loop.ended = some (.badHeader error)) ∨
    ∃ error, k.loop.ended = some (.refused error))

/-- One more act of a session on its connection. -/
theorem exists_act {w : World} (hw : Inv w) {t : Task} {c : Conn} (ht : w.session = some t)
    (hp : t.place = .session c) {a : Act} {rest : List Act} (htodo : t.todo = a :: rest) :
    ∃ e w', (e = .wrote ∨ ∃ s, e = .act s) ∧ Step digest w e w' ∧
      w'.session = some { t with todo := rest } := by
  obtain ⟨sh, hs, hf⟩ := hw
  have hcons := Rib.sections_consistent hs.reachable
  rw [ht] at hf
  have hinner := (hf.of_session.2.2 c hp).2 a (by rw [htodo]; exact List.mem_cons_self)
  -- an act that is a section of the data can be done in every consistent store
  have hact : ∀ s, a.Does s → ∃ e w', (e = .wrote ∨ ∃ s, e = .act s) ∧ Step digest w e w' ∧
      w'.session = some { t with todo := rest } := by
    intro s hdoes
    obtain ⟨d, hr, -⟩ := s.run_consistent hcons
    exact ⟨_, _, Or.inr ⟨s, rfl⟩, .act ht htodo hdoes hr, rfl⟩
  cases a with
  | write => exact ⟨_, _, Or.inl rfl, .wrote ht htodo, rfl⟩
  | setState state => exact hact _ (.setState state)
  | peerInfo info => exact hact _ (.peerInfo info)
  | route op => exact hact _ (.route op 0)
  | disconnected | runEnded | stop | start => exact absurd hinner (by simp [Act.Inner])

/-- **One more read**, and what follows from it. -/
theorem exists_read {ls : List Event} {w : World} {k : Link} (hlinked : Linked ls w k) {t : Task}
    {c : Conn} (ht : w.session = some t) (hp : t.place = .session c) (htodo : t.todo = [])
    (hwait : ¬ k.loop.Waiting k.config) (o : Rib.Outside) :
    ∃ l w' k', Own l ∧ (receiver digest).step (w, k) l (w', k') ∧
      ((w' = w ∧ k'.loop.work < k.loop.work) ∨
        (∃ t' c', w'.session = some t' ∧ t'.config = t.config ∧ t'.place = .session c' ∧
          k'.loop.work < k.loop.work) ∨ Through w' k' t.config) := by
  obtain ⟨hconfig, hconn, -, hended⟩ := hlinked t c ht hp
  -- the loop is not waiting, so it has a step to take
  obtain ⟨ev, l', hev, hstep⟩ : ∃ ev l', ev.OfRead ∧ LoopStep k.config k.loop ev l' := by
    by_contra hnone
    push Not at hnone
    exact hwait ⟨hended, fun ev l' hev => hnone ev l' hev⟩
  have hwork := work_decreases hev hstep
  have hlink : link.step k (.loop ev) ⟨k.config, l'⟩ := .loop hstep
  cases hstep with
  | pullHeader _ hreading hn hle hlen =>
    exact ⟨(none, some (.loop (.pull _))), w, _, trivial,
      ⟨.pull ht htodo hp, Eq.refl w, hlink⟩,
      Or.inl ⟨rfl, hwork.resolve_right fun h => h hended⟩⟩
  | pullBody _ hreading hn hle hlen =>
    exact ⟨(none, some (.loop (.pull _))), w, _, trivial,
      ⟨.pull ht htodo hp, Eq.refl w, hlink⟩,
      Or.inl ⟨rfl, hwork.resolve_right fun h => h hended⟩⟩
  | header _ hreading hlen hok =>
    exact ⟨(none, some (.loop .header)), w, _, trivial,
      ⟨.header ht htodo hp hreading hok, Eq.refl w, hlink⟩,
      Or.inl ⟨rfl, hwork.resolve_right fun h => h hended⟩⟩
  | @badHeader got error _ hreading hlen herror =>
    -- the connection is given up
    exact ⟨(some .connectionFails, some (.loop .header)), _, _, trivial,
      ⟨.badHeader hreading herror, .connectionFails ht (Or.inl htodo) hp, hlink⟩,
      Or.inr (Or.inr ⟨hconfig, Or.inr (Or.inl ⟨error, rfl⟩)⟩)⟩
  | @frame kind len got now conn out _ hreading hlen ha =>
    -- the loop and the world see the frame with one connection
    have ha' : onFrame t.config c ⟨now, kind, got⟩ = .ok (conn, out) := by
      rw [← hconfig, ← hconn]
      exact ha
    exact ⟨(some (.frame ⟨now, kind, got⟩), some (.loop (.frame now))), _, _, trivial,
      ⟨.frame (a := ⟨now, kind, got⟩) hreading, .frame o ht htodo hp ha', hlink⟩,
      Or.inr (Or.inl ⟨_, _, rfl, rfl, rfl, hwork.resolve_right fun h => h hended⟩)⟩
  | @refused kind len got now error _ hreading hlen herror =>
    have herror' : onFrame t.config c ⟨now, kind, got⟩ = .error error := by
      rw [← hconfig, ← hconn]
      exact herror
    exact ⟨(some (.frameFails ⟨now, kind, got⟩), some (.loop (.frame now))), _, _,
      trivial, ⟨.frameFails (a := ⟨now, kind, got⟩) hreading, .frameFails ht htodo hp herror',
        hlink⟩,
      Or.inr (Or.inr ⟨hconfig, Or.inr (Or.inr ⟨error, rfl⟩)⟩)⟩
  | arrive | keepalive | expire | lose => exact absurd hev id

/-- The acts that are left are done, one after the other. -/
theorem acts_done {p₀ : World × Link} {ls : List (Option Event × Option LinkEvent)}
    {w : World} {k : Link} (h₀ : (receiver digest).init p₀)
    (h : (receiver digest).Run p₀ ls (w, k)) {t : Task} {c : Conn} (ht : w.session = some t)
    (hp : t.place = .session c) :
    ∃ ls' w', (receiver digest).Run (w, k) ls' (w', k) ∧ (∀ l ∈ ls', Own l) ∧
      w'.session = some { t with todo := [] } := by
  obtain ⟨config, stopSent, place, todo⟩ := t
  induction todo generalizing ls w with
  | nil => exact ⟨[], w, .nil, fun _ hl => absurd hl List.not_mem_nil, ht⟩
  | cons a rest ih =>
    obtain ⟨hinv, -⟩ := receiver_inv h₀ h
    obtain ⟨e, w₁, he, hstep, ht₁⟩ := @exists_act digest w hinv _ _ ht hp _ _ rfl
    have hown : Own (some e, none) := by rcases he with rfl | ⟨s, rfl⟩ <;> trivial
    have hapart : ¬ e.OfLoop := by rcases he with rfl | ⟨s, rfl⟩ <;> exact id
    have hs : (receiver digest).step (w, k) (some e, none) (w₁, k) :=
      ⟨.apart hapart, hstep, Eq.refl k⟩
    obtain ⟨ls', w', hr, hls, ht'⟩ := ih (h.snoc hs) ht₁ hp
    exact ⟨[(some e, none)] ++ ls', w', (System.Run.single hs).append hr,
      List.forall_mem_cons.mpr ⟨hown, hls⟩, ht'⟩

theorem received_owns {ls ls' : List (Option Event × Option LinkEvent)} (h : ∀ l ∈ ls', Own l) :
    received (ls ++ ls') = received ls := by
  induction ls' using List.reverseRecOn with
  | nil => rw [List.append_nil]
  | append_singleton ls' l ih =>
    rw [← List.append_assoc, received_own (h l (by simp)),
      ih fun l' hl' => h l' (List.mem_append_left _ hl')]

/-- **The session gets through** by steps of the program's own. -/
theorem exists_through {p₀ : World × Link} {ls : List (Option Event × Option LinkEvent)}
    {w : World} {k : Link} (h₀ : (receiver digest).init p₀)
    (h : (receiver digest).Run p₀ ls (w, k)) {t : Task} {c : Conn} (ht : w.session = some t)
    (hp : t.place = .session c) (o : Rib.Outside) :
    ∃ ls' w' k', (receiver digest).Run (w, k) ls' (w', k') ∧ (∀ l ∈ ls', Own l) ∧
      Through w' k' t.config := by
  -- every read leaves less to be read
  induction hn : k.loop.work using Nat.strong_induction_on generalizing ls w k t c with
  | _ n ih =>
    obtain ⟨ls₁, w₁, hr₁, hls₁, ht₁⟩ := acts_done h₀ h ht hp
    have h₁ := h.append hr₁
    obtain ⟨-, hlinked⟩ := receiver_inv h₀ h₁
    by_cases hwait : k.loop.Waiting k.config
    · exact ⟨ls₁, w₁, k, hr₁, hls₁, (hlinked _ c ht₁ hp).1,
        Or.inl ⟨_, c, ht₁, rfl, hp, rfl, hwait⟩⟩
    · obtain ⟨l, w₂, k₂, hown, hs, hcases⟩ := @exists_read digest _ _ _ hlinked _ _ ht₁ hp rfl
        hwait o
      have hr₂ := hr₁.append (System.Run.single hs)
      have hls₂ : ∀ l' ∈ ls₁ ++ [l], Own l' := List.forall_mem_append.mpr
        ⟨hls₁, List.forall_mem_singleton.mpr hown⟩
      rcases hcases with ⟨rfl, hwork⟩ | ⟨t₂, c₂, ht₂, hc₂, hp₂, hwork⟩ | hth
      · obtain ⟨ls₃, w₃, k₃, hr₃, hls₃, hth⟩ := ih _ (hn ▸ hwork) (h₁.snoc hs) ht₁ hp rfl
        exact ⟨_, w₃, k₃, hr₂.append hr₃, List.forall_mem_append.mpr ⟨hls₂, hls₃⟩, hth⟩
      · obtain ⟨ls₃, w₃, k₃, hr₃, hls₃, hth⟩ := ih _ (hn ▸ hwork) (h₁.snoc hs) ht₂ hp₂ rfl
        rw [hc₂] at hth
        exact ⟨_, w₃, k₃, hr₂.append hr₃, List.forall_mem_append.mpr ⟨hls₂, hls₃⟩, hth⟩
      · exact ⟨_, w₂, k₂, hr₂, hls₂, hth⟩

/-- The beginning of a conversation conforms to the protocol. -/
theorem Conforms.of_append {config : Config} {w more : List Frame}
    (h : Conforms config (w ++ more)) : Conforms config w := by
  induction more using List.reverseRecOn with
  | nil => rwa [List.append_nil] at h
  | append_singleton more m ih =>
    rw [← List.append_assoc] at h
    exact ih h.closed

/-- **A loop does not end at what it reads**, when that is a conversation of the protocol. -/
theorem readLoop_conforms {config : Config} {now : ℕ} {ls : List LoopEvent} {l : Loop}
    (h : (readLoop config now).Run (.start config now) ls l) {ms : List Frame}
    (hms : ∀ m ∈ ms, m.body.length ≤ 4077) (hconforms : Conforms config ms)
    (harrived : arrivedOf ls = encode ms) :
    (∀ error, l.ended ≠ some (.badHeader error)) ∧ ∀ error, l.ended ≠ some (.refused error) := by
  have hread := readLoop_read h
  have hoctets := hread.octets
  have hends : Wire.framing.Stops [] := Framing.stops_nil (by decide)
  rw [harrived, ← List.append_nil (encode ms), encode_eq, encode_eq l.frames, List.append_assoc]
    at hoctets
  constructor
  · intro error hended
    -- behind the messages there is no header
    obtain ⟨got, hreading, hlen, herror⟩ := hread.badHeader error hended
    rw [hreading] at hoctets
    obtain ⟨-, hnil⟩ := Framing.eq_of_append (fits_of hread.fits) (fits_of hms) hends hoctets.symm
      fun kind body hbody hp => Framing.stops_of_error hlen herror l.buffer kind _ hbody
        ((List.prefix_append _ _).trans hp)
    obtain ⟨rfl, -⟩ := List.append_eq_nil_iff.mp hnil
    exact absurd hlen (by decide)
  · intro error hended
    -- the frames are the first of the messages, so `connected` takes them all
    obtain ⟨rest, hrest, -⟩ :=
      Framing.prefix_of_append (fits_of hread.fits) (fits_of hms) hends hoctets.symm
    obtain ⟨more, hmore⟩ := frames_prefix hrest
    have htaken : Conforms config (frames (l.handed.take l.handed.length)) := by
      rw [List.take_length]
      exact (hmore ▸ hconforms : Conforms config (l.frames ++ more)).of_append
    obtain ⟨n, c, out, -, hn, -, hmax, -, -, hok, -⟩ :=
      (connected_decides config).run_longest (s := Conn.start config now)
        (.start rfl rfl rfl rfl rfl) l.handed
    have herror := (readLoop_connected h).refused error hended
    rw [show (connected config now l.handed).2 = .ok c from
      hok (le_antisymm hn (hmax _ le_rfl htaken))] at herror
    cases herror

/-- An OPEN, a KEEPALIVE and an UPDATE. -/
def sampleMessages : List Frame :=
  [⟨1, (Wire.buildOpen 65001 30 [192, 0, 2, 1]).drop 19⟩, ⟨4, []⟩, ⟨2, [0, 0, 0, 0, 16, 10, 2]⟩]

theorem sampleMessages_fit : ∀ m ∈ sampleMessages, m.body.length ≤ 4077 := by decide

theorem sampleMessages_phase : ∃ out,
    Phase sampleConfig sampleMessages out { sampleConn with established := true } := by
  have h₀ : Phase sampleConfig [] [] (Conn.start sampleConfig 0) := .start rfl rfl rfl rfl rfl
  obtain ⟨c₁, d₁, h₁, e₁⟩ := onFrame_ok sampleConn_open
  have p₁ := (h₀.dispatch h₁).deadline d₁
  rw [← e₁] at p₁
  obtain ⟨c₂, d₂, h₂, e₂⟩ := onFrame_ok sampleConn_keepalive
  have p₂ := (p₁.dispatch h₂).deadline d₂
  rw [← e₂] at p₂
  obtain ⟨c₃, d₃, h₃, e₃⟩ := onFrame_ok sampleConn_update
  have p₃ := (p₂.dispatch h₃).deadline d₃
  rw [← e₃] at p₃
  exact ⟨_, p₃⟩

/-- The UPDATE is the one that is decoded. -/
theorem sampleMessages_decoded : decodedOf sampleMessages = [sampleUpdate] := by
  obtain ⟨out, hphase⟩ := sampleMessages_phase
  have hasn : asnLenOf sampleMessages = 4 := by
    cases hphase with
    | established hn => exact hn.asnLen.symm
  have hfilter : sampleMessages.filter (·.kind = 2) = [⟨2, [0, 0, 0, 0, 16, 10, 2]⟩] := by decide
  have hupdate : Rib.updateOf [0, 0, 0, 0, 16, 10, 2] 4 = sampleUpdate := by decide
  rw [decodedOf, hfilter, hasn, List.map_singleton, hupdate]

theorem sampleMessages_separate : ∀ u ∈ decodedOf sampleMessages, Rib.Separate u := by
  rw [sampleMessages_decoded]
  exact List.forall_mem_singleton.mpr (by decide)

theorem sampleMessages_keys (f : Rib.Key → Bytes) :
    Set.InjOn (Rib.shortId sampleDigest) (f '' keysIn (decodedOf sampleMessages)) := by
  rw [sampleMessages_decoded]
  have hann : ∀ k ∈ Rib.keysOf sampleUpdate .announce,
      k = .unicast "ipv4-unicast" (.str "10.2.0.0/16") := by
    decide
  have hwd : Rib.keysOf sampleUpdate .withdraw = [] := by decide
  -- the UPDATE mentions one key
  have hone : ∀ k ∈ keysIn [sampleUpdate], k = .unicast "ipv4-unicast" (.str "10.2.0.0/16") := by
    rintro k ⟨u, hu, hk⟩
    rw [List.mem_singleton.mp hu] at hk
    refine hann k (hk.resolve_right ?_)
    rw [hwd]
    exact List.not_mem_nil
  rintro _ ⟨k, hk, rfl⟩ _ ⟨k', hk', rfl⟩ -
  rw [hone k hk, hone k' hk']

/-- A run in which they have arrived, and nothing has been read of them. -/
theorem exists_arrived : ∃ p₀ ls w k t c, (receiver sampleDigest).init p₀ ∧
    (receiver sampleDigest).Run p₀ ls (w, k) ∧ w.session = some t ∧ t.place = .session c ∧
    t.config = sampleConfig ∧ received ls = encode sampleMessages := by
  -- three kinds of steps: of the world alone, of both, and of the octets
  have happart : ∀ {w w' : World} {k : Link} {e : Event}, ¬ e.OfLoop → Step sampleDigest w e w' →
      (receiver sampleDigest).step (w, k) (some e, none) (w', k) :=
    fun he hs => ⟨.apart he, hs, Eq.refl _⟩
  have hconnect : ∀ {w w' : World} {k : Link} {t : Task}, w.session = some t →
      Step sampleDigest w (.connect 0) w' → (receiver sampleDigest).step (w, k)
        (some (.connect 0), some (.opened t.config 0)) (w', ⟨t.config, .start t.config 0⟩) :=
    fun ht hs => ⟨.connect ht, hs, .opened⟩
  have harrive : ∀ (w : World) (k : Link) (octets : Bytes), (receiver sampleDigest).step (w, k)
      (none, some (.loop (.arrive octets)))
      (w, ⟨k.config, { k.loop with buffer := k.loop.buffer ++ octets }⟩) :=
    fun w k octets => ⟨.arrive, Eq.refl _, .loop .arrive⟩
  have h₀ : (receiver sampleDigest).Run (World.new none, ⟨sampleConfig, .start sampleConfig 0⟩) []
      (World.new none, ⟨sampleConfig, .start sampleConfig 0⟩) := .nil
  -- a start is carried out, and its session connects
  have h₁ := h₀.snoc (happart id (.request (.start sampleConfig) rfl fun config hc => by
    rw [← Request.start.inj hc]
    exact sampleConfig_valid))
  have h₂ := h₁.snoc (happart id (.joinedStart rfl fun t ht => absurd ht (by simp [World.new])))
  have h₃ := h₂.snoc (happart id (.flushed rfl))
  have h₄ := h₃.snoc (happart id (.requestAct rfl (.start sampleConfig 0) rfl))
  have h₅ := h₄.snoc (happart id (.spawned rfl))
  have h₆ := h₅.snoc (happart id (.turn rfl rfl rfl))
  have h₇ := h₆.snoc (happart id (.act rfl rfl (.setState .connect) rfl))
  have h₈ := h₇.snoc (hconnect rfl (.connect 0 sampleOutside rfl rfl rfl))
  -- all octets arrive at once
  have h₉ := h₈.snoc (harrive _ _ (encode sampleMessages))
  exact ⟨_, _, _, _, _, _, ⟨⟨none, rfl⟩, sampleConfig, 0, rfl⟩, h₉, rfl, rfl, rfl, rfl⟩

end Session
