import BgpReceiver.Framework.Acceptor
import BgpReceiver.Rib.Data
import BgpReceiver.Session.Config
import BgpReceiver.Wire.Open
import BgpReceiver.Wire.Update

/-!
# A session on one connection

`connected` of `session.rs`, from the frames that arrive on the connection. What it does
to the rest of the program is its list of effects; an instant is a number of nanoseconds.
Frames arrive before the hold timer expires, and writes succeed.

Which frames the session takes is encoded in two flags and the guards of a match.
`Conforms` says it as a language: an OPEN, then a KEEPALIVE, then any number of
KEEPALIVEs and UPDATEs. `Phase` relates what has been read to the flags, the negotiated
hold time and the width of an ASN; it decides the next frame (`connected_decides`), so
that the frames that the session takes are the longest prefix in the language
(`connected_sessionFacts`).
-/

namespace Session

open Rib (SessionState)

/-! ### The code -/

/-- A message as it is read off the connection. -/
structure Frame where
  kind : UInt8
  body : Bytes
  deriving DecidableEq

/-- A frame, and when it was read. -/
structure Arrival where
  now : ℕ
  frame : Frame

/-- What a session does to the rest of the program. -/
inductive Effect where
  /-- `set_state` -/
  | setState (state : SessionState)
  /-- `write_all` on the connection -/
  | write (octets : Bytes)
  /-- `data.peer_info = info` -/
  | peerInfo (info : Json)
  | emit (kind level message : String) (extra : List (String × Json))
  | applyUpdate (update : Json) (peer : String)
  deriving DecidableEq

/-- The local variables of `connected`. -/
structure Conn where
  hold : ℕ
  receivedOpen : Bool
  established : Bool
  asnLen : ℕ
  deadline : ℕ
  nextKeepalive : ℕ
  deriving DecidableEq

/-- `Duration::from_secs`. -/
def fromSecs (n : ℕ) : ℕ := n * 1000000000

/-- The seconds between two KEEPALIVEs. -/
def keepalivePeriod (hold : ℕ) : ℕ := max (hold / 3) 1

section Connected

variable (config : Config)

/-- The variables before the first frame. -/
def Conn.start (now : ℕ) : Conn where
  hold := config.holdTime.toNat
  receivedOpen := false
  established := false
  asnLen := 2
  deadline := now +
    fromSecs (if config.holdTime.toNat = 0 then 86400 * 365 else config.holdTime.toNat)
  nextKeepalive := now + fromSecs (86400 * 365)

/-- What is done before the first frame. -/
def startEffects : List Effect :=
  [.setState .openSent,
    .write (Wire.buildOpen config.localAs.toNat config.holdTime.toNat
      config.routerId.octets.toList)]

/-- The first OPEN. -/
def onOpen (now : ℕ) (c : Conn) (body : Bytes) : Except String (Conn × List Effect) := do
  let info ← Wire.openMessage body
  if info.index "peer_as" ≠ .num config.peerAs.toNat then
    throw "Peer ASN mismatch"
  let hold := min c.hold ((info.index "hold_time").asU64.getD 0 % 2 ^ 16)
  let c := { c with
    hold := hold
    asnLen := if info.index "supports_4byte_asn" = .bool true then 4 else c.asnLen
    receivedOpen := true
    nextKeepalive := now + fromSecs (keepalivePeriod hold) }
  return (c, [.peerInfo info, .emit "session" "info" "Received OPEN" [("peer_info", info)],
    .write (Wire.message 4 []), .setState .openConfirmed])

/-- The match on the kind of a frame. -/
def dispatch (now : ℕ) (c : Conn) (f : Frame) : Except String (Conn × List Effect) :=
  if f.kind = 1 ∧ c.receivedOpen = false then onOpen config now c f.body
  else if f.kind = 4 ∧ c.receivedOpen = true ∧ f.body = [] then
    .ok (if c.established then (c, [])
      else ({ c with established := true }, [.setState .established]))
  else if f.kind = 2 ∧ c.established = true then do
    let u ← Wire.update f.body c.asnLen
    return (c, [.applyUpdate u config.peerIp.text])
  else if f.kind = 3 then
    .error ("BGP NOTIFICATION " ++ Nat.repr (f.body[0]?.getD 0).toNat ++ "/"
      ++ Nat.repr (f.body[1]?.getD 0).toNat)
  else .error ("Unexpected BGP message " ++ Nat.repr f.kind.toNat)

/-- A turn of the loop. -/
def onFrame (c : Conn) (a : Arrival) : Except String (Conn × List Effect) := do
  let (c, effects) ← dispatch config a.now c a.frame
  return (if c.hold > 0 then { c with deadline := a.now + fromSecs c.hold } else c, effects)

/-- `connected` on the frames that arrive: what it does, and how it stands behind them. -/
def connected (now : ℕ) (w : List Arrival) : List Effect × Except String Conn :=
  let (effects, result) := Acceptor.run (onFrame config) (Conn.start config now) w
  (startEffects config ++ effects, result)

end Connected

/-! ### The language -/

/-- The OPEN lists a four-octet ASN capability. -/
def Carries4ByteAsn (body : Bytes) : Prop :=
  ∃ r : Wire.RawOpen, r.Enc body ∧ ∃ caps, Wire.CapabilitiesOf r.params caps ∧
    ∃ cap ∈ caps, Wire.IsAsn4 cap

open Classical in
/-- The width of an ASN in a session that starts with these frames. -/
noncomputable def asnLenOf : List Frame → ℕ
  | [] => 2
  | f :: _ => if Carries4ByteAsn f.body then 4 else 2

/-- An OPEN of the peer that is configured. -/
def Frame.IsOpen (config : Config) (f : Frame) : Prop :=
  f.kind = 1 ∧ ∃ info, Wire.openMessage f.body = .ok info ∧
    info.index "peer_as" = .num config.peerAs.toNat

/-- A KEEPALIVE has no body. -/
def Frame.IsKeepalive (f : Frame) : Prop := f.kind = 4 ∧ f.body = []

/-- An UPDATE has a body that `update` accepts at the width of the session. -/
def Frame.IsUpdate (asnLen : ℕ) (f : Frame) : Prop :=
  f.kind = 2 ∧ ∃ u, Wire.update f.body asnLen = .ok u

/-- **The language of a session.** -/
inductive Conforms (config : Config) : List Frame → Prop
  | nil : Conforms config []
  | opened {f : Frame} : f.IsOpen config → Conforms config [f]
  | established {f k : Frame} {rest : List Frame} : f.IsOpen config → k.IsKeepalive →
      (∀ g ∈ rest, g.IsKeepalive ∨ g.IsUpdate (asnLenOf [f])) → Conforms config (f :: k :: rest)

/-- What conforms to the protocol has done so all along. -/
theorem Conforms.closed {config : Config} {w : List Frame} {f : Frame}
    (h : Conforms config (w ++ [f])) : Conforms config w := by
  match w with
  | [] => exact .nil
  | [f₀] =>
    cases h with
    | established ho _ _ => exact .opened ho
  | f₀ :: k :: rest =>
    cases h with
    | established ho hk hrest =>
      exact .established ho hk fun g hg => hrest g (List.mem_append_left _ hg)

/-! ### What is negotiated -/

/-- The octets of an OPEN determine what it lists. -/
theorem carries4ByteAsn_iff {body : Bytes} {info : Wire.OpenInfo}
    (h : Wire.parseOpen body = .ok info) :
    info.supports4ByteAsn = true ↔ Carries4ByteAsn body := by
  obtain ⟨r, henc, hvalid, caps, hcaps, rfl⟩ := Wire.parseOpen_ok_iff.mp h
  rw [r.info_supports]
  refine ⟨fun hex => ⟨r, henc, caps, hcaps, hex⟩, fun hex => ?_⟩
  obtain ⟨r', henc', caps', hcaps', hex'⟩ := hex
  -- both contents have the same base, so the other one is decoded as well
  have hbase : r'.base = r.base := by
    obtain ⟨hlen, octets, -, -, hbody⟩ := henc
    obtain ⟨hlen', octets', -, -, hbody'⟩ := henc'
    exact (List.append_inj (hbody'.symm.trans hbody) (hlen'.trans hlen.symm)).1
  have hvalid' : r'.Valid := by
    unfold Wire.RawOpen.Valid Wire.RawOpen.holdTime at *
    rwa [hbase]
  have h' := Wire.parseOpen_ok_iff.mpr ⟨r', henc', hvalid', caps', hcaps', rfl⟩
  rw [h] at h'
  rw [← r.info_supports, Except.ok.inj h', r'.info_supports]
  exact hex'

/-- What an OPEN settles: the hold time is the smaller one, and the width of an ASN is
that of the capabilities. -/
structure Negotiated (config : Config) (f : Frame) (c : Conn) : Prop where
  isOpen : f.IsOpen config
  hold : ∃ info h, Wire.openMessage f.body = .ok info ∧ info.index "hold_time" = .num h ∧
    (h = 0 ∨ 3 ≤ h) ∧ c.hold = min config.holdTime.toNat h
  asnLen : c.asnLen = asnLenOf [f]

/-- The number of the peer, as it is read from the report of its OPEN. -/
@[simp] theorem index_peerAs_toJson (info : Wire.OpenInfo) :
    info.toJson.index "peer_as" = .num info.peerAs := by
  simp [Wire.OpenInfo.toJson, Json.index, Entries.find_cons]

/-- The hold time, as it is read from there. -/
@[simp] theorem index_holdTime_toJson (info : Wire.OpenInfo) :
    info.toJson.index "hold_time" = .num info.holdTime := by
  simp [Wire.OpenInfo.toJson, Json.index, Entries.find_cons]

/-- The width of the numbers, as it is read from there. -/
@[simp] theorem index_supports_toJson (info : Wire.OpenInfo) :
    info.toJson.index "supports_4byte_asn" = .bool info.supports4ByteAsn := by
  simp [Wire.OpenInfo.toJson, Json.index, Entries.find_cons]

/-- The hold time of an accepted OPEN is admissible, and fits its two octets. -/
theorem parseOpen_holdTime {body : Bytes} {info : Wire.OpenInfo}
    (h : Wire.parseOpen body = .ok info) :
    (info.holdTime = 0 ∨ 3 ≤ info.holdTime) ∧ info.holdTime < 2 ^ 16 := by
  obtain ⟨r, -, ⟨-, hhold⟩, caps, -, rfl⟩ := Wire.parseOpen_ok_iff.mp h
  refine ⟨hhold, ?_⟩
  change Wire.fromBeBytes [r.base[3]!, r.base[4]!] < 2 ^ 16
  have hhi := (r.base[3]!).toNat_lt
  have hlo := (r.base[4]!).toNat_lt
  simp only [Wire.fromBeBytes, List.foldl_cons, List.foldl_nil]
  omega

/-- What was negotiated is the hold time and the width. -/
theorem Negotiated.congr {config : Config} {f : Frame} {c c' : Conn} (h : Negotiated config f c)
    (hhold : c'.hold = c.hold) (hasn : c'.asnLen = c.asnLen) : Negotiated config f c' := by
  obtain ⟨hopen, ⟨info, hd, ho, hi, hb, hmin⟩, hlen⟩ := h
  exact ⟨hopen, ⟨info, hd, ho, hi, hb, hhold.trans hmin⟩, hasn.trans hlen⟩

/-- The calls of `apply_update`. -/
def updatesOf (effects : List Effect) : List (Json × String) :=
  effects.filterMap fun
    | .applyUpdate u peer => some (u, peer)
    | _ => none

/-- The updates of effects one after the other. -/
theorem updatesOf_append (out out' : List Effect) :
    updatesOf (out ++ out') = updatesOf out ++ updatesOf out' :=
  List.filterMap_append

/-- **What an OPEN does when it is taken.** -/
theorem onOpen_ok {config : Config} {now : ℕ} {c c' : Conn} {body : Bytes} {out : List Effect}
    (h : onOpen config now c body = .ok (c', out)) :
    ∃ info, Wire.openMessage body = .ok info ∧ info.index "peer_as" = .num config.peerAs.toNat ∧
      c'.hold = min c.hold ((info.index "hold_time").asU64.getD 0 % 2 ^ 16) ∧
      c'.asnLen = (if info.index "supports_4byte_asn" = .bool true then 4 else c.asnLen) ∧
      c'.receivedOpen = true ∧ c'.established = c.established ∧
      out = [.peerInfo info, .emit "session" "info" "Received OPEN" [("peer_info", info)],
        .write (Wire.message 4 []), .setState .openConfirmed] := by
  unfold onOpen at h
  simp only [Reader.bind_eq_ok_iff] at h
  obtain ⟨info, hinfo, h⟩ := h
  by_cases hpeer : info.index "peer_as" = .num config.peerAs.toNat
  · simp only [hpeer, ne_eq, not_true_eq_false, if_false] at h
    obtain ⟨rfl, rfl⟩ := Prod.mk.inj (Except.ok.inj h)
    exact ⟨info, hinfo, hpeer, rfl, rfl, rfl, rfl, rfl⟩
  · simp only [ne_eq, hpeer, not_false_eq_true, if_true] at h
    exact absurd h (by simp [throw, throwThe, MonadExceptOf.throw, bind, Except.bind])

/-- It settles what is negotiated. -/
theorem onOpen_negotiated {config : Config} {now : ℕ} {c c' : Conn} {f : Frame} {out : List Effect}
    (hk : f.kind = 1) (hhold : c.hold = config.holdTime.toNat) (hasn : c.asnLen = 2)
    (h : onOpen config now c f.body = .ok (c', out)) :
    Negotiated config f c' ∧ updatesOf out = [] := by
  obtain ⟨v, hv, hpeer, hh, ha, -, -, rfl⟩ := onOpen_ok h
  obtain ⟨info, hinfo, rfl⟩ := Wire.openMessage_ok_iff.mp hv
  obtain ⟨hadmissible, hlt⟩ := parseOpen_holdTime hinfo
  refine ⟨⟨⟨hk, _, hv, hpeer⟩, ?_, ?_⟩, rfl⟩
  · refine ⟨_, info.holdTime, hv, index_holdTime_toJson info, hadmissible, ?_⟩
    rw [hh, index_holdTime_toJson, Json.asU64_num, Option.getD_some, Nat.mod_eq_of_lt hlt, hhold]
  · -- the flag of the decoder is the capability of the grammar
    rw [ha, hasn, asnLenOf]
    by_cases hs : info.supports4ByteAsn = true
    · rw [if_pos (by rw [index_supports_toJson, hs]), if_pos ((carries4ByteAsn_iff hinfo).mp hs)]
    · rw [if_neg (by rw [index_supports_toJson]; simpa using hs),
        if_neg (mt (carries4ByteAsn_iff hinfo).mpr hs)]

/-- An OPEN that fits the configuration is accepted, in every state of the connection. -/
theorem onOpen_of_isOpen {config : Config} {f : Frame} (h : f.IsOpen config) (now : ℕ) (c : Conn) :
    ∃ r, onOpen config now c f.body = .ok r := by
  obtain ⟨-, info, hinfo, hpeer⟩ := h
  cases hr : onOpen config now c f.body with
  | ok r => exact ⟨r, rfl⟩
  | error e =>
    unfold onOpen at hr
    rw [hinfo] at hr
    simp [bind, Except.bind, hpeer, pure, Except.pure] at hr

/-! ### What has been read -/

/-- Each UPDATE is applied, as it is decoded. -/
def Applies (config : Config) (asnLen : ℕ) (w : List Frame) (out : List Effect) : Prop :=
  List.Forall₂ (fun f e => ∃ u, Wire.update f.body asnLen = .ok u ∧ e = (u, config.peerIp.text))
    (w.filter (·.kind = 2)) (updatesOf out)

/-- **What has been read, what was done, and how the variables stand.** -/
inductive Phase (config : Config) : List Frame → List Effect → Conn → Prop
  | start {out : List Effect} {c : Conn} : updatesOf out = [] → c.receivedOpen = false →
      c.established = false → c.hold = config.holdTime.toNat → c.asnLen = 2 → Phase config [] out c
  | opened {f : Frame} {out : List Effect} {c : Conn} : Negotiated config f c → updatesOf out = [] →
      c.receivedOpen = true → c.established = false → Phase config [f] out c
  | established {f k : Frame} {rest : List Frame} {out : List Effect} {c : Conn} :
      Negotiated config f c → k.IsKeepalive →
      (∀ g ∈ rest, g.IsKeepalive ∨ g.IsUpdate (asnLenOf [f])) →
      Applies config (asnLenOf [f]) rest out → c.receivedOpen = true → c.established = true →
      Phase config (f :: k :: rest) out c

/-- The frames of a phase conform to the protocol. -/
theorem Phase.conforms {config : Config} {w : List Frame} {out : List Effect} {c : Conn}
    (h : Phase config w out c) : Conforms config w := by
  cases h with
  | start => exact .nil
  | opened hn => exact .opened hn.isOpen
  | established hn hk hrest => exact .established hn.isOpen hk hrest

/-- The timers do not count. -/
theorem Phase.deadline {config : Config} {w : List Frame} {out : List Effect} {c : Conn}
    (h : Phase config w out c) (deadline : ℕ) :
    Phase config w out { c with deadline := deadline } := by
  cases h with
  | start hu hr he hh ha => exact .start hu hr he hh ha
  | opened hn hu hr he => exact .opened (hn.congr rfl rfl) hu hr he
  | established hn hk hrest hu hr he => exact .established (hn.congr rfl rfl) hk hrest hu hr he

/-- **A frame that is taken leads to the next phase.** -/
theorem Phase.dispatch {config : Config} {w : List Frame} {out : List Effect} {c : Conn}
    (h : Phase config w out c) {now : ℕ} {f : Frame} {c' : Conn} {out' : List Effect}
    (hd : dispatch config now c f = .ok (c', out')) : Phase config (w ++ [f]) (out ++ out') c' := by
  unfold Session.dispatch at hd
  -- by phase: in each of them the flags of the connection decide what is accepted
  cases h with
  | start hu hr he hh ha =>
    -- nothing but an OPEN gets past the flags
    by_cases hk : f.kind = 1
    · rw [if_pos ⟨hk, hr⟩] at hd
      obtain ⟨hn, hu'⟩ := onOpen_negotiated hk hh ha hd
      obtain ⟨-, -, -, -, -, hr', he', -⟩ := onOpen_ok hd
      refine .opened hn ?_ hr' (he'.trans he)
      rw [updatesOf_append, hu, hu']
      rfl
    · rw [if_neg (fun h => hk h.1), if_neg (fun h => by simp [hr] at h),
        if_neg (fun h => by simp [he] at h)] at hd
      split_ifs at hd
  | @opened f₀ _ _ hn hu hr he =>
    rw [if_neg (fun h => by simp [hr] at h)] at hd
    -- after the OPEN only a KEEPALIVE goes on
    by_cases hk : f.kind = 4 ∧ c.receivedOpen = true ∧ f.body = []
    · rw [if_pos hk, if_neg (by simp [he])] at hd
      obtain ⟨rfl, rfl⟩ := Prod.mk.inj (Except.ok.inj hd)
      refine .established (hn.congr rfl rfl) ⟨hk.1, hk.2.2⟩ (fun g hg => absurd hg (by simp))
        ?_ hr rfl
      unfold Applies
      rw [updatesOf_append, hu]
      exact .nil
    · rw [if_neg hk, if_neg (fun h => by simp [he] at h)] at hd
      split_ifs at hd
  | @established f₀ k rest _ _ hn hk hrest hu hr he =>
    change Phase config (f₀ :: k :: (rest ++ [f])) _ _
    rw [if_neg (fun h => by simp [hr] at h)] at hd
    by_cases hka : f.kind = 4 ∧ c.receivedOpen = true ∧ f.body = []
    · -- a KEEPALIVE changes nothing
      rw [if_pos hka, if_pos he] at hd
      obtain ⟨rfl, rfl⟩ := Prod.mk.inj (Except.ok.inj hd)
      refine .established hn hk ?_ ?_ hr he
      · intro g hg
        rcases List.mem_append.mp hg with hg | hg
        · exact hrest g hg
        · rw [List.mem_singleton.mp hg]
          exact Or.inl ⟨hka.1, hka.2.2⟩
      · unfold Applies
        rw [List.filter_append, List.filter_cons_of_neg (by simp [hka.1]), List.filter_nil,
          List.append_nil, List.append_nil]
        exact hu
    · rw [if_neg hka] at hd
      -- any other message is an UPDATE, or refused
      by_cases hup : f.kind = 2 ∧ c.established = true
      · rw [if_pos hup] at hd
        simp only [Reader.bind_eq_ok_iff] at hd
        obtain ⟨u, hu', hd⟩ := hd
        obtain ⟨rfl, rfl⟩ := Prod.mk.inj (Except.ok.inj hd)
        rw [hn.asnLen] at hu'
        refine .established hn hk ?_ ?_ hr he
        · intro g hg
          rcases List.mem_append.mp hg with hg | hg
          · exact hrest g hg
          · rw [List.mem_singleton.mp hg]
            exact Or.inr ⟨hup.1, u, hu'⟩
        · unfold Applies
          rw [List.filter_append, List.filter_cons_of_pos (by simp [hup.1]), List.filter_nil,
            updatesOf_append]
          exact List.rel_append hu (.cons ⟨u, hu', rfl⟩ .nil)
      · rw [if_neg hup] at hd
        split_ifs at hd

/-- **A frame of the language is taken.** -/
theorem Phase.takes {config : Config} {w : List Frame} {out : List Effect} {c : Conn}
    (h : Phase config w out c) {f : Frame} (hf : Conforms config (w ++ [f])) (now : ℕ) :
    ∃ r, Session.dispatch config now c f = .ok r := by
  unfold Session.dispatch
  -- one message is due in each of the first two phases, and either of two after them
  cases h with
  | start hu hr he hh ha =>
    cases hf with
    | opened hopen =>
      rw [if_pos ⟨hopen.1, hr⟩]
      exact onOpen_of_isOpen hopen now c
  | opened hn hu hr he =>
    cases hf with
    | established _ hk _ =>
      rw [if_neg (fun h => by simp [hr] at h), if_pos ⟨hk.1, hr, hk.2⟩]
      exact ⟨_, rfl⟩
  | established hn _ _ hu hr he =>
    cases hf with
    | established _ _ hrest =>
      rw [if_neg (fun h => by simp [hr] at h)]
      rcases hrest f (List.mem_append_right _ List.mem_cons_self) with hk | ⟨hk, u, hup⟩
      · rw [if_pos ⟨hk.1, hr, hk.2⟩]
        exact ⟨_, rfl⟩
      · rw [if_neg (fun h => by simp [hk] at h), if_pos ⟨hk, he⟩, hn.asnLen, hup]
        exact ⟨_, rfl⟩

/-! ### Whole sessions -/

/-- A turn of the loop is the match on the frame, and then the deadline may move. -/
theorem onFrame_ok {config : Config} {c c' : Conn} {a : Arrival} {out : List Effect}
    (h : onFrame config c a = .ok (c', out)) :
    ∃ c₁ deadline, dispatch config a.now c a.frame = .ok (c₁, out) ∧
      c' = { c₁ with deadline := deadline } := by
  unfold onFrame at h
  rw [Reader.bind_eq_ok_iff] at h
  obtain ⟨⟨c₁, out₁⟩, hd, h⟩ := h
  obtain ⟨hc, rfl⟩ := Prod.mk.inj (Except.ok.inj h)
  by_cases hpos : c₁.hold > 0
  · rw [if_pos hpos] at hc
    exact ⟨c₁, _, hd, hc.symm⟩
  · rw [if_neg hpos] at hc
    exact ⟨c₁, c₁.deadline, hd, hc.symm⟩

/-- The frames of some arrivals. -/
def frames (w : List Arrival) : List Frame := w.map Arrival.frame

/-- **The phase decides the next frame.** -/
theorem connected_decides (config : Config) : Acceptor.Decides (onFrame config)
    (fun w => Conforms config (frames w)) (fun w => Phase config (frames w)) where
  mem := fun _ _ _ h => h.conforms
  ok := by
    intro w out c a c' out' h hs
    obtain ⟨c₁, deadline, hd, rfl⟩ := onFrame_ok hs
    show Phase config (frames (w ++ [a])) _ _
    rw [frames, List.map_append]
    -- the deadline moves, which the phase does not look at
    exact (h.dispatch hd).deadline deadline
  error := by
    intro w out c a e h hs hf
    rw [frames, List.map_append] at hf
    -- a frame that the phase admits is not refused
    obtain ⟨r, hr⟩ := h.takes hf a.now
    unfold onFrame at hs
    rw [hr] at hs
    exact absurd hs (by simp [bind, Except.bind, pure, Except.pure])
  closed := by
    intro w a h
    rw [frames, List.map_append] at h
    exact h.closed

/-- What a session does with the frames that arrive, of which it takes `n` and then
stands at `c`. -/
structure SessionFacts (config : Config) (now : ℕ) (w : List Arrival) (n : ℕ) (c : Conn) :
    Prop where
  /-- The frames it takes are the longest prefix in the language. -/
  le : n ≤ w.length
  conforms : Conforms config (frames (w.take n))
  longest : ∀ m ≤ w.length, Conforms config (frames (w.take m)) → m ≤ n
  taken : (connected config now (w.take n)).2 = .ok c
  /-- Each UPDATE among them is applied once and in order, and nothing else is. -/
  applied : Applies config (asnLenOf (frames (w.take n))) (frames (w.take n))
    (connected config now w).1
  /-- It goes on when all frames are taken, and ends with an error at the next one. -/
  continues : n = w.length → (connected config now w).2 = .ok c
  fails : n < w.length → ∃ e, (connected config now w).2 = .error e
  /-- Behind an OPEN the smaller hold time is in force. -/
  holdTime : ∀ f ∈ (frames (w.take n)).head?, ∃ info h, Wire.openMessage f.body = .ok info ∧
    info.index "hold_time" = .num h ∧ c.hold = min config.holdTime.toNat h
  /-- The hold time is none or admissible, and leaves room for three KEEPALIVEs. -/
  admissible : c.hold = 0 ∨ 3 ≤ c.hold
  period : c.hold ≠ 0 → 3 * keepalivePeriod c.hold ≤ c.hold

/-- A configured hold time is none, or three seconds at least. -/
theorem validate_holdTime {config : Config} (h : config.validate = .ok ()) :
    config.holdTime.toNat = 0 ∨ 3 ≤ config.holdTime.toNat := by
  by_contra hne
  obtain ⟨h₀, h₃⟩ := not_or.mp hne
  have hbad : config.holdTime ≠ 0 ∧ config.holdTime < 3 := by
    refine ⟨fun h => h₀ (by rw [h]; rfl), ?_⟩
    rw [UInt16.lt_iff_toNat_lt]
    exact Nat.lt_of_not_le h₃
  -- the check of the hold time is the one that would fail
  unfold Config.validate at h
  simp only [hbad, ne_eq, not_false_eq_true, and_self, if_true] at h
  split_ifs at h <;>
    exact absurd h (by simp [throw, throwThe, MonadExceptOf.throw, bind, Except.bind])

/-- **The conformance of a session.** -/
theorem connected_sessionFacts {config : Config} (hv : config.validate = .ok ()) (now : ℕ)
    (w : List Arrival) : ∃ n c, SessionFacts config now w n c := by
  obtain ⟨n, c, out, hphase, hn, hL, hmax, hout, htaken, hend, herr⟩ :=
    (connected_decides config).run_longest (s := Conn.start config now)
      (.start rfl rfl rfl rfl rfl) w
  have hconfig := validate_holdTime hv
  -- the hold time is what the first frame has negotiated
  have hhold : (∀ f ∈ (frames (w.take n)).head?, ∃ info h, Wire.openMessage f.body = .ok info ∧
      info.index "hold_time" = .num h ∧ c.hold = min config.holdTime.toNat h) ∧
      (c.hold = 0 ∨ 3 ≤ c.hold) := by
    -- before an OPEN the hold time is the configured one, after it the negotiated
    generalize frames (w.take n) = taken at hphase
    cases hphase with
    | start hu hr he hh ha => exact ⟨fun f hf => absurd hf (by simp), by rw [hh]; exact hconfig⟩
    | opened hn | established hn =>
      obtain ⟨info, h, ho, hi, hadm, hmin⟩ := hn.hold
      refine ⟨fun f hf => ?_, ?_⟩
      · obtain rfl := Option.some.inj hf
        exact ⟨info, h, ho, hi, hmin⟩
      · rw [hmin]
        omega
  have happlied : Applies config (asnLenOf (frames (w.take n))) (frames (w.take n)) out := by
    generalize frames (w.take n) = taken at hphase
    cases hphase with
    | start hu =>
      show List.Forall₂ _ [] (updatesOf out)
      rw [hu]
      exact .nil
    | opened hn hu =>
      -- neither the OPEN nor the KEEPALIVE is an UPDATE, so the rest are the ones applied
      have hk := hn.isOpen.1
      unfold Applies
      rw [hu, List.filter_cons_of_neg (by simp [hk])]
      exact .nil
    | established hn hk hrest hu =>
      have hk₁ := hn.isOpen.1
      have hk₂ := hk.1
      unfold Applies at hu ⊢
      rw [List.filter_cons_of_neg (by simp [hk₁]), List.filter_cons_of_neg (by simp [hk₂])]
      exact hu
  refine ⟨n, c, hn, hL, hmax, ?_, ?_, ?_, ?_, hhold.1, hhold.2, ?_⟩
  · show (Acceptor.run (onFrame config) _ _).2 = _
    rw [htaken]
  · show Applies config _ _ (startEffects config ++ (Acceptor.run (onFrame config) _ _).1)
    rw [hout]
    exact happlied
  · exact hend
  · exact herr
  · intro h
    have hle := hhold.2.resolve_left h
    unfold keepalivePeriod
    omega

/-! A session that is opened, takes an UPDATE and fails at a KEEPALIVE with a body. -/

/-- A session with a peer, with no file for its output. -/
def sampleConfig : Config where
  localAs := 65000
  routerId := ⟨#v[192, 0, 2, 9]⟩
  peerIp := ⟨#v[192, 0, 2, 1]⟩
  peerAs := 65001
  holdTime := 90
  reconnectDelay := .finite 5
  connectTimeout := .finite 5
  activeRetryDelay := .finite 1
  listenPort := 179
  jsonOutput := none

theorem sampleConfig_valid : sampleConfig.validate = .ok () := by decide

/-- An OPEN, a KEEPALIVE and an UPDATE. -/
def sampleArrivals : List Arrival :=
  [⟨1, 1, (Wire.buildOpen 65001 30 [192, 0, 2, 1]).drop 19⟩, ⟨2, 4, []⟩,
    ⟨3, 2, [0, 0, 0, 0, 16, 10, 2]⟩, ⟨4, 4, [0]⟩]

example : (connected sampleConfig 0 (sampleArrivals.take 3)).2.toOption.map
    (fun c => (c.hold, c.asnLen, c.established)) = some (30, 4, true) := by
  decide

theorem sampleArrivals_sessionFacts : ∃ n c, SessionFacts sampleConfig 0 sampleArrivals n c :=
  connected_sessionFacts sampleConfig_valid 0 sampleArrivals

/-- What the OPEN of the peer is reported as. -/
def sampleInfo : Json := Wire.OpenInfo.toJson ⟨65001, 30, [192, 0, 2, 1], true⟩

/-- The variables behind the OPEN. -/
def sampleConn : Conn := ⟨30, true, false, 4, fromSecs 30, fromSecs 10⟩

/-- The OPEN is accepted, answered and reported. -/
theorem sampleConn_open : onFrame sampleConfig (Conn.start sampleConfig 0)
    ⟨0, 1, (Wire.buildOpen 65001 30 [192, 0, 2, 1]).drop 19⟩ = .ok (sampleConn,
      [.peerInfo sampleInfo, .emit "session" "info" "Received OPEN" [("peer_info", sampleInfo)],
        .write (Wire.message 4 []), .setState .openConfirmed]) := by
  decide

/-- The KEEPALIVE establishes the session. -/
theorem sampleConn_keepalive : onFrame sampleConfig sampleConn ⟨0, 4, []⟩
    = .ok ({ sampleConn with established := true }, [.setState .established]) := by
  decide

end Session
