import BgpReceiver.Framework.Framing
import BgpReceiver.Framework.System
import BgpReceiver.Session.Connected

/-!
# Frames off a connection

The read loop of `connected`, octet by octet. The octets of a connection arrive in chunks of
any size; `read_message` reads a header and then a body, and each of its reads takes some
of the octets that are there and goes on later. The loop polls one and the same read until
it is through, so that a KEEPALIVE that is due in the meantime leaves what has been read as
it is (`LoopStep.keepalive`).

In every run, what has arrived is the encoding of the frames that have been handed to the
match, the octets of the frame in hand and the octets that have not been read
(`Read.octets`). A message tells where it ends (`Wire.framing`), so the frames are the
messages that were sent, as far as the match goes on (`readLoop_framed`); the match is that
of `connected` (`readLoop_connected`).
-/

namespace Wire

/-! ### The framing of messages -/

/-- The header of a message. -/
def headerOctets (kind : UInt8) (len : ℕ) : Bytes :=
  List.replicate 16 255 ++ u16ToBeBytes (len + 19) ++ [kind]

/-- What `header` looks at behind the marker. -/
theorem header_marker (hi lo kind : UInt8) :
    header (List.replicate 16 255 ++ [hi, lo, kind])
      = if 19 ≤ hi.toNat * 256 + lo.toNat ∧ hi.toNat * 256 + lo.toNat ≤ 4096 then
          .ok (kind, hi.toNat * 256 + lo.toNat - 19)
        else .error "Invalid BGP message length" := by
  have hlength : fromBeBytes [hi, lo] = hi.toNat * 256 + lo.toNat := by simp [fromBeBytes]
  unfold header
  rw [if_neg (by simp)]
  simp only [List.replicate, List.cons_append, List.nil_append, List.getElem!_cons_succ,
    List.getElem!_cons_zero]
  rw [hlength, ite_not]
  rfl

/-- Without the marker, there is no header. -/
theorem header_no_marker {data : Bytes}
    (h : data.length ≠ 19 ∨ data.take 16 ≠ List.replicate 16 255) :
    header data = .error "Invalid BGP header" := by
  unfold header
  rw [if_pos h]
  rfl

/-- A header with the marker is three octets behind it. -/
theorem marker_cases {data : Bytes} (hlen : data.length = 19)
    (htake : data.take 16 = List.replicate 16 255) :
    ∃ hi lo kind, data = List.replicate 16 255 ++ [hi, lo, kind] := by
  obtain ⟨hi, lo, kind, hdrop⟩ := List.length_eq_three.mp
    (show (data.drop 16).length = 3 by rw [List.length_drop]; omega)
  exact ⟨hi, lo, kind, by rw [← htake, ← hdrop, List.take_append_drop]⟩

/-- `header` takes the headers that `message` writes for a body that fits, and no others. -/
theorem header_eq_ok_iff (data : Bytes) (kind : UInt8) (len : ℕ) :
    header data = .ok (kind, len) ↔ len ≤ 4077 ∧ data = headerOctets kind len := by
  constructor
  · intro h
    by_cases hmarker : data.length ≠ 19 ∨ data.take 16 ≠ List.replicate 16 255
    · rw [header_no_marker hmarker] at h
      cases h
    · push Not at hmarker
      -- past the marker, the octets are the two of the length and the type
      obtain ⟨hi, lo, k, rfl⟩ := marker_cases hmarker.1 hmarker.2
      have hhi := hi.toNat_lt
      have hlo := lo.toNat_lt
      rw [header_marker] at h
      split_ifs at h with hlength
      obtain ⟨rfl, rfl⟩ := Prod.mk.inj (Except.ok.inj h)
      refine ⟨by omega, ?_⟩
      rw [headerOctets, u16ToBeBytes, Nat.sub_add_cancel hlength.1,
        show (hi.toNat * 256 + lo.toNat) / 256 = hi.toNat by omega, UInt8.ofNat_toNat]
      have hlow : UInt8.ofNat (hi.toNat * 256 + lo.toNat) = lo := by
        refine UInt8.toNat_inj.mp ?_
        rw [UInt8.toNat_ofNat']
        omega
      rw [hlow]
      rfl
  · rintro ⟨hlen, rfl⟩
    -- a body of at most 4077 octets has a length that two octets hold
    have hhi : (UInt8.ofNat ((len + 19) / 256)).toNat = (len + 19) / 256 := by
      rw [UInt8.toNat_ofNat', Nat.mod_eq_of_lt (by omega)]
    have hlo : (UInt8.ofNat (len + 19)).toNat = (len + 19) % 256 := UInt8.toNat_ofNat'
    have hsum : (len + 19) / 256 * 256 + (len + 19) % 256 = len + 19 := by omega
    rw [headerOctets, u16ToBeBytes, List.append_assoc, List.cons_append, List.singleton_append,
      header_marker, hhi, hlo, hsum, if_pos (by omega), Nat.add_sub_cancel]

/-- The marker is missing, or the length is out of bounds. -/
def Malformed (data : Bytes) : Prop :=
  data.take 16 ≠ List.replicate 16 255 ∨
    ¬ (19 ≤ fromBeBytes [data[16]!, data[17]!] ∧ fromBeBytes [data[16]!, data[17]!] ≤ 4096)

theorem Malformed.header_error {data : Bytes} (h : Malformed data) :
    ∃ e, header data = .error e := by
  rcases h with h | h
  · exact ⟨_, header_no_marker (Or.inr h)⟩
  · unfold header
    split_ifs with hmarker
    · exact ⟨_, rfl⟩
    · exact ⟨"Invalid BGP message length", by dsimp only; rw [if_pos h]; rfl⟩

theorem length_headerOctets (kind : UInt8) (len : ℕ) : (headerOctets kind len).length = 19 := rfl

/-- The framing of `header` and `message`. -/
def framing : Framing UInt8 UInt8 String where
  size := 19
  limit := 4077
  header := header
  octets := headerOctets
  length_octets := length_headerOctets
  header_eq_ok_iff := header_eq_ok_iff

end Wire

namespace Session

/-! ### The loop -/

/-- Where `read_message` is. -/
inductive Reading where
  | header (got : Bytes)
  | body (kind : UInt8) (len : ℕ) (got : Bytes)

/-- Why the loop is over. -/
inductive LoopEnd where
  /-- `wire::header` fails -/
  | badHeader (error : String)
  /-- the match fails -/
  | refused (error : String)
  /-- `"Hold timer expired"` -/
  | holdTimer
  /-- the connection fails, at a read or at the write of a KEEPALIVE -/
  | lost (error : String)

/-- The loop of `connected`: the connection, what has arrived and how much of it has been read, and
what has been done. -/
structure Loop where
  conn : Conn
  /-- What has arrived and has not been read. -/
  buffer : Bytes
  reading : Reading
  /-- The frames that the match has been given. -/
  handed : List Arrival
  effects : List Effect
  ended : Option LoopEnd

/-- The loop in front of its first read, with the OPEN on its way. -/
def Loop.start (config : Config) (now : ℕ) : Loop where
  conn := .start config now
  buffer := []
  reading := .header []
  handed := []
  effects := startEffects config
  ended := none

/-- Octets that arrive, a read, the two decisions behind a read, the timers, and the loss of the
connection. -/
inductive LoopEvent where
  | arrive (octets : Bytes)
  /-- a read takes some octets -/
  | pull (n : ℕ)
  | header
  | frame (now : ℕ)
  | keepalive (now : ℕ)
  | expire
  | lose (error : String)

/-- The events of `read_message` and of the match. -/
def LoopEvent.OfRead : LoopEvent → Prop
  | pull _ | header | frame _ => True
  | _ => False

section ReadLoop

variable (config : Config)

/-- One step of the `select!`, at the grain of single reads. -/
inductive LoopStep (l : Loop) : LoopEvent → Loop → Prop
  | arrive {octets : Bytes} : LoopStep l (.arrive octets) { l with buffer := l.buffer ++ octets }
  | pullHeader {n : ℕ} {got : Bytes} : l.ended = none → l.reading = .header got → 0 < n →
      n ≤ l.buffer.length → got.length + n ≤ 19 →
      LoopStep l (.pull n) { l with
        buffer := l.buffer.drop n
        reading := .header (got ++ l.buffer.take n) }
  | pullBody {n : ℕ} {kind : UInt8} {len : ℕ} {got : Bytes} : l.ended = none →
      l.reading = .body kind len got → 0 < n → n ≤ l.buffer.length → got.length + n ≤ len →
      LoopStep l (.pull n) { l with
        buffer := l.buffer.drop n
        reading := .body kind len (got ++ l.buffer.take n) }
  | header {got : Bytes} {kind : UInt8} {len : ℕ} : l.ended = none → l.reading = .header got →
      got.length = 19 → Wire.header got = .ok (kind, len) →
      LoopStep l .header { l with reading := .body kind len [] }
  | badHeader {got : Bytes} {error : String} : l.ended = none → l.reading = .header got →
      got.length = 19 → Wire.header got = .error error →
      LoopStep l .header { l with ended := some (.badHeader error) }
  | frame {kind : UInt8} {len : ℕ} {got : Bytes} {now : ℕ} {conn : Conn}
      {effects : List Effect} : l.ended = none → l.reading = .body kind len got →
      got.length = len → onFrame config l.conn ⟨now, kind, got⟩ = .ok (conn, effects) →
      LoopStep l (.frame now) { l with
        conn := conn
        reading := .header []
        handed := l.handed ++ [⟨now, kind, got⟩]
        effects := l.effects ++ effects }
  | refused {kind : UInt8} {len : ℕ} {got : Bytes} {now : ℕ} {error : String} :
      l.ended = none → l.reading = .body kind len got → got.length = len →
      onFrame config l.conn ⟨now, kind, got⟩ = .error error →
      LoopStep l (.frame now) { l with
        reading := .header []
        handed := l.handed ++ [⟨now, kind, got⟩]
        ended := some (.refused error) }
  /-- The read is left as it is. -/
  | keepalive {now : ℕ} : l.ended = none → l.conn.receivedOpen = true → 0 < l.conn.hold →
      LoopStep l (.keepalive now) { l with
        conn := { l.conn with nextKeepalive := now + fromSecs (keepalivePeriod l.conn.hold) }
        effects := l.effects ++ [.write (Wire.message 4 [])] }
  | expire : l.ended = none → 0 < l.conn.hold →
      LoopStep l .expire { l with ended := some .holdTimer }
  | lose {error : String} : l.ended = none →
      LoopStep l (.lose error) { l with ended := some (.lost error) }

/-- The read loop, from the beginning of the session. -/
def readLoop (now : ℕ) : System Loop LoopEvent where
  init := fun l => l = .start config now
  step := LoopStep config

/-- The loop waits for octets. -/
def Loop.Waiting (l : Loop) : Prop :=
  l.ended = none ∧ ∀ ev l', ev.OfRead → ¬ LoopStep config l ev l'

end ReadLoop

/-- The frames that the match has been given. -/
def Loop.frames (l : Loop) : List Frame := l.handed.map Arrival.frame

/-- The octets that have arrived. -/
def arrivedOf (ls : List LoopEvent) : Bytes :=
  ls.flatMap fun
    | .arrive octets => octets
    | _ => []

/-- The messages, one behind the other. -/
def encode (ms : List Frame) : Bytes := ms.flatMap fun m => Wire.message m.kind m.body

/-- What has been read of the frame in hand. -/
def Reading.octets : Reading → Bytes
  | header got => got
  | body kind len got => Wire.headerOctets kind len ++ got

/-! ### What has been read -/

/-- The octets of some messages are those of the framing. -/
theorem encode_eq (ms : List Frame) :
    encode ms = Wire.framing.encode (ms.map fun m => (m.kind, m.body)) :=
  (List.flatMap_map (fun m : Frame => (m.kind, m.body)) Wire.framing.message ms).symm

/-- A body of at most 4077 octets fits into a message. -/
theorem fits_of {ms : List Frame} (h : ∀ m ∈ ms, m.body.length ≤ 4077) :
    Wire.framing.Fits (ms.map fun m => (m.kind, m.body)) := by
  intro m hm
  obtain ⟨f, hf, rfl⟩ := List.mem_map.mp hm
  exact h f hf

theorem pairs_injective : Function.Injective fun m : Frame => (m.kind, m.body) := by
  rintro ⟨k, b⟩ ⟨k', b'⟩ h
  obtain ⟨rfl, rfl⟩ := Prod.mk.inj h
  rfl

/-- A read that has not gone too far. -/
def Reading.Partial : Reading → Prop
  | header got => got.length ≤ 19
  | body _ len got => len ≤ 4077 ∧ got.length ≤ len

/-- The octets that have arrived are those of the frames, of the frame in hand, and those
that have not been read. -/
structure Read (config : Config) (ls : List LoopEvent) (l : Loop) : Prop where
  octets : arrivedOf ls = encode l.frames ++ l.reading.octets ++ l.buffer
  fits : ∀ f ∈ l.frames, f.body.length ≤ 4077
  partway : l.reading.Partial
  badHeader : ∀ error, l.ended = some (.badHeader error) →
    ∃ got, l.reading = .header got ∧ got.length = 19 ∧ Wire.header got = .error error
  refused : ∀ error, l.ended = some (.refused error) →
    ∃ a, l.handed.getLast? = some a ∧ onFrame config l.conn a = .error error

/-- What has arrived in a run and in what goes on behind it. -/
theorem arrivedOf_append (ls ls' : List LoopEvent) :
    arrivedOf (ls ++ ls') = arrivedOf ls ++ arrivedOf ls' :=
  List.flatMap_append

/-- Nothing has arrived and nothing has been read. -/
theorem read_start (config : Config) (now : ℕ) : Read config [] (.start config now) where
  octets := rfl
  fits := fun _ hf => absurd hf List.not_mem_nil
  partway := Nat.zero_le _
  badHeader := nofun
  refused := nofun

/-- A frame that is complete is one more of those that have been read. -/
theorem Read.frame_octets {config : Config} {ls : List LoopEvent} {l : Loop}
    (h : Read config ls l) {kind : UInt8} {len : ℕ} {got : Bytes}
    (hreading : l.reading = .body kind len got) (hgot : got.length = len) (now : ℕ) :
    arrivedOf ls
        = encode ((l.handed ++ [(⟨now, kind, got⟩ : Arrival)]).map Arrival.frame) ++ []
          ++ l.buffer ∧
      ∀ f ∈ (l.handed ++ [(⟨now, kind, got⟩ : Arrival)]).map Arrival.frame,
        f.body.length ≤ 4077 := by
  have hpart := h.partway
  rw [hreading] at hpart
  rw [List.map_append]
  constructor
  · subst hgot
    rw [h.octets, hreading]
    simp [encode, Loop.frames, Reading.octets, Wire.message, Wire.headerOctets]
  · intro f hf
    rcases List.mem_append.mp hf with hf | hf
    · exact h.fits f hf
    · rw [List.mem_singleton.mp hf]
      exact hpart.2.trans hpart.1

/-- What does not touch the octets. -/
theorem Read.keep {config : Config} {ls : List LoopEvent} {l l' : Loop} {e : LoopEvent}
    (h : Read config ls l) (hev : arrivedOf [e] = []) (hhanded : l'.handed = l.handed)
    (hreading : l'.reading = l.reading) (hbuffer : l'.buffer = l.buffer)
    (hbad : ∀ error, l'.ended ≠ some (.badHeader error))
    (hrefused : ∀ error, l'.ended ≠ some (.refused error)) : Read config (ls ++ [e]) l' where
  octets := by
    rw [arrivedOf_append, hev, List.append_nil, h.octets, Loop.frames, Loop.frames, hhanded,
      hreading, hbuffer]
  fits := by
    rw [Loop.frames, hhanded]
    exact h.fits
  partway := by
    rw [hreading]
    exact h.partway
  badHeader := fun error he => absurd he (hbad error)
  refused := fun error he => absurd he (hrefused error)

/-- **No octet is lost or read twice**, whatever happens next. -/
theorem Read.step {config : Config} {ls : List LoopEvent} {l l' : Loop} {ev : LoopEvent}
    (h : Read config ls l) (hstep : LoopStep config l ev l') : Read config (ls ++ [ev]) l' := by
  have hnone : ∀ ev : LoopEvent, arrivedOf [ev] = [] → arrivedOf (ls ++ [ev]) = arrivedOf ls :=
    fun ev hev => by rw [arrivedOf_append, hev, List.append_nil]
  -- a loop that still runs has ended with neither of the two errors
  have hgoing : l.ended = none → ∀ e, l.ended ≠ some e := fun hrun e => by simp [hrun]
  cases hstep with
  | @arrive octets =>
    -- what arrives goes behind what is buffered
    refine ⟨?_, h.fits, h.partway, h.badHeader, h.refused⟩
    rw [arrivedOf_append, h.octets, List.append_assoc _ l.buffer]
    simp [arrivedOf, Loop.frames]
  | @pullHeader n got hrun hreading hn hle hlen =>
    -- what is read moves from the buffer into the reading
    refine ⟨?_, h.fits, ?_, fun _ he => absurd he (hgoing hrun _),
      fun _ he => absurd he (hgoing hrun _)⟩
    · rw [hnone (.pull n) rfl, h.octets, hreading]
      simp [Reading.octets, Loop.frames]
    · change (got ++ l.buffer.take n).length ≤ 19
      rw [List.length_append, List.length_take]
      omega
  | @pullBody n kind len got hrun hreading hn hle hlen =>
    have hpart := h.partway
    rw [hreading] at hpart
    refine ⟨?_, h.fits, ⟨hpart.1, ?_⟩, fun _ he => absurd he (hgoing hrun _),
      fun _ he => absurd he (hgoing hrun _)⟩
    · rw [hnone (.pull n) rfl, h.octets, hreading]
      simp [Reading.octets, Loop.frames]
    · rw [List.length_append, List.length_take]
      omega
  | @header got kind len hrun hreading hlen hok =>
    -- the header read is the header of the body that follows
    obtain ⟨hfit, hgot⟩ := (Wire.header_eq_ok_iff _ _ _).mp hok
    refine ⟨?_, h.fits, ⟨hfit, Nat.zero_le _⟩, fun _ he => absurd he (hgoing hrun _),
      fun _ he => absurd he (hgoing hrun _)⟩
    rw [hnone .header rfl, h.octets, hreading]
    change encode l.frames ++ got ++ l.buffer
      = encode l.frames ++ (Wire.headerOctets kind len ++ []) ++ l.buffer
    rw [← hgot, List.append_nil]
  | @badHeader got error hrun hreading hlen herr =>
    refine ⟨?_, h.fits, h.partway, fun e he => ?_, nofun⟩
    · rw [hnone .header rfl]
      exact h.octets
    · cases he
      exact ⟨got, hreading, hlen, herr⟩
  | @frame kind len got now conn effects hrun hreading hgot hok =>
    -- the whole message is handed over, and the next reading begins
    obtain ⟨hoctets, hfits⟩ := h.frame_octets hreading hgot now
    refine ⟨?_, hfits, Nat.zero_le _, fun _ he => absurd he (hgoing hrun _),
      fun _ he => absurd he (hgoing hrun _)⟩
    rw [hnone (.frame now) rfl]
    exact hoctets
  | @refused kind len got now error hrun hreading hgot herr =>
    obtain ⟨hoctets, hfits⟩ := h.frame_octets hreading hgot now
    refine ⟨?_, hfits, Nat.zero_le _, nofun, fun e he => ?_⟩
    · rw [hnone (.frame now) rfl]
      exact hoctets
    · cases he
      exact ⟨_, List.getLast?_concat, herr⟩
  | @keepalive now hrun =>
    exact h.keep (e := .keepalive now) rfl rfl rfl rfl (by simp [hrun]) (by simp [hrun])
  | expire => exact h.keep (e := .expire) rfl rfl rfl rfl (by simp) (by simp)
  | @lose error => exact h.keep (e := .lose error) rfl rfl rfl rfl (by simp) (by simp)

/-- The octets that have arrived are those of the frames, of the message that is being read, and of
the buffer, in every run. -/
theorem readLoop_read {config : Config} {now : ℕ} {ls : List LoopEvent} {l : Loop}
    (h : (readLoop config now).Run (.start config now) ls l) : Read config ls l := by
  induction h with
  | nil => exact read_start config now
  | snoc _ hstep ih => exact ih.step hstep

/-! ### Waiting for octets -/

/-- The read lacks octets. -/
def Reading.Short : Reading → Prop
  | header got => got.length < 19
  | body _ len got => got.length < len

/-- **A loop that waits has read everything**, and the frame in hand lacks octets. -/
theorem Read.short {config : Config} {ls : List LoopEvent} {l : Loop} (h : Read config ls l)
    (hw : l.Waiting config) : l.buffer = [] ∧ l.reading.Short := by
  obtain ⟨hrun, hstuck⟩ := hw
  have hpart := h.partway
  cases hreading : l.reading with
  | header got =>
    rw [hreading] at hpart
    have hshort : got.length < 19 := by
      -- a whole header would be taken, or found bad
      refine lt_of_le_of_ne hpart fun hlen => ?_
      cases hok : Wire.header got with
      | ok r => exact hstuck .header _ trivial (.header hrun hreading hlen hok)
      | error error => exact hstuck .header _ trivial (.badHeader hrun hreading hlen hok)
    refine ⟨?_, hshort⟩
    by_contra hne
    exact hstuck (.pull 1) _ trivial (.pullHeader hrun hreading Nat.one_pos
      (List.length_pos_iff.mpr hne) hshort)
  | body kind len got =>
    rw [hreading] at hpart
    have hshort : got.length < len := by
      -- and a whole body handed on, or refused
      refine lt_of_le_of_ne hpart.2 fun hlen => ?_
      cases hok : onFrame config l.conn ⟨0, kind, got⟩ with
      | ok r => exact hstuck (.frame 0) _ trivial (.frame hrun hreading hlen hok)
      | error error => exact hstuck (.frame 0) _ trivial (.refused hrun hreading hlen hok)
    refine ⟨?_, hshort⟩
    by_contra hne
    exact hstuck (.pull 1) _ trivial (.pullBody hrun hreading Nat.one_pos
      (List.length_pos_iff.mpr hne) hshort)

/-- What is left to do with the octets that have arrived. -/
def Loop.work (l : Loop) : ℕ :=
  3 * l.buffer.length +
    match l.reading with
    | .header got => if got.length = 19 then 2 else 0
    | .body _ _ _ => 1

/-- A read leaves less to do, or ends the loop. -/
theorem work_decreases {config : Config} {l l' : Loop} {ev : LoopEvent} (hev : ev.OfRead)
    (hstep : LoopStep config l ev l') : l'.work < l.work ∨ l'.ended ≠ none := by
  -- what has been read is less, or the loop is in a later part of the message
  unfold Loop.work
  cases hstep with
  | pullHeader _ hreading hn hle hlen =>
    left
    simp only [hreading, List.length_drop]
    split_ifs <;> omega
  | pullBody _ hreading hn hle hlen =>
    left
    simp only [hreading, List.length_drop]
    omega
  | header _ hreading hlen =>
    left
    simp only [hreading, hlen, if_pos]
    omega
  | frame _ hreading =>
    left
    simp [hreading]
  | badHeader | refused =>
    right
    simp
  | arrive | keepalive | expire | lose => exact absurd hev id

/-- The loop goes on until it waits or is over. -/
theorem goes_on {config : Config} {now : ℕ} {ls : List LoopEvent} {l : Loop}
    (h : (readLoop config now).Run (.start config now) ls l) (hrun : l.ended = none) :
    ∃ ls' l', (readLoop config now).Run l ls' l' ∧ (∀ ev ∈ ls', ev.OfRead) ∧
      (l'.Waiting config ∨ (∃ error, l'.ended = some (.badHeader error)) ∨
        ∃ error, l'.ended = some (.refused error)) := by
  by_cases hw : l.Waiting config
  · exact ⟨[], l, .nil, fun _ hev => absurd hev List.not_mem_nil, Or.inl hw⟩
  · obtain ⟨ev, l', hev, hstep⟩ : ∃ ev l', ev.OfRead ∧ LoopStep config l ev l' := by
      by_contra hnone
      push Not at hnone
      exact hw ⟨hrun, fun ev l' hev => hnone ev l' hev⟩
    by_cases hended : l'.ended = none
    · have hlt := (work_decreases hev hstep).resolve_right fun hne => hne hended
      -- with less work left the loop goes on by itself
      obtain ⟨ls', l'', hr, hls, hgoal⟩ := goes_on (h.snoc hstep) hended
      refine ⟨[ev] ++ ls', l'', (System.Run.single hstep).append hr, ?_, hgoal⟩
      intro ev' hev'
      rcases List.mem_cons.mp hev' with rfl | hev'
      · exact hev
      · exact hls ev' hev'
    · -- a read that ends the loop does so because of what it has read
      refine ⟨[ev], l', .single hstep, ?_, Or.inr ?_⟩
      · intro ev' hev'
        rw [List.mem_singleton.mp hev']
        exact hev
      · cases hstep with
        | badHeader => exact Or.inl ⟨_, rfl⟩
        | refused => exact Or.inr ⟨_, rfl⟩
        | pullHeader | pullBody | header | frame => exact absurd hrun hended
        | arrive | keepalive | expire | lose => exact absurd hev id
termination_by l.work

/-! ### The messages that were sent -/

/-- How the frames of a loop stand to the messages that were sent, with `rest` behind
them. -/
structure Framed (config : Config) (now : ℕ) (ms : List Frame) (rest : Bytes)
    (ls : List LoopEvent) (l : Loop) : Prop where
  /-- At any time, the frames are the first of the messages. -/
  inOrder : arrivedOf ls <+: encode ms ++ rest → l.frames <+: ms
  /-- When all has arrived, the loop goes on until it waits or is over. -/
  goesOn : l.ended = none → ∃ ls' l', (readLoop config now).Run l ls' l' ∧
    (∀ ev ∈ ls', ev.OfRead) ∧ (l'.Waiting config ∨
      (∃ error, l'.ended = some (.badHeader error)) ∨ ∃ error, l'.ended = some (.refused error))
  /-- If it waits, the frames are the messages, and nothing came behind them. -/
  waiting : arrivedOf ls = encode ms ++ rest → l.Waiting config → l.frames = ms ∧ rest = []
  /-- If it fails at a header, the frames are the messages, and no more than the header has
  been read. -/
  badHeader : ∀ error, arrivedOf ls = encode ms ++ rest → l.ended = some (.badHeader error) →
    l.frames = ms ∧ ∃ bad, bad.length = 19 ∧ rest = bad ++ l.buffer
  /-- If the match ends the session, it does so at the last frame that it was given. -/
  refused : ∀ error, l.ended = some (.refused error) →
    ∃ a, l.handed.getLast? = some a ∧ onFrame config l.conn a = .error error

/-- There is nothing behind the messages, or what is behind them has no header. -/
def Ends (rest : Bytes) : Prop :=
  rest = [] ∨ ∃ bad more, bad.length = 19 ∧ Wire.Malformed bad ∧ rest = bad ++ more

/-- Octets that are less than a message, or malformed, stop the framing. -/
theorem Ends.stops {rest : Bytes} (h : Ends rest) : Wire.framing.Stops rest := by
  rcases h with rfl | ⟨bad, more, hlen, hbad, rfl⟩
  · exact Framing.stops_nil (by decide)
  · obtain ⟨error, herror⟩ := hbad.header_error
    exact Framing.stops_of_error hlen herror more

/-- Frames are in front when their kinds and bodies are. -/
theorem frames_prefix {l : Loop} {ms : List Frame} {t : List (UInt8 × Bytes)}
    (h : ms.map (fun m => (m.kind, m.body)) = l.frames.map (fun m => (m.kind, m.body)) ++ t) :
    l.frames <+: ms := by
  obtain ⟨ms₁, ms₂, rfl, h₁, -⟩ := List.map_eq_append_iff.mp h
  rw [pairs_injective.list_map h₁]
  exact List.prefix_append _ _

/-- No message is a part of a read that lacks octets. -/
theorem Reading.Short.not_prefix {r : Reading} (h : r.Short) (hpart : r.Partial) (kind : UInt8)
    (body : Bytes) (hbody : body.length ≤ 4077) :
    ¬ Wire.headerOctets kind body.length ++ body <+: r.octets := by
  rintro ⟨t, ht⟩
  cases r with
  | header got =>
    -- a header that is not complete is shorter than one
    have hlen := congrArg List.length ht
    rw [List.length_append, List.length_append, Wire.length_headerOctets] at hlen
    have hlt : got.length < 19 := h
    change _ = got.length at hlen
    omega
  | body kind' len got =>
    -- with the same header in front the body has the same length
    rw [Reading.octets, List.append_assoc] at ht
    obtain ⟨-, hlen, hgot⟩ := Framing.octets_append_inj (F := Wire.framing) hbody hpart.1 ht
    have hlt : got.length < len := h
    rw [← hgot, List.length_append] at hlt
    omega

/-- What a waiting loop has in hand is not what stops a stream. -/
theorem Reading.Short.eq_nil {r : Reading} (h : r.Short) (hpart : r.Partial)
    (hends : Ends r.octets) : r.octets = [] := by
  rcases hends with hnil | ⟨bad, more, hlen, hbad, heq⟩
  · exact hnil
  · cases r with
    | header got =>
      have hlt : got.length < 19 := h
      rw [show got = bad ++ more from heq, List.length_append] at hlt
      omega
    | body kind len got =>
      have hstops : Wire.framing.Stops (Reading.body kind len got).octets :=
        Ends.stops (Or.inr ⟨bad, more, hlen, hbad, heq⟩)
      exact absurd (List.prefix_append _ _) (hstops kind len hpart.1)

/-- **Framing survives chunks and timers.** -/
theorem readLoop_framed {config : Config} {now : ℕ} {ms : List Frame}
    (hms : ∀ m ∈ ms, m.body.length ≤ 4077) {rest : Bytes} (hrest : Ends rest)
    {ls : List LoopEvent} {l : Loop}
    (h : (readLoop config now).Run (.start config now) ls l) :
    Framed config now ms rest ls l := by
  have hread := readLoop_read h
  have hoctets := hread.octets
  rw [encode_eq, List.append_assoc] at hoctets
  refine ⟨?_, goes_on h, ?_, ?_, hread.refused⟩
  · rintro ⟨later, hlater⟩
    rw [hoctets, encode_eq, List.append_assoc] at hlater
    obtain ⟨t, ht, -⟩ := Framing.prefix_of_append (fits_of hread.fits) (fits_of hms) hrest.stops
      hlater
    exact frames_prefix ht
  · intro harrived hw
    -- a waiting loop holds less than a message, so no message of the peer's is left in its rest
    obtain ⟨hbuffer, hshort⟩ := hread.short hw
    rw [hoctets, encode_eq, hbuffer, List.append_nil] at harrived
    obtain ⟨hframes, hx⟩ := Framing.eq_of_append (fits_of hread.fits) (fits_of hms) hrest.stops
      harrived (hshort.not_prefix hread.partway)
    refine ⟨pairs_injective.list_map hframes, ?_⟩
    rw [← hx]
    exact hshort.eq_nil hread.partway (by rwa [hx])
  · intro error harrived hended
    -- a bad header begins no message, whatever follows it
    obtain ⟨got, hreading, hlen, herror⟩ := hread.badHeader error hended
    rw [hoctets, encode_eq, hreading] at harrived
    obtain ⟨hframes, hx⟩ := Framing.eq_of_append (fits_of hread.fits) (fits_of hms) hrest.stops
      harrived fun k body hbody hp => Framing.stops_of_error hlen herror l.buffer k _ hbody
        ((List.prefix_append _ _).trans hp)
    exact ⟨pairs_injective.list_map hframes, got, hlen, hx.symm⟩

/-! ### A message at the front -/

theorem arrivedOf_reads {ls : List LoopEvent} (h : ∀ ev ∈ ls, ev.OfRead) : arrivedOf ls = [] := by
  refine List.flatMap_eq_nil_iff.mpr fun ev hev => ?_
  cases ev with
  | arrive => exact absurd (h _ hev) id
  | _ => rfl

/-- A message that has arrived is read, from wherever the read of its header is. -/
theorem reads_message (config : Config) (now : ℕ) {l : Loop} {got body more : Bytes}
    {kind : UInt8} (hrun : l.ended = none) (hreading : l.reading = .header got)
    (hgot : got.length < 19) (hbody : body.length ≤ 4077)
    (hoctets : got ++ l.buffer = Wire.message kind body ++ more) :
    ∃ ls, (readLoop config now).Run l ls
        { l with buffer := more, reading := .body kind body.length body } ∧
      ∀ ev ∈ ls, ev.OfRead := by
  have hmessage : Wire.message kind body ++ more
      = Wire.headerOctets kind body.length ++ (body ++ more) := List.append_assoc _ _ _
  have hlen := congrArg List.length hoctets
  rw [hmessage, List.length_append, List.length_append, Wire.length_headerOctets] at hlen
  -- the rest of the header
  obtain ⟨hheader, hrest⟩ : got ++ l.buffer.take (19 - got.length)
      = Wire.headerOctets kind body.length ∧ l.buffer.drop (19 - got.length) = body ++ more := by
    refine List.append_inj ?_ ?_
    · rw [List.append_assoc, List.take_append_drop, hoctets, hmessage]
    · rw [List.length_append, List.length_take, Wire.length_headerOctets]
      omega
  have hpull : LoopStep config l (.pull (19 - got.length)) _ :=
    .pullHeader hrun hreading (by omega) (by omega) (by omega)
  rw [hheader, hrest] at hpull
  have hparsed : LoopStep config
      { l with buffer := body ++ more, reading := .header (Wire.headerOctets kind body.length) }
      .header { l with buffer := body ++ more, reading := .body kind body.length [] } :=
    .header hrun rfl rfl ((Wire.header_eq_ok_iff _ _ _).mpr ⟨hbody, rfl⟩)
  have htwo : (readLoop config now).Run l [.pull (19 - got.length), .header]
      { l with buffer := body ++ more, reading := .body kind body.length [] } :=
    (System.Run.single hpull).snoc hparsed
  -- a message without a body is complete with its header
  by_cases hnil : body = []
  · subst hnil
    exact ⟨_, htwo, by simp [LoopEvent.OfRead]⟩
  · have hpos := List.length_pos_iff.mpr hnil
    have hbodyPull : LoopStep config
        { l with buffer := body ++ more, reading := .body kind body.length [] }
        (.pull body.length) { l with
          buffer := (body ++ more).drop body.length
          reading := .body kind body.length ([] ++ (body ++ more).take body.length) } :=
      .pullBody hrun rfl hpos (by simp) (by simp)
    rw [List.drop_left, List.take_left, List.nil_append] at hbodyPull
    exact ⟨_, htwo.snoc hbodyPull, by simp [LoopEvent.OfRead]⟩

/-- A loop that is over reads nothing. -/
theorem not_read_of_ended {config : Config} {l l' : Loop} {ev : LoopEvent} (h : l.ended ≠ none)
    (hev : ev.OfRead) : ¬ LoopStep config l ev l' := by
  intro hstep
  cases hstep with
  | pullHeader hrun | pullBody hrun | header hrun | badHeader hrun | frame hrun | refused hrun =>
    exact h hrun
  | arrive | keepalive | expire | lose => exact hev

/-- **The loop need not hand over every message**: it is over once the match refuses one. -/
theorem readLoop_refuses : ∃ ms ls l, (∀ m ∈ ms, m.body.length ≤ 4077) ∧
    (readLoop sampleConfig 0).Run (.start sampleConfig 0) ls l ∧ arrivedOf ls = encode ms ∧
    (∀ ev l', ev.OfRead → ¬ LoopStep sampleConfig l ev l') ∧ l.frames ≠ ms := by
  let ms : List Frame := [⟨9, []⟩, ⟨9, []⟩]
  -- neither the OPEN nor any other message has the type 9
  have herror : onFrame sampleConfig (.start sampleConfig 0) ⟨0, 9, []⟩
      = .error "Unexpected BGP message 9" := by decide
  have harrive : (readLoop sampleConfig 0).Run (.start sampleConfig 0) [.arrive (encode ms)]
      { Loop.start sampleConfig 0 with buffer := encode ms } := .single .arrive
  obtain ⟨ls, hreads, hls⟩ := reads_message sampleConfig 0
    (l := { Loop.start sampleConfig 0 with buffer := encode ms })
    (show _ = none from rfl) (show _ = Reading.header [] from rfl) (by decide)
    (show ([] : Bytes).length ≤ 4077 by decide)
    (show [] ++ encode ms = Wire.message 9 [] ++ Wire.message 9 [] by decide)
  have hrefused := (harrive.append hreads).snoc (.refused rfl rfl rfl herror)
  refine ⟨ms, _, _, by decide, hrefused, ?_, fun ev l' => not_read_of_ended (by simp), ?_⟩
  · rw [arrivedOf_append, arrivedOf_append, arrivedOf_reads hls]
    simp [arrivedOf]
  · simp [Loop.frames, Loop.start, ms]

/-! ### The frames in the match -/

/-- The variables apart from the time of the next KEEPALIVE, which the match does not
read. -/
def Conn.timeless (c : Conn) : Conn := { c with nextKeepalive := 0 }

/-- The KEEPALIVE timer is a matter of time. -/
theorem timeless_update (c : Conn) (nextKeepalive : ℕ) :
    Conn.timeless { c with nextKeepalive := nextKeepalive } = c.timeless := rfl

/-- The match on a frame, up to the time of the next KEEPALIVE. -/
theorem dispatch_timeless (config : Config) {c c' : Conn} (h : c.timeless = c'.timeless)
    (now : ℕ) (f : Frame) :
    (dispatch config now c f).map (fun r => (r.1.timeless, r.2))
      = (dispatch config now c' f).map fun r => (r.1.timeless, r.2) := by
  obtain ⟨hold, receivedOpen, established, asnLen, deadline, nextKeepalive⟩ := c
  obtain ⟨hold', receivedOpen', established', asnLen', deadline', nextKeepalive'⟩ := c'
  simp only [Conn.timeless, Conn.mk.injEq, and_true] at h
  obtain ⟨rfl, rfl, rfl, rfl, rfl⟩ := h
  -- an OPEN sets the time anew
  have hopen : onOpen config now ⟨hold, receivedOpen, established, asnLen, deadline, nextKeepalive⟩
      f.body = onOpen config now
        ⟨hold, receivedOpen, established, asnLen, deadline, nextKeepalive'⟩ f.body := rfl
  unfold dispatch
  dsimp only
  rw [hopen]
  split_ifs
  · rfl
  · rfl
  · rfl
  · cases Wire.update f.body asnLen <;> rfl
  · rfl
  · rfl

/-- What a frame does depends on no timer, and so does the next connection. -/
theorem onFrame_timeless (config : Config) {c c' : Conn} (h : c.timeless = c'.timeless)
    (a : Arrival) :
    (onFrame config c a).map (fun r => (r.1.timeless, r.2))
      = (onFrame config c' a).map fun r => (r.1.timeless, r.2) := by
  have hturn : ∀ c : Conn, (onFrame config c a).map (fun r => (r.1.timeless, r.2))
      = ((dispatch config a.now c a.frame).map fun r => (r.1.timeless, r.2)).map fun r =>
        (if r.1.hold > 0 then { r.1 with deadline := a.now + fromSecs r.1.hold } else r.1,
          r.2) := by
    intro c
    unfold onFrame
    -- a number of nanoseconds is not to be computed
    generalize fromSecs = secs
    cases dispatch config a.now c a.frame with
    | error => rfl
    | ok r =>
      change Except.ok (Conn.timeless (if r.1.hold > 0 then
          { r.1 with deadline := a.now + secs r.1.hold } else r.1), r.2)
        = Except.ok (if r.1.hold > 0 then { r.1.timeless with deadline := a.now + secs r.1.hold }
          else r.1.timeless, r.2)
      rw [apply_ite Conn.timeless]
      rfl
  rw [hturn, hturn, dispatch_timeless config h]

/-- How the loop stands to the match on the frames that it has handed over. -/
structure Matched (config : Config) (now : ℕ) (l : Loop) : Prop where
  effects : (connected config now l.handed).1.Sublist l.effects
  refused : ∀ error, l.ended = some (.refused error) →
    (connected config now l.handed).2 = .error error
  goesOn : (∀ error, l.ended ≠ some (.refused error)) →
    ∃ c, (connected config now l.handed).2 = .ok c ∧ c.timeless = l.conn.timeless

/-- One more frame is taken behind the others, or refused. -/
theorem connected_concat {config : Config} {now : ℕ} {w : List Arrival} {c : Conn}
    (h : (connected config now w).2 = .ok c) (a : Arrival) :
    (∀ c' out, onFrame config c a = .ok (c', out) →
      connected config now (w ++ [a]) = ((connected config now w).1 ++ out, .ok c')) ∧
    ∀ error, onFrame config c a = .error error →
      connected config now (w ++ [a]) = ((connected config now w).1, .error error) := by
  have hrun : Acceptor.run (onFrame config) (Conn.start config now) w
      = ((Acceptor.run (onFrame config) (Conn.start config now) w).1, .ok c) := Prod.ext rfl h
  unfold connected
  dsimp only
  rw [Acceptor.run_append_ok hrun]
  constructor
  · intro c' out ha
    rw [Acceptor.run_cons_ok ha, Acceptor.run, List.append_nil, List.append_assoc]
  · intro error ha
    rw [Acceptor.run_cons_error ha, List.append_nil]

/-- A frame is handed over. -/
theorem Matched.hand {config : Config} {now : ℕ} {l : Loop} (h : Matched config now l)
    (hrun : l.ended = none) (a : Arrival) :
    (∀ conn out, onFrame config l.conn a = .ok (conn, out) →
      ∃ c, connected config now (l.handed ++ [a])
        = ((connected config now l.handed).1 ++ out, .ok c) ∧ c.timeless = conn.timeless) ∧
    ∀ error, onFrame config l.conn a = .error error →
      connected config now (l.handed ++ [a])
        = ((connected config now l.handed).1, .error error) := by
  obtain ⟨c, hc, htime⟩ := h.goesOn (by simp [hrun])
  -- the loop's connection and the one of `connected` differ in their clocks only
  have hsame := onFrame_timeless config htime a
  obtain ⟨hok, herror⟩ := connected_concat hc a
  constructor
  · intro conn out ha
    rw [ha] at hsame
    -- both accept the frame or both refuse it
    cases hc' : onFrame config c a with
    | error error =>
      rw [hc'] at hsame
      cases hsame
    | ok r =>
      rw [hc'] at hsame
      obtain ⟨htime', rfl⟩ := Prod.mk.inj (Except.ok.inj hsame)
      exact ⟨r.1, hok r.1 r.2 hc', htime'⟩
  · intro error ha
    rw [ha] at hsame
    cases hc' : onFrame config c a with
    | error error' =>
      rw [hc'] at hsame
      cases hsame
      exact herror error hc'
    | ok r =>
      rw [hc'] at hsame
      cases hsame

/-- **The match is that of `connected`**: on the frames that it is given it does what
`connected` does, and KEEPALIVEs are written in between. -/
theorem readLoop_connected {config : Config} {now : ℕ} {ls : List LoopEvent} {l : Loop}
    (h : (readLoop config now).Run (.start config now) ls l) : Matched config now l := by
  induction h with
  | nil =>
    refine ⟨?_, nofun, fun _ => ⟨.start config now, rfl, rfl⟩⟩
    rw [show (connected config now (Loop.start config now).handed).1 = startEffects config ++ []
      from rfl, List.append_nil]
    exact List.Sublist.refl _
  | @snoc ls l l' ev _ hstep ih =>
    cases hstep with
    | frame hrun hreading hgot hok =>
      -- `connected` takes the frame, too
      obtain ⟨c, hc, htime⟩ := (ih.hand hrun _).1 _ _ hok
      refine ⟨?_, ?_, fun _ => ⟨c, ?_, htime⟩⟩
      · rw [hc]
        exact ih.effects.append (List.Sublist.refl _)
      · intro error he
        simp [hrun] at he
      · rw [hc]
    | refused hrun hreading hgot herror =>
      -- and it refuses what the loop refuses
      have hc := (ih.hand hrun _).2 _ herror
      refine ⟨?_, ?_, fun hne => absurd rfl (hne _)⟩
      · rw [hc]
        exact ih.effects
      · intro error he
        rw [hc]
        cases he
        rfl
    | arrive | pullHeader | pullBody | header => exact ⟨ih.effects, ih.refused, ih.goesOn⟩
    | keepalive hrun =>
      refine ⟨ih.effects.trans (List.sublist_append_left _ _), ih.refused, fun hne => ?_⟩
      obtain ⟨c, hc, htime⟩ := ih.goesOn hne
      exact ⟨c, hc, htime.trans (timeless_update l.conn _).symm⟩
    | badHeader hrun | expire hrun | lose hrun =>
      exact ⟨ih.effects, fun error he => by simp at he, fun _ => ih.goesOn (by simp [hrun])⟩

/-- An OPEN and a KEEPALIVE that arrive in two chunks; between the two, in the middle of the
second header, a KEEPALIVE is due. -/
theorem readLoop_framed_partial : ∃ ms ls l, Framed sampleConfig 0 ms [] ls l ∧
    .keepalive 0 ∈ ls ∧ arrivedOf ls = encode ms ∧ l.handed.length = 2 := by
  let body := (Wire.buildOpen 65001 30 [192, 0, 2, 1]).drop 19
  let ms : List Frame := [⟨1, body⟩, ⟨4, []⟩]
  have hbody : body.length ≤ 4077 := by decide
  -- the OPEN and eight octets
  let chunk := Wire.message 1 body ++ (Wire.message 4 []).take 8
  have harrive : (readLoop sampleConfig 0).Run (.start sampleConfig 0) [.arrive chunk]
      { Loop.start sampleConfig 0 with buffer := chunk } := .single .arrive
  obtain ⟨ls₁, hreads₁, hls₁⟩ := reads_message sampleConfig 0
    (l := { Loop.start sampleConfig 0 with buffer := chunk })
    (show _ = none from rfl) (show _ = Reading.header [] from rfl) (by decide) hbody
    (show [] ++ chunk = Wire.message 1 body ++ (Wire.message 4 []).take 8 from rfl)
  have hopen := (harrive.append hreads₁).snoc (.frame rfl rfl rfl sampleConn_open)
  have hpull := hopen.snoc (.pullHeader (n := 8) rfl rfl (by decide) (by decide) (by decide))
  have hkeepalive := hpull.snoc (l := LoopEvent.keepalive 0) (.keepalive rfl rfl (by decide))
  -- the other eleven
  have harrive₂ := hkeepalive.snoc (l := LoopEvent.arrive ((Wire.message 4 []).drop 8)) .arrive
  obtain ⟨ls, l, hrun, hmem, harrived, hended, hreading, hbuffer, hconn, hhanded⟩ :
      ∃ ls l, (readLoop sampleConfig 0).Run (.start sampleConfig 0) ls l ∧ .keepalive 0 ∈ ls ∧
        arrivedOf ls = encode ms ∧ l.ended = none ∧
        l.reading = .header ((Wire.message 4 []).take 8) ∧
        l.buffer = (Wire.message 4 []).drop 8 ∧
        l.conn = { sampleConn with
          nextKeepalive := 0 + fromSecs (keepalivePeriod sampleConn.hold) } ∧
        l.handed.length = 1 := by
    refine ⟨_, _, harrive₂, by simp, ?_, rfl, rfl, rfl, rfl, rfl⟩
    simp only [arrivedOf_append, arrivedOf_reads hls₁]
    rfl
  obtain ⟨ls₂, hreads₂, hls₂⟩ := reads_message sampleConfig 0 hended hreading (by decide)
    (show ([] : Bytes).length ≤ 4077 by decide)
    (show _ = Wire.message 4 [] ++ [] by rw [hbuffer]; rfl)
  have htaken : onFrame sampleConfig l.conn ⟨0, 4, []⟩
      = .ok ({ l.conn with established := true }, [.setState .established]) := by
    rw [hconn]
    decide
  have hkept := (hrun.append hreads₂).snoc (.frame hended rfl rfl htaken)
  refine ⟨ms, _, _, readLoop_framed ?_ (Or.inl rfl) hkept, by simp [hmem], ?_, ?_⟩
  · intro m hm
    rcases List.mem_cons.mp hm with rfl | hm
    · exact hbody
    · rw [List.mem_singleton.mp hm]
      decide
  · rw [arrivedOf_append, arrivedOf_append, arrivedOf_reads hls₂, harrived]
    simp [arrivedOf]
  · simp [hhanded]

end Session
