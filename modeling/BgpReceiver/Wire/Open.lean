import BgpReceiver.Wire.Basic

/-!
# What the OPEN decoder accepts

An OPEN body is a base of ten octets, optional parameters of the length that the base
names, and whatever follows. A parameter of type 2 is a list of capabilities. `RawOpen`
is that content and `RawOpen.Enc` its octets; `RawOpen.Capabilities` lists the
capabilities of all parameters, in order.

`open` succeeds exactly on the encodings of a content with version 4, an admissible hold
time and parameters that can be taken apart (`parseOpen_ok_iff`). The ASN is that of the
last four-octet ASN capability if there is one (`PeerAsn.of`), and otherwise that of the
base, whatever else the parameters hold (`openMessage_grammar`).
-/

namespace Wire

/-! ### Capabilities -/

/-- A four-octet ASN capability. -/
def IsAsn4 (cap : UInt8 × Bytes) : Prop := cap.1 = 65 ∧ cap.2.length = 4

instance : DecidablePred IsAsn4 := fun _ => inferInstanceAs (Decidable (_ ∧ _))

/-- The ASN after some capabilities. -/
def PeerAsn.of (acc : PeerAsn) (caps : List (UInt8 × Bytes)) : PeerAsn :=
  match (caps.filter (IsAsn4 ·)).getLast? with
  | some cap => ⟨fromBeBytes cap.2, true⟩
  | none => acc

/-- Capabilities are gone through one after the other. -/
theorem PeerAsn.of_append (acc : PeerAsn) (caps caps' : List (UInt8 × Bytes)) :
    acc.of (caps ++ caps') = (acc.of caps).of caps' := by
  unfold PeerAsn.of
  rw [List.filter_append, List.getLast?_append]
  cases (caps'.filter (IsAsn4 ·)).getLast? <;> rfl

/-- The last four-octet ASN capability decides. -/
theorem PeerAsn.of_last (acc : PeerAsn) {before after : List (UInt8 × Bytes)}
    {cap : UInt8 × Bytes} (hcap : IsAsn4 cap) (hafter : ∀ c ∈ after, ¬ IsAsn4 c) :
    acc.of (before ++ cap :: after) = ⟨fromBeBytes cap.2, true⟩ := by
  have hnone : after.filter (IsAsn4 ·) = [] :=
    List.filter_eq_nil_iff.mpr fun c hc h => hafter c hc (of_decide_eq_true h)
  unfold PeerAsn.of
  rw [List.filter_append, List.filter_cons_of_pos (by simpa using hcap), hnone,
    List.getLast?_append]
  rfl

/-- Other capabilities leave the ASN alone. -/
theorem PeerAsn.of_none (acc : PeerAsn) {caps : List (UInt8 × Bytes)}
    (h : ∀ c ∈ caps, ¬ IsAsn4 c) : acc.of caps = acc := by
  unfold PeerAsn.of
  rw [List.filter_eq_nil_iff.mpr fun c hc hd => h c hc (of_decide_eq_true hd)]
  rfl

/-- The loop over the capabilities does not fail. -/
theorem foldlM_capabilityStep (caps : List (UInt8 × Bytes)) (acc : PeerAsn) :
    caps.foldlM capabilityStep acc = .ok (acc.of caps) := by
  induction caps generalizing acc with
  | nil => rfl
  | cons cap caps ih =>
    -- one capability, and then the rest from what it leaves
    have hstep : capabilityStep acc cap = .ok (acc.of [cap]) := by
      unfold capabilityStep PeerAsn.of
      by_cases h : IsAsn4 cap
      · rw [if_pos (show cap.1 = 65 ∧ cap.2.length = 4 from h),
          List.filter_cons_of_pos (by simpa using h)]
        rfl
      · rw [if_neg (show ¬ (cap.1 = 65 ∧ cap.2.length = 4) from h),
          List.filter_cons_of_neg (by simpa using h)]
        rfl
    have hof : acc.of (cap :: caps) = (acc.of [cap]).of caps := acc.of_append [cap] caps
    rw [List.foldlM_cons, hstep, hof]
    exact ih (acc.of [cap])

/-- The capabilities of some parameters, in order; a parameter of another type has
none. -/
inductive CapabilitiesOf : List (UInt8 × Bytes) → List (UInt8 × Bytes) → Prop
  | nil : CapabilitiesOf [] []
  | skip {param : UInt8 × Bytes} {params caps : List (UInt8 × Bytes)} :
      param.1 ≠ 2 → CapabilitiesOf params caps → CapabilitiesOf (param :: params) caps
  | take {param : UInt8 × Bytes} {params caps caps' : List (UInt8 × Bytes)} :
      param.1 = 2 → Reader.EncAll TlvEnc caps param.2 → CapabilitiesOf params caps' →
      CapabilitiesOf (param :: params) (caps ++ caps')

/-- A parameter of another type is passed over; one of capabilities is gone through, when it is well
formed. -/
theorem parameterStep_ok_iff {acc acc' : PeerAsn} {param : UInt8 × Bytes} :
    parameterStep acc param = .ok acc' ↔ (param.1 ≠ 2 ∧ acc' = acc) ∨
      (param.1 = 2 ∧ ∃ caps, Reader.EncAll TlvEnc caps param.2 ∧ acc' = acc.of caps) := by
  unfold parameterStep
  by_cases h : param.1 = 2
  · rw [if_neg (not_not.mpr h), Reader.drain_ok_iff tlv_consumes]
    simp only [tlv_exact.items_iff TlvEnc.ne_nil, foldlM_capabilityStep, Except.ok.injEq, h,
      true_and, ne_eq, not_true_eq_false, false_and, false_or, eq_comm]
  · rw [if_pos h]
    simp [h, eq_comm]

/-- **The loop over the parameters.** -/
theorem foldlM_parameterStep_ok_iff {params : List (UInt8 × Bytes)} {acc acc' : PeerAsn} :
    params.foldlM parameterStep acc = .ok acc' ↔
      ∃ caps, CapabilitiesOf params caps ∧ acc' = acc.of caps := by
  induction params generalizing acc with
  | nil =>
    refine ⟨fun h => ⟨[], .nil, (Except.ok.inj h).symm⟩, fun h => ?_⟩
    obtain ⟨caps, hc, rfl⟩ := h
    cases hc
    rfl
  | cons param params ih =>
    -- the first parameter, and then the others from what it leaves
    rw [List.foldlM_cons, Reader.bind_eq_ok_iff]
    refine ⟨fun h => ?_, fun h => ?_⟩
    · obtain ⟨acc₁, h₁, h₂⟩ := h
      obtain ⟨caps', hc, rfl⟩ := ih.mp h₂
      rcases parameterStep_ok_iff.mp h₁ with ⟨hne, rfl⟩ | ⟨htwo, caps, henc, rfl⟩
      · exact ⟨caps', .skip hne hc, rfl⟩
      · exact ⟨caps ++ caps', .take htwo henc hc, (acc.of_append caps caps').symm⟩
    · obtain ⟨caps, hc, rfl⟩ := h
      cases hc with
      | skip hne hc =>
        exact ⟨acc, parameterStep_ok_iff.mpr (Or.inl ⟨hne, rfl⟩), ih.mpr ⟨caps, hc, rfl⟩⟩
      | @take _ _ caps caps' htwo henc hc =>
        refine ⟨acc.of caps, parameterStep_ok_iff.mpr (Or.inr ⟨htwo, caps, henc, rfl⟩), ?_⟩
        exact ih.mpr ⟨caps', hc, acc.of_append caps caps'⟩

/-! ### The whole body -/

/-- The content of an OPEN. -/
structure RawOpen where
  base : Bytes
  params : List (UInt8 × Bytes)
  trailing : Bytes

namespace RawOpen

/-- The octets of an OPEN body. -/
def Enc (r : RawOpen) (body : Bytes) : Prop :=
  r.base.length = 10 ∧ ∃ octets, Reader.EncAll TlvEnc r.params octets ∧
    octets.length = r.base[9]!.toNat ∧ body = r.base ++ (octets ++ r.trailing)

/-- The hold time of an OPEN. -/
def holdTime (r : RawOpen) : ℕ := fromBeBytes [r.base[3]!, r.base[4]!]

/-- The base is one of version 4 with an admissible hold time. -/
def Valid (r : RawOpen) : Prop := r.base[0]! = 4 ∧ (r.holdTime = 0 ∨ 3 ≤ r.holdTime)

/-- What an OPEN with some capabilities tells of the peer. -/
def info (r : RawOpen) (caps : List (UInt8 × Bytes)) : OpenInfo :=
  let peer := PeerAsn.of ⟨fromBeBytes [r.base[1]!, r.base[2]!], false⟩ caps
  ⟨peer.asn, r.holdTime, [r.base[5]!, r.base[6]!, r.base[7]!, r.base[8]!], peer.as4⟩

/-- A four-octet ASN capability makes the difference between the widths. -/
theorem info_supports (r : RawOpen) (caps : List (UInt8 × Bytes)) :
    (r.info caps).supports4ByteAsn = true ↔ ∃ cap ∈ caps, IsAsn4 cap := by
  change (PeerAsn.of _ caps).as4 = true ↔ _
  unfold PeerAsn.of
  cases h : (caps.filter (IsAsn4 ·)).getLast? with
  | none =>
    have hnil := List.filter_eq_nil_iff.mp (List.getLast?_eq_none_iff.mp h)
    refine iff_of_false (by simp) fun hex => ?_
    obtain ⟨cap, hm, hc⟩ := hex
    exact hnil cap hm (by simpa using hc)
  | some cap =>
    have hm := List.mem_filter.mp (List.mem_of_getLast? h)
    exact iff_of_true rfl ⟨cap, hm.1, by simpa using hm.2⟩

end RawOpen

/-- **What `open` accepts.** -/
theorem parseOpen_ok_iff {body : Bytes} {info : OpenInfo} :
    parseOpen body = .ok info ↔ ∃ r : RawOpen, r.Enc body ∧ r.Valid ∧
      ∃ caps, CapabilitiesOf r.params caps ∧ info = r.info caps := by
  unfold parseOpen
  simp only [Reader.bind_eq_ok_iff]
  refine ⟨fun h => ?_, fun h => ?_⟩
  · obtain ⟨⟨base, rest⟩, hb, h⟩ := h
    obtain ⟨rfl, hlen⟩ := take_ok_iff.mp hb
    -- the guard on the version and the hold time
    by_cases hv : base[0]! ≠ 4 ∨
        (fromBeBytes [base[3]!, base[4]!] ≠ 0 ∧ fromBeBytes [base[3]!, base[4]!] < 3)
    · simp only [if_pos hv] at h
      exact absurd h (by simp [throw, throwThe, MonadExceptOf.throw])
    · simp only [if_neg hv, Reader.bind_eq_ok_iff] at h
      obtain ⟨⟨params, trailing⟩, hp, peer, hd, h⟩ := h
      obtain ⟨rfl, hplen⟩ := take_ok_iff.mp hp
      obtain rfl := Except.ok.inj h
      obtain ⟨items, hi, hf⟩ := (Reader.drain_ok_iff tlv_consumes).mp hd
      obtain ⟨caps, hc, rfl⟩ := foldlM_parameterStep_ok_iff.mp hf
      have hi := (tlv_exact.items_iff TlvEnc.ne_nil).mp hi
      refine ⟨⟨base, items, trailing⟩, ⟨hlen, params, hi, hplen, rfl⟩, ?_, caps, hc, rfl⟩
      obtain ⟨hversion, hhold⟩ := not_or.mp hv
      refine ⟨not_not.mp hversion, ?_⟩
      change fromBeBytes [base[3]!, base[4]!] = 0 ∨ 3 ≤ fromBeBytes [base[3]!, base[4]!]
      omega
  · obtain ⟨⟨base, items, trailing⟩, ⟨hlen, params, hi, hplen, rfl⟩, ⟨hversion, hhold⟩, caps, hc,
      rfl⟩ := h
    refine ⟨(base, params ++ trailing), take_ok_iff.mpr ⟨rfl, hlen⟩, ?_⟩
    have hv : ¬ (base[0]! ≠ 4 ∨
        (fromBeBytes [base[3]!, base[4]!] ≠ 0 ∧ fromBeBytes [base[3]!, base[4]!] < 3)) := by
      change fromBeBytes [base[3]!, base[4]!] = 0 ∨ 3 ≤ fromBeBytes [base[3]!, base[4]!] at hhold
      refine not_or.mpr ⟨not_not.mpr hversion, ?_⟩
      omega
    simp only [if_neg hv, Reader.bind_eq_ok_iff]
    refine ⟨(params, trailing), take_ok_iff.mpr ⟨rfl, hplen⟩, _, ?_, rfl⟩
    exact (Reader.drain_ok_iff tlv_consumes).mpr
      ⟨items, (tlv_exact.items_iff TlvEnc.ne_nil).mpr hi,
        foldlM_parameterStep_ok_iff.mpr ⟨caps, hc, rfl⟩⟩

theorem openMessage_ok_iff {body : Bytes} {v : Json} :
    openMessage body = .ok v ↔ ∃ info, parseOpen body = .ok info ∧ v = info.toJson := by
  unfold openMessage
  cases parseOpen body with
  | error e => simp [Except.map]
  | ok info => simp [Except.map, eq_comm]

/-- **`open` accepts its grammar, and the last four-octet ASN decides.** A body is accepted
exactly when it is a base with version 4 and an admissible hold time, parameters of the
length that the base names, in which the capabilities can be taken apart, and anything. The
ASN is that of the last capability 65 of four octets if there is one, and otherwise that of
the base. -/
theorem openMessage_grammar (body : Bytes) :
    ((∃ v, openMessage body = .ok v) ↔
      ∃ (r : RawOpen) (caps : List (UInt8 × Bytes)),
        r.Enc body ∧ r.Valid ∧ CapabilitiesOf r.params caps) ∧
    ∀ (r : RawOpen) (caps : List (UInt8 × Bytes)), r.Enc body → r.Valid →
      CapabilitiesOf r.params caps → ∃ asn as4,
        openMessage body = .ok (.object [("version", .num 4), ("peer_as", .num asn),
          ("hold_time", .num r.holdTime),
          ("router_id", .str (IpAddr.ipv4Text [r.base[5]!, r.base[6]!, r.base[7]!, r.base[8]!])),
          ("supports_4byte_asn", .bool as4)]) ∧
        (∀ before cap after, caps = before ++ cap :: after → IsAsn4 cap →
          (∀ c ∈ after, ¬ IsAsn4 c) → asn = fromBeBytes cap.2 ∧ as4 = true) ∧
        ((∀ c ∈ caps, ¬ IsAsn4 c) →
          asn = fromBeBytes [r.base[1]!, r.base[2]!] ∧ as4 = false) := by
  -- an accepted body has one value, that of any reading of it
  have hread : ∀ (r : RawOpen) (caps : List (UInt8 × Bytes)), r.Enc body → r.Valid →
      CapabilitiesOf r.params caps → openMessage body = .ok (r.info caps).toJson := by
    intro r caps henc hvalid hcaps
    exact openMessage_ok_iff.mpr
      ⟨r.info caps, parseOpen_ok_iff.mpr ⟨r, henc, hvalid, caps, hcaps, rfl⟩, rfl⟩
  refine ⟨⟨fun h => ?_, fun h => ?_⟩, fun r caps henc hvalid hcaps => ?_⟩
  · obtain ⟨v, hv⟩ := h
    obtain ⟨info, hinfo, -⟩ := openMessage_ok_iff.mp hv
    obtain ⟨r, henc, hvalid, caps, hcaps, -⟩ := parseOpen_ok_iff.mp hinfo
    exact ⟨r, caps, henc, hvalid, hcaps⟩
  · obtain ⟨r, caps, henc, hvalid, hcaps⟩ := h
    exact ⟨_, hread r caps henc hvalid hcaps⟩
  · refine ⟨_, _, hread r caps henc hvalid hcaps, ?_, ?_⟩
    · rintro before cap after rfl hcap hafter
      simp only [RawOpen.info, PeerAsn.of_last _ hcap hafter, and_self]
    · intro hnone
      simp only [RawOpen.info, PeerAsn.of_none _ hnone, and_self]

end Wire
