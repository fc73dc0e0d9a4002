import BgpReceiver.Wire.Update

/-!
# What the UPDATE decoder accepts

An UPDATE body is a Withdrawn Routes field, a list of path attributes and a
trailing NLRI field. `RawUpdate` is that content, `RawUpdate.Enc` its octets: each
of the first two sections stands behind its length, and an attribute has a
one-octet or a two-octet length according to its flags.

The main result is `parseUpdate_ok_iff`: `update` succeeds exactly on the encodings
of a content whose attributes the loop takes and whose classic fields decode. It
turns every question about the octets of an accepted message into one about its
content, and the loop into a fold over a list of attributes.
-/

namespace Wire

/-! ### Lengths -/

/-- A number of two octets is read exactly. -/
theorem u16At_exact :
    Reader.Exact u16At fun n octets => n < 65536 ∧ octets = u16ToBeBytes n := by
  intro data n rest
  rw [u16At_ok_iff]
  constructor
  · rintro ⟨hi, lo, rfl, rfl⟩
    have hhi := hi.toNat_lt
    have hlo := lo.toNat_lt
    refine ⟨[hi, lo], ⟨by omega, ?_⟩, rfl⟩
    -- the two octets are the number divided by 256 and its rest
    have h₁ : (hi.toNat * 256 + lo.toNat) / 256 = hi.toNat := by omega
    have h₂ : (hi.toNat * 256 + lo.toNat) % 256 = lo.toNat := by omega
    simp only [u16ToBeBytes, h₁, UInt8.ofNat_toNat, List.cons.injEq, and_true, true_and]
    apply UInt8.toNat_inj.mp
    rw [UInt8.toNat_ofNat', h₂]
  · rintro ⟨_, ⟨hlt, rfl⟩, rfl⟩
    refine ⟨UInt8.ofNat (n / 256), UInt8.ofNat n, rfl, ?_⟩
    rw [UInt8.toNat_ofNat', UInt8.toNat_ofNat']
    omega

/-- A number is read from in front of anything. -/
theorem u16At_append {n : ℕ} (h : n < 65536) (rest : Bytes) :
    u16At (u16ToBeBytes n ++ rest) = .ok (n, rest) :=
  (u16At_exact _ _ _).mpr ⟨_, ⟨h, rfl⟩, rfl⟩

/-- So are octets, when their number is known. -/
theorem take_append (head rest : Bytes) : take head.length (head ++ rest) = .ok (head, rest) :=
  take_ok_iff.mpr ⟨rfl, rfl⟩

/-! ### Attributes -/

/-- The octets of an attribute. -/
def RawAttr.Enc (a : RawAttr) (octets : Bytes) : Prop :=
  if a.flags &&& 16 ≠ 0 then
    a.data.length < 65536 ∧ octets = a.flags :: a.code :: (u16ToBeBytes a.data.length ++ a.data)
  else
    a.data.length < 256 ∧ octets = a.flags :: a.code :: UInt8.ofNat a.data.length :: a.data

theorem RawAttr.Enc.ne_nil (a : RawAttr) (octets : Bytes) (h : a.Enc octets) : octets ≠ [] := by
  unfold RawAttr.Enc at h
  split_ifs at h <;> rw [h.2] <;> simp

/-- The octets of an attribute's length. -/
def LengthEnc (flags : UInt8) (n : ℕ) (octets : Bytes) : Prop :=
  if flags &&& 16 ≠ 0 then n < 65536 ∧ octets = u16ToBeBytes n
  else n < 256 ∧ octets = [UInt8.ofNat n]

/-- The length of an attribute is read exactly, with one octet or two by its flags. -/
theorem attrLength_exact (flags : UInt8) : Reader.Exact (attrLength flags) (LengthEnc flags) := by
  intro data n rest
  unfold attrLength LengthEnc
  -- an extended length has two octets, and any other has one
  split_ifs with hf
  · exact u16At_exact data n rest
  · simp only [Reader.bind_eq_ok_iff]
    constructor
    · rintro ⟨⟨b, data₁⟩, hb, hr⟩
      obtain ⟨rfl, rfl⟩ := Prod.mk.inj (Except.ok.inj hr)
      obtain rfl := byteAt_ok_iff.mp hb
      exact ⟨_, ⟨b.toNat_lt, rfl⟩, by simp⟩
    · rintro ⟨_, ⟨hlt, rfl⟩, rfl⟩
      refine ⟨(UInt8.ofNat n, rest), byteAt_ok_iff.mpr rfl, ?_⟩
      simp [pure, Except.pure, Nat.mod_eq_of_lt hlt]

/-- An attribute is its flags and code, its length and its octets. -/
theorem RawAttr.enc_iff {a : RawAttr} {octets : Bytes} :
    a.Enc octets ↔ ∃ len, LengthEnc a.flags a.data.length len ∧
      octets = [a.flags, a.code] ++ len ++ a.data := by
  unfold RawAttr.Enc LengthEnc
  split_ifs
  · constructor
    · rintro ⟨h, rfl⟩
      exact ⟨_, ⟨h, rfl⟩, rfl⟩
    · rintro ⟨_, ⟨h, rfl⟩, rfl⟩
      exact ⟨h, rfl⟩
  · constructor
    · rintro ⟨h, rfl⟩
      exact ⟨_, ⟨h, rfl⟩, rfl⟩
    · rintro ⟨_, ⟨h, rfl⟩, rfl⟩
      exact ⟨h, rfl⟩

/-- **An attribute is read exactly.** -/
theorem rawAttr_exact : Reader.Exact rawAttr RawAttr.Enc := by
  rintro data ⟨flags, code, value⟩ rest
  unfold rawAttr
  simp only [Reader.bind_eq_ok_iff, RawAttr.enc_iff]
  constructor
  · rintro ⟨⟨head, data₁⟩, h₁, ⟨n, data₂⟩, h₂, ⟨value', data₃⟩, h₃, hr⟩
    obtain ⟨rfl, hlen⟩ := take_ok_iff.mp h₁
    -- flags and code, a length, and as many octets
    obtain ⟨f, k, rfl⟩ := List.length_eq_two.mp hlen
    obtain ⟨rfl, rfl⟩ := take_ok_iff.mp h₃
    obtain ⟨len, henc, rfl⟩ := (attrLength_exact _ _ _ _).mp h₂
    obtain ⟨he, rfl⟩ := Prod.mk.inj (Except.ok.inj hr)
    obtain ⟨rfl, rfl, rfl⟩ := RawAttr.mk.inj he
    exact ⟨_, ⟨len, henc, rfl⟩, by simp⟩
  · rintro ⟨_, ⟨len, henc, rfl⟩, rfl⟩
    refine ⟨([flags, code], len ++ (value ++ rest)), ?_, (value.length, value ++ rest),
      (attrLength_exact _ _ _ _).mpr ⟨len, henc, rfl⟩, (value, rest), take_append value rest, rfl⟩
    rw [List.append_assoc, List.append_assoc]
    exact take_append [flags, code] _

theorem rawAttr_consumes : Reader.Consumes rawAttr := rawAttr_exact.consumes RawAttr.Enc.ne_nil

/-! ### The message -/

/-- The content of an UPDATE body. -/
structure RawUpdate where
  withdrawn : Bytes
  attrs : List RawAttr
  nlri : Bytes

/-- The octets of an UPDATE body. -/
def RawUpdate.Enc (r : RawUpdate) (body : Bytes) : Prop :=
  ∃ attrs, Reader.EncAll RawAttr.Enc r.attrs attrs ∧
    r.withdrawn.length < 65536 ∧ attrs.length < 65536 ∧
    body = u16ToBeBytes r.withdrawn.length ++ r.withdrawn ++ u16ToBeBytes attrs.length ++ attrs
      ++ r.nlri

/-- The two sections with a length, and what is behind them. -/
def sections (body : Bytes) : Except String (Bytes × Bytes × Bytes) := do
  let (len, body) ← u16At body
  let (withdrawn, body) ← take len body
  let (len, body) ← u16At body
  let (attrs, nlri) ← take len body
  return (withdrawn, attrs, nlri)

/-- A body is cut at the two lengths that it says. -/
theorem sections_ok_iff {body withdrawn attrs nlri : Bytes} :
    sections body = .ok (withdrawn, attrs, nlri) ↔
      withdrawn.length < 65536 ∧ attrs.length < 65536 ∧
        body = u16ToBeBytes withdrawn.length ++ withdrawn ++ u16ToBeBytes attrs.length ++ attrs
          ++ nlri := by
  unfold sections
  simp only [Reader.bind_eq_ok_iff]
  constructor
  · rintro ⟨⟨n, b₁⟩, h₁, ⟨w, b₂⟩, h₂, ⟨m, b₃⟩, h₃, ⟨as, b₄⟩, h₄, hr⟩
    -- each length is that of the octets behind it
    obtain ⟨rfl, rfl⟩ := take_ok_iff.mp h₂
    obtain ⟨rfl, rfl⟩ := take_ok_iff.mp h₄
    obtain ⟨_, ⟨hn, rfl⟩, rfl⟩ := (u16At_exact _ _ _).mp h₁
    obtain ⟨_, ⟨hm, rfl⟩, rfl⟩ := (u16At_exact _ _ _).mp h₃
    obtain ⟨rfl, h⟩ := Prod.mk.inj (Except.ok.inj hr)
    obtain ⟨rfl, rfl⟩ := Prod.mk.inj h
    exact ⟨hn, hm, by simp⟩
  · rintro ⟨hn, hm, rfl⟩
    refine ⟨(withdrawn.length, withdrawn ++ (u16ToBeBytes attrs.length ++ (attrs ++ nlri))), ?_,
      (withdrawn, u16ToBeBytes attrs.length ++ (attrs ++ nlri)), take_append withdrawn _,
      (attrs.length, attrs ++ nlri), u16At_append hm _, (attrs, nlri), take_append attrs nlri, rfl⟩
    rw [show u16ToBeBytes withdrawn.length ++ withdrawn ++ u16ToBeBytes attrs.length ++ attrs
        ++ nlri
      = u16ToBeBytes withdrawn.length
        ++ (withdrawn ++ (u16ToBeBytes attrs.length ++ (attrs ++ nlri)))
      by simp]
    exact u16At_append hn _

/-- A body encodes a message when its sections are read as the parts of the message. -/
theorem RawUpdate.enc_iff {r : RawUpdate} {body : Bytes} :
    r.Enc body ↔ ∃ attrs, sections body = .ok (r.withdrawn, attrs, r.nlri) ∧
      Reader.Items rawAttr attrs r.attrs := by
  unfold RawUpdate.Enc
  refine exists_congr fun attrs => ?_
  rw [sections_ok_iff, rawAttr_exact.items_iff RawAttr.Enc.ne_nil]
  tauto

/-- An UPDATE body is the encoding of one content only. -/
theorem RawUpdate.Enc.unique {r r' : RawUpdate} {body : Bytes} (h : r.Enc body)
    (h' : r'.Enc body) : r = r' := by
  obtain ⟨attrs, hs, hi⟩ := RawUpdate.enc_iff.mp h
  obtain ⟨attrs', hs', hi'⟩ := RawUpdate.enc_iff.mp h'
  rw [hs] at hs'
  obtain ⟨hw, he⟩ := Prod.mk.inj (Except.ok.inj hs')
  obtain ⟨rfl, hn⟩ := Prod.mk.inj he
  have ha := hi.unique hi'
  obtain ⟨w, as, n⟩ := r
  obtain ⟨w', as', n'⟩ := r'
  simp only at hw hn ha
  rw [hw, hn, ha]

/-- **What `update` accepts.** The body is the encoding of a content whose
attributes the loop takes one after the other, and whose classic fields decode. -/
theorem parseUpdate_ok_iff {body : Bytes} {asnLen : ℕ} {acc : UpdateAcc} :
    parseUpdate body asnLen = .ok acc ↔
      (asnLen = 2 ∨ asnLen = 4) ∧ ∃ r : RawUpdate, r.Enc body ∧
        ∃ walked, r.attrs.foldlM (attrStep asnLen) UpdateAcc.empty = .ok walked ∧
          ∃ acc₁, classicWithdraw (replaceNextHop walked) r.withdrawn = .ok acc₁ ∧
            classicAnnounce acc₁ r.nlri = .ok acc := by
  -- the code reads the three sections in one function
  have hsplit : parseUpdate body asnLen =
      if asnLen ≠ 2 ∧ asnLen ≠ 4 then .error "Invalid ASN width"
      else sections body >>= fun s =>
        Reader.drain rawAttr (attrStep asnLen) UpdateAcc.empty s.2.1 >>= fun walked =>
          classicWithdraw (replaceNextHop walked) s.1 >>= fun acc => classicAnnounce acc s.2.2 := by
    unfold parseUpdate sections
    split_ifs
    · rfl
    · simp only [bind_assoc]
      rfl
  rw [hsplit]
  -- any other width is refused before anything is read
  by_cases hw : asnLen ≠ 2 ∧ asnLen ≠ 4
  · rw [if_pos hw]
    constructor
    · intro h
      exact absurd h (by simp)
    · rintro ⟨h, -⟩
      omega
  · rw [if_neg hw]
    simp only [Reader.bind_eq_ok_iff, Reader.drain_ok_iff rawAttr_consumes]
    constructor
    · rintro ⟨⟨w, attrs, n⟩, hs, walked, ⟨as, hi, hf⟩, hc⟩
      exact ⟨by omega, ⟨w, as, n⟩, RawUpdate.enc_iff.mpr ⟨attrs, hs, hi⟩, walked, hf, hc⟩
    · rintro ⟨-, r, he, walked, hf, hc⟩
      obtain ⟨attrs, hs, hi⟩ := RawUpdate.enc_iff.mp he
      exact ⟨_, hs, walked, ⟨r.attrs, hi, hf⟩, hc⟩

/-! ### Writing an update -/

/-- The octets of an attribute, with a length of the size that its flags ask for. -/
def RawAttr.octets (a : RawAttr) : Bytes :=
  if a.flags &&& 16 ≠ 0 then a.flags :: a.code :: (u16ToBeBytes a.data.length ++ a.data)
  else a.flags :: a.code :: UInt8.ofNat a.data.length :: a.data

/-- The length of the data fits into the field that the flags ask for. -/
def RawAttr.Fits (a : RawAttr) : Prop :=
  a.data.length < if a.flags &&& 16 ≠ 0 then 65536 else 256

instance (a : RawAttr) : Decidable a.Fits := inferInstanceAs (Decidable (_ < _))

theorem RawAttr.enc_octets {a : RawAttr} (h : a.Fits) : a.Enc a.octets := by
  unfold RawAttr.Fits at h
  unfold RawAttr.Enc RawAttr.octets
  split_ifs at h ⊢ with hf
  · exact ⟨h, rfl⟩
  · exact ⟨h, rfl⟩

theorem encAll_octets {attrs : List RawAttr} (h : ∀ a ∈ attrs, a.Fits) :
    Reader.EncAll RawAttr.Enc attrs (attrs.flatMap RawAttr.octets) := by
  induction attrs with
  | nil => exact .nil
  | cons a attrs ih =>
    obtain ⟨ha, hattrs⟩ := List.forall_mem_cons.mp h
    rw [List.flatMap_cons]
    exact .cons (RawAttr.enc_octets ha) (ih hattrs)

namespace RawUpdate

/-- The octets of all attributes. -/
def attrOctets (r : RawUpdate) : Bytes := r.attrs.flatMap RawAttr.octets

/-- The octets of a body. -/
def octets (r : RawUpdate) : Bytes :=
  u16ToBeBytes r.withdrawn.length ++ r.withdrawn ++ u16ToBeBytes r.attrOctets.length
    ++ r.attrOctets ++ r.nlri

/-- Every length fits into its field. -/
def Fits (r : RawUpdate) : Prop :=
  (∀ a ∈ r.attrs, a.Fits) ∧ r.withdrawn.length < 65536 ∧ r.attrOctets.length < 65536

instance (r : RawUpdate) : Decidable r.Fits := inferInstanceAs (Decidable (_ ∧ _))

/-- **They encode the message**, when it fits. -/
theorem enc_octets {r : RawUpdate} (h : r.Fits) : r.Enc r.octets :=
  ⟨r.attrOctets, encAll_octets h.1, h.2.1, h.2.2, rfl⟩

end RawUpdate

end Wire
