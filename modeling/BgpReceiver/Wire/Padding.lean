import BgpReceiver.Wire.Attributes
import BgpReceiver.Wire.Reference

/-!
# The bits behind a FlowSpec prefix

The octets of a prefix hold its bits, and when its length is not divisible by eight the
last of them has bits behind the prefix that mean nothing. The decoder of unicast prefixes
clears them, and the decoder of FlowSpec prefixes does not. So the text of a FlowSpec prefix
shows them: two prefixes with the same bits have the same text exactly when they are padded
alike (`sameText_iff`).

Of two rules that differ in their padding at most, the results are the same exactly when the
components that are reported, the last of every type, are padded alike
(`object_eq_iff_getLast?`).
-/

namespace Wire

open Bits (bitAt)

/-! ### Components -/

/-- Two prefix components of one length are decoded to one text. -/
def SameText (afi : ℕ) (kind len : UInt8) (raw raw' : Bytes) : Prop :=
  ∀ rest, ∃ text : String,
    component afi (kind :: len :: (raw ++ rest)) = .ok ((componentKey kind afi, .str text), rest) ∧
    component afi (kind :: len :: (raw' ++ rest)) = .ok ((componentKey kind afi, .str text), rest)

/-- The text of a prefix component. -/
theorem component_prefix_ok_iff {afi : ℕ} {kind len : UInt8} {raw : Bytes}
    (hk : kind = 1 ∨ kind = 2) (hle : len.toNat ≤ maxBits afi)
    (hlen : raw.length = divCeil8 len.toNat) {text : String} {rest : Bytes} :
    component afi (kind :: len :: (raw ++ rest)) = .ok ((componentKey kind afi, .str text), rest) ↔
      prefixString raw len.toNat afi false = some text := by
  rw [component_ok_iff]
  constructor
  · rintro ⟨kind', data', hd, -, hv⟩
    obtain ⟨rfl, rfl⟩ := List.cons.inj hd
    obtain ⟨len', raw', text', hd', -, -, hs, ht⟩ := (componentValue_prefix_ok_iff hk).mp hv
    obtain ⟨rfl, hraw⟩ := List.cons.inj hd'
    obtain rfl := List.append_cancel_right hraw
    rw [hs, Json.str.inj ht]
  · intro hs
    exact ⟨kind, _, rfl, rfl,
      (componentValue_prefix_ok_iff hk).mpr ⟨len, raw, text, rfl, hle, hlen, hs, rfl⟩⟩

/-- **When the padding does not show**: when it is the same. -/
theorem sameText_iff {afi : ℕ} (hafi : afi = 1 ∨ afi = 2) {kind len : UInt8} {raw raw' : Bytes}
    (hk : kind = 1 ∨ kind = 2) (hle : len.toNat ≤ maxBits afi)
    (hlen : raw.length = divCeil8 len.toNat) (hlen' : raw'.length = divCeil8 len.toNat) :
    SameText afi kind len raw raw' ↔ raw = raw' := by
  constructor
  · intro h
    obtain ⟨text, ht, ht'⟩ := h []
    rw [component_prefix_ok_iff hk hle hlen] at ht
    rw [component_prefix_ok_iff hk hle hlen'] at ht'
    exact (prefixString_inj hafi hle hle hlen hlen' (ht.trans ht'.symm)).1
  · rintro rfl rest
    obtain ⟨text, ht⟩ := prefixString_isSome hafi raw len.toNat false
    have hread : component afi (kind :: len :: (raw ++ rest))
        = .ok ((componentKey kind afi, .str text), rest) :=
      (component_prefix_ok_iff hk hle hlen).mpr ht
    exact ⟨text, hread, hread⟩

/-! ### Rules -/

/-- Components that are the same but for the bits behind a prefix. -/
def RawComponent.Alike (c c' : RawComponent) : Prop :=
  c.kind = c'.kind ∧
    match c.value, c'.value with
    | .pfx len raw, .pfx len' raw' => len = len' ∧ ∀ i < len.toNat, bitAt raw i = bitAt raw' i
    | .terms ts, .terms ts' => ts = ts'
    | _, _ => False

/-- Alike components are shown alike exactly when they are the same. -/
theorem RawComponent.Alike.json_eq_iff {afi : ℕ} (hafi : afi = 1 ∨ afi = 2) {c c' : RawComponent}
    (h : c.Alike c') (hw : c.WellFormed afi) (hw' : c'.WellFormed afi) :
    c.json afi = c'.json afi ↔ c = c' := by
  refine ⟨fun hj => ?_, fun he => by rw [he]⟩
  obtain ⟨kind, value⟩ := c
  obtain ⟨kind', value'⟩ := c'
  obtain ⟨hk, hv⟩ := h
  obtain rfl : kind = kind' := hk
  cases value with
  | pfx len raw =>
    cases value' with
    | terms ts' => exact absurd hv (by simp)
    | pfx len' raw' =>
      obtain ⟨rfl, -⟩ : len = len' ∧ _ := hv
      obtain ⟨-, hle, hlen⟩ := hw
      obtain ⟨-, -, hlen'⟩ := hw'
      obtain ⟨text, ht⟩ := prefixString_isSome hafi raw len.toNat false
      obtain ⟨text', ht'⟩ := prefixString_isSome hafi raw' len.toNat false
      -- the texts tell the octets, and not only the bits of the prefix
      simp only [RawComponent.json, ht, ht', Option.getD_some, Json.str.injEq] at hj
      rw [← hj] at ht'
      rw [(prefixString_inj hafi hle hle hlen hlen' (ht.trans ht'.symm)).1]
  | terms ts =>
    cases value' with
    | pfx len' raw' => exact absurd hv (by simp)
    | terms ts' =>
      obtain rfl : ts = ts' := hv
      rfl

/-- The components of one type in two rules that are alike are alike one by one. -/
theorem forall₂_ofKind {cs cs' : List RawComponent} (h : List.Forall₂ RawComponent.Alike cs cs')
    (kind : UInt8) : List.Forall₂ RawComponent.Alike (ofKind kind cs) (ofKind kind cs') := by
  induction h with
  | nil => exact .nil
  | @cons c c' cs cs' hc _ ih =>
    unfold ofKind at ih ⊢
    by_cases hk : c.kind = kind
    · rw [List.filter_cons_of_pos (by simpa using hk),
        List.filter_cons_of_pos (by simpa using hc.1 ▸ hk)]
      exact .cons hc ih
    · rw [List.filter_cons_of_neg (by simpa using hk),
        List.filter_cons_of_neg (by simpa using hc.1 ▸ hk)]
      exact ih

/-- The last components of a type are both there or both missing. -/
theorem getLast?_rel {α β : Type} {R : α → β → Prop} {l : List α} {l' : List β}
    (h : List.Forall₂ R l l') : Option.Rel R l.getLast? l'.getLast? := by
  rw [← List.head?_reverse, ← List.head?_reverse]
  have hrev := List.forall₂_reverse_iff.mpr h
  generalize l.reverse = m at hrev
  generalize l'.reverse = m' at hrev
  cases hrev with
  | nil => exact .none
  | cons hr _ => exact .some hr

/-- No member has a name that is not the one of a component type. -/
theorem find_member_of_ne {afi : ℕ} {cs : List RawComponent} {key : String}
    (h : ∀ kind, key ≠ componentKey kind afi) :
    Entries.find key (cs.map (RawComponent.member afi)).reverse = none := by
  -- from the last component, which is looked at first
  induction cs using List.reverseRecOn with
  | nil => rfl
  | append_singleton cs c ih =>
    rw [List.map_append, List.reverse_append, List.map_singleton, List.reverse_singleton,
      List.singleton_append]
    change Entries.find key ((componentKey c.kind afi, c.json afi) :: _) = _
    rw [Entries.find_cons, if_neg (h c.kind), ih]

/-- **When alike rules are reported alike**: when the last components of every type are the
same. -/
theorem object_eq_iff_getLast? {afi : ℕ} (hafi : afi = 1 ∨ afi = 2) {cs cs' : List RawComponent}
    (h : List.Forall₂ RawComponent.Alike cs cs') (hw : ∀ c ∈ cs, c.WellFormed afi)
    (hw' : ∀ c ∈ cs', c.WellFormed afi) :
    Json.object (cs.map (RawComponent.member afi)) = .object (cs'.map (RawComponent.member afi)) ↔
      ∀ kind, (ofKind kind cs).getLast? = (ofKind kind cs').getLast? := by
  have hmem : ∀ {kind : UInt8} {l : List RawComponent}, ∀ c ∈ (ofKind kind l).getLast?, c ∈ l :=
    fun c hc => (List.mem_filter.mp (List.mem_of_mem_getLast? hc)).1
  constructor
  · intro heq kind
    have hjson : (ofKind kind cs).getLast?.map (RawComponent.json afi)
        = (ofKind kind cs').getLast?.map (RawComponent.json afi) := by
      rw [← find_member, ← find_member, ← Json.get_object, ← Json.get_object, heq]
    have hrel := getLast?_rel (forall₂_ofKind h kind)
    cases hl : (ofKind kind cs).getLast? with
    | none =>
      rw [hl] at hrel
      generalize (ofKind kind cs').getLast? = last at hrel
      cases hrel
      rfl
    | some c =>
      rw [hl] at hrel hjson
      cases hl' : (ofKind kind cs').getLast? with
      | none =>
        rw [hl'] at hjson
        exact absurd hjson (by simp)
      | some c' =>
        rw [hl'] at hrel hjson
        cases hrel with
        | some hr =>
          have heq := (hr.json_eq_iff hafi (hw c (hmem c hl)) (hw' c' (hmem c' hl'))).mp
            (Option.some.inj hjson)
          rw [heq]
  · intro hall
    rw [object_eq_ofList, object_eq_ofList]
    refine congrArg Json.obj
      ((Entries.sorted_ofList _).ext_find (Entries.sorted_ofList _) fun key => ?_)
    rw [← Json.get_obj, ← Json.get_obj, ← object_eq_ofList, ← object_eq_ofList, Json.get_object,
      Json.get_object]
    -- the member of a name is the last component of its type
    by_cases hkey : ∃ kind, key = componentKey kind afi
    · obtain ⟨kind, rfl⟩ := hkey
      rw [find_member, find_member, hall kind]
    · rw [find_member_of_ne fun kind he => hkey ⟨kind, he⟩,
        find_member_of_ne fun kind he => hkey ⟨kind, he⟩]

/-! ### An UPDATE with one multiprotocol attribute -/

/-- The octets of a multiprotocol attribute without a next hop. -/
def mpOctets (code : UInt8) (f : Family) (nlri : Bytes) : Bytes :=
  [0, UInt8.ofNat f.afi, f.safi] ++ (if code = 14 then [0, 0] else []) ++ nlri

/-- An UPDATE with one multiprotocol attribute. -/
def mpUpdate (code : UInt8) (f : Family) (nlri : Bytes) : RawUpdate where
  withdrawn := []
  attrs := [⟨0x90, code, mpOctets code f nlri⟩]
  nlri := []

/-- The header of the attribute that carries the octets. -/
theorem mpHeader_mpOctets {code : UInt8} (hcode : code = 14 ∨ code = 15) (f : Family)
    (nlri : Bytes) : mpHeader code (mpOctets code f nlri) = .ok (⟨f.afi, f.safi, ""⟩, nlri) := by
  rcases hcode with rfl | rfl
  · cases f <;> rfl
  · cases f <;> rfl

/-- Its source. -/
theorem mpSource_mpOctets {code : UInt8} (hcode : code = 14 ∨ code = 15) (f : Family)
    (flags : UInt8) (nlri : Bytes) :
    mpSource code ⟨flags, code, mpOctets code f nlri⟩
      = some ⟨f, nlri, if code = 14 then some "" else none⟩ := by
  have hfamily : (⟨f.afi, f.safi, ""⟩ : MpHeader).family? = some f :=
    MpHeader.family?_eq_some.mpr ⟨rfl, rfl⟩
  rw [mpSource, if_pos rfl, mpHeader_mpOctets hcode]
  simp only [hfamily, Option.map_some]

/-- **The UPDATE is taken** when the routes of its source are decoded. -/
theorem update_mpUpdate {code : UInt8} (hcode : code = 14 ∨ code = 15) {f : Family} {nlri : Bytes}
    (hlen : nlri.length < 65000) {routes : List Json}
    (hd : Source.decoded ⟨f, nlri, if code = 14 then some "" else none⟩ = .ok routes) {asnLen : ℕ}
    (hasn : asnLen = 2 ∨ asnLen = 4) :
    ∃ u, update (mpUpdate code f nlri).octets asnLen = .ok u ∧
      (mpUpdate code f nlri).Enc (mpUpdate code f nlri).octets := by
  have hdata : (mpOctets code f nlri).length < 65010 := by
    unfold mpOctets
    split_ifs
    · simp only [List.length_append, List.length_cons, List.length_nil]
      omega
    · simp only [List.length_append, List.length_cons, List.length_nil]
      omega
  have hflags : (0x90 : UInt8) &&& 16 ≠ 0 := by decide
  -- the attribute has an extended length, which is enough for it
  have hfits : (mpUpdate code f nlri).Fits := by
    refine ⟨fun a ha => ?_, by simp [mpUpdate], ?_⟩
    · rw [List.mem_singleton.mp ha, RawAttr.Fits, if_pos hflags]
      exact hdata.trans (by decide)
    · simp only [RawUpdate.attrOctets, mpUpdate, List.flatMap_singleton, RawAttr.octets,
        if_pos hflags, u16ToBeBytes, List.length_append, List.length_cons, List.length_nil]
      omega
  have henc := RawUpdate.enc_octets hfits
  have htaken : ∃ u, update (mpUpdate code f nlri).octets asnLen = .ok u := by
    refine henc.taken_of_attrs rfl rfl (fun a ha _ => ?_) (fun a ha code' _ s hs => ?_) hasn
    -- its only attribute has a header that can be read
    · obtain rfl := List.mem_singleton.mp ha
      exact ⟨_, mpHeader_mpOctets hcode f nlri⟩
    · obtain rfl := List.mem_singleton.mp ha
      by_cases hc : code = code'
      · rw [← hc, mpSource_mpOctets hcode] at hs
        obtain rfl := Option.some.inj hs
        exact ⟨routes, hd⟩
      · -- it is a source of its own code only
        rw [mpSource, if_neg hc] at hs
        exact absurd hs (by simp)
  obtain ⟨u, hu⟩ := htaken
  exact ⟨u, hu, henc⟩

end Wire
