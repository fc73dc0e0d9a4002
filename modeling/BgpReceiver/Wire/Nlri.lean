import BgpReceiver.Wire.Encoding

/-!
# What the NLRI decoders accept

One characterisation for each reader of an NLRI field: what a prefix, a term, a
component and a rule look like in octets, and what they decode to. The loops over
them are then the relations `Reader.Items` and `Reader.UntilLast`
(`unicast_ok_iff`, `components_ok_iff`, `flowspec_ok_iff`).
-/

namespace Wire

/-! ### Prefixes -/

/-- The route of a decoded prefix. -/
def routeJson (text : String) (nextHop : Option String) : Json :=
  match nextHop with
  | some nh => (Json.object [("prefix", .str text)]).set "next_hop" (.str nh)
  | none => .object [("prefix", .str text)]

/-- A prefix is its length and as many octets as that asks for. -/
theorem unicastRoute_ok_iff {afi : ℕ} {nextHop : Option String} {data rest : Bytes} {route : Json} :
    unicastRoute afi nextHop data = .ok (route, rest) ↔
      ∃ (bits : UInt8) (raw : Bytes) (text : String), data = bits :: (raw ++ rest) ∧
        bits.toNat ≤ maxBits afi ∧ raw.length = divCeil8 bits.toNat ∧
        prefixString raw bits.toNat afi true = some text ∧ route = routeJson text nextHop := by
  unfold unicastRoute
  simp only [Reader.bind_eq_ok_iff]
  constructor
  · rintro ⟨⟨bits, data₁⟩, hb, h⟩
    obtain rfl := byteAt_ok_iff.mp hb
    -- the two guards: the length of the prefix, and the family
    by_cases hbits : bits.toNat > maxBits afi
    · rw [if_pos hbits] at h
      exact absurd h (by simp [throw, throwThe, MonadExceptOf.throw, bind, Except.bind])
    · simp only [if_neg hbits, Reader.bind_eq_ok_iff] at h
      obtain ⟨⟨raw, data₂⟩, ht, h⟩ := h
      obtain ⟨rfl, hlen⟩ := take_ok_iff.mp ht
      refine ⟨bits, raw, ?_⟩
      cases hp : prefixString raw bits.toNat afi true with
      | none =>
        simp only [hp] at h
        exact absurd h (by simp [throw, throwThe, MonadExceptOf.throw])
      | some text =>
        simp only [hp] at h
        refine ⟨text, ?_, not_lt.mp hbits, hlen, rfl, ?_⟩ <;> cases nextHop <;>
          obtain ⟨rfl, rfl⟩ := Prod.mk.inj (Except.ok.inj h) <;> rfl
  · -- conversely both guards let the route through
    rintro ⟨bits, raw, text, rfl, hbits, hlen, hp, rfl⟩
    refine ⟨(bits, raw ++ rest), byteAt_ok_iff.mpr rfl, ?_⟩
    simp only [if_neg (not_lt.mpr hbits), Reader.bind_eq_ok_iff]
    refine ⟨(raw, rest), take_ok_iff.mpr ⟨rfl, hlen⟩, ?_⟩
    simp only [hp]
    cases nextHop <;> rfl

theorem unicastRoute_consumes (afi : ℕ) (nextHop : Option String) :
    Reader.Consumes (unicastRoute afi nextHop) := by
  intro data route rest h
  obtain ⟨bits, raw, text, rfl, -⟩ := unicastRoute_ok_iff.mp h
  simp only [List.length_cons, List.length_append]
  omega

/-- **`unicast` reads prefixes up to the end.** -/
theorem unicast_ok_iff {data : Bytes} {afi : ℕ} {nextHop : Option String} {routes : List Json} :
    unicast data afi nextHop = .ok routes ↔ Reader.Items (unicastRoute afi nextHop) data routes :=
  Reader.collect_ok_iff (unicastRoute_consumes afi nextHop)

/-! ### Terms -/

/-- The kinds whose operands are sets of bits. -/
def isBitmask (kind : UInt8) : Prop := kind = 9 ∨ kind = 12

instance (kind : UInt8) : Decidable (isBitmask kind) := inferInstanceAs (Decidable (_ ∨ _))

/-- The text of a term. -/
def termText (kind op : UInt8) (operand : Bytes) : String :=
  if isBitmask kind then
    formatBitmaskValue kind (decodeBitmaskOp op).symbol (readBeInt operand)
  else (decodeOp op).symbol ++ formatNumericValue kind (readBeInt operand)

/-- A term is its operator and as many octets as that asks for. -/
theorem componentTerm_ok_iff {kind : UInt8} {data rest : Bytes} {text : String} {last : Bool} :
    componentTerm kind data = .ok ((text, last), rest) ↔
      ∃ (op : UInt8) (operand : Bytes), data = op :: (operand ++ rest) ∧
        operand.length = opLen op ∧ text = termText kind op operand ∧ last = opEnd op := by
  unfold componentTerm termText isBitmask
  -- the two kinds of operator octet differ in the symbol only
  by_cases hk : kind = 9 ∨ kind = 12
  all_goals
    simp only [hk, if_true, if_false, Reader.bind_eq_ok_iff]
    constructor
    · rintro ⟨⟨op, data₁⟩, hb, ⟨operand, data₂⟩, ht, h⟩
      obtain rfl := byteAt_ok_iff.mp hb
      obtain ⟨rfl, hl⟩ := take_ok_iff.mp ht
      obtain ⟨he, rfl⟩ := Prod.mk.inj (Except.ok.inj h)
      obtain ⟨rfl, rfl⟩ := Prod.mk.inj he
      exact ⟨op, operand, rfl, hl, rfl, rfl⟩
    · rintro ⟨op, operand, rfl, hl, rfl, rfl⟩
      exact ⟨(op, operand ++ rest), byteAt_ok_iff.mpr rfl, (operand, rest),
        take_ok_iff.mpr ⟨rfl, hl⟩, rfl⟩

theorem componentTerm_consumes (kind : UInt8) : Reader.Consumes (componentTerm kind) := by
  rintro data ⟨text, last⟩ rest h
  obtain ⟨op, operand, rfl, -⟩ := componentTerm_ok_iff.mp h
  simp only [List.length_cons, List.length_append]
  omega

/-! ### Components -/

/-- A prefix of a rule is read as its length and its octets, which are not masked. -/
theorem parsePrefix_eq_some_iff {data : Bytes} {afi used : ℕ} {text : String} :
    parsePrefix data afi = some (text, used) ↔
      ∃ (len : UInt8) (raw rest : Bytes), data = len :: (raw ++ rest) ∧
        len.toNat ≤ maxBits afi ∧ raw.length = divCeil8 len.toNat ∧ used = 1 + raw.length ∧
        prefixString raw len.toNat afi false = some text := by
  cases data with
  | nil => simp [parsePrefix]
  | cons len data =>
    simp only [parsePrefix]
    constructor
    · intro h
      -- neither the length is too large nor the input too short
      split_ifs at h with h₁ h₂
      obtain ⟨s, hs, he⟩ := Option.map_eq_some_iff.mp h
      obtain ⟨rfl, rfl⟩ := Prod.mk.inj he
      have hlen : (data.take (divCeil8 len.toNat)).length = divCeil8 len.toNat := by
        rw [List.length_take]
        omega
      exact ⟨len, data.take (divCeil8 len.toNat), data.drop (divCeil8 len.toNat),
        by rw [List.take_append_drop], not_lt.mp h₁, hlen, by rw [hlen], hs⟩
    · rintro ⟨len', raw, rest, hd, hle, hlen, rfl, hs⟩
      obtain ⟨rfl, rfl⟩ := List.cons.inj hd
      rw [if_neg (not_lt.mpr hle), if_neg (by rw [List.length_append]; omega), ← hlen,
        List.take_left, hs]
      rfl

/-- A prefix component: the octets taken are the ones that were parsed. -/
theorem componentValue_prefix_ok_iff {kind : UInt8} {afi : ℕ} {data rest : Bytes} {value : Json}
    (hk : kind = 1 ∨ kind = 2) :
    componentValue kind afi data = .ok (value, rest) ↔
      ∃ (len : UInt8) (raw : Bytes) (text : String), data = len :: (raw ++ rest) ∧
        len.toNat ≤ maxBits afi ∧ raw.length = divCeil8 len.toNat ∧
        prefixString raw len.toNat afi false = some text ∧ value = .str text := by
  unfold componentValue
  rw [if_pos hk]
  constructor
  · intro h
    cases hp : parsePrefix data afi with
    | none =>
      rw [hp] at h
      exact absurd h (by simp [throw, throwThe, MonadExceptOf.throw])
    | some p =>
      obtain ⟨text, used⟩ := p
      rw [hp] at h
      simp only [Reader.bind_eq_ok_iff] at h
      obtain ⟨⟨head, rest'⟩, ht, h⟩ := h
      obtain ⟨rfl, rfl⟩ := Prod.mk.inj (Except.ok.inj h)
      obtain ⟨len, raw, rest₁, hd, hle, hlen, hu, hs⟩ := parsePrefix_eq_some_iff.mp hp
      obtain ⟨hd', hl⟩ := take_ok_iff.mp ht
      rw [hd'] at hd
      -- what the text used is what is taken off
      have hcut := List.append_inj (hd.trans (List.cons_append (a := len)).symm)
        (by rw [hl, hu, List.length_cons, Nat.add_comm])
      exact ⟨len, raw, text, by rw [hd', hcut.1]; rfl, hle, hlen, hs, rfl⟩
  · rintro ⟨len, raw, text, rfl, hle, hlen, hs, rfl⟩
    have hp : parsePrefix (len :: (raw ++ rest)) afi = some (text, 1 + raw.length) :=
      parsePrefix_eq_some_iff.mpr ⟨len, raw, rest, rfl, hle, hlen, rfl, hs⟩
    rw [hp]
    simp only [Reader.bind_eq_ok_iff]
    exact ⟨(len :: raw, rest), take_ok_iff.mpr ⟨rfl, by rw [List.length_cons, Nat.add_comm]⟩, rfl⟩

/-- Any other component: a list of terms up to the one with the end bit. -/
theorem componentValue_terms_ok_iff {kind : UInt8} {afi : ℕ} {data rest : Bytes} {value : Json}
    (hk : ¬ (kind = 1 ∨ kind = 2)) :
    componentValue kind afi data = .ok (value, rest) ↔
      ∃ values, Reader.UntilLast (componentTerm kind) data values rest ∧ value = texts values := by
  unfold componentValue
  rw [if_neg hk]
  simp only [Reader.bind_eq_ok_iff]
  constructor
  · rintro ⟨⟨values, rest'⟩, hu, h⟩
    obtain ⟨rfl, rfl⟩ := Prod.mk.inj (Except.ok.inj h)
    exact ⟨values, (Reader.untilLast_ok_iff (componentTerm_consumes kind)).mp hu, rfl⟩
  · rintro ⟨values, hu, rfl⟩
    exact ⟨(values, rest), (Reader.untilLast_ok_iff (componentTerm_consumes kind)).mpr hu, rfl⟩

/-- A component is its type and what is read by it. -/
theorem component_ok_iff {afi : ℕ} {data rest : Bytes} {key : String} {value : Json} :
    component afi data = .ok ((key, value), rest) ↔
      ∃ (kind : UInt8) (data' : Bytes), data = kind :: data' ∧ key = componentKey kind afi ∧
        componentValue kind afi data' = .ok (value, rest) := by
  unfold component
  simp only [Reader.bind_eq_ok_iff]
  constructor
  · rintro ⟨⟨kind, data'⟩, hb, ⟨v, rest'⟩, hv, h⟩
    obtain rfl := byteAt_ok_iff.mp hb
    obtain ⟨he, rfl⟩ := Prod.mk.inj (Except.ok.inj h)
    obtain ⟨rfl, rfl⟩ := Prod.mk.inj he
    exact ⟨kind, data', rfl, rfl, hv⟩
  · rintro ⟨kind, data', rfl, rfl, hv⟩
    exact ⟨(kind, data'), byteAt_ok_iff.mpr rfl, (value, rest), hv, rfl⟩

theorem componentValue_length_le {kind : UInt8} {afi : ℕ} {data rest : Bytes} {value : Json}
    (h : componentValue kind afi data = .ok (value, rest)) : rest.length ≤ data.length := by
  by_cases hk : kind = 1 ∨ kind = 2
  · obtain ⟨len, raw, text, rfl, -⟩ := (componentValue_prefix_ok_iff hk).mp h
    simp only [List.length_cons, List.length_append]
    omega
  · obtain ⟨values, hu, -⟩ := (componentValue_terms_ok_iff hk).mp h
    exact (hu.length_lt (componentTerm_consumes kind)).le

theorem component_consumes (afi : ℕ) : Reader.Consumes (component afi) := by
  rintro data ⟨key, value⟩ rest h
  obtain ⟨kind, data', rfl, -, hv⟩ := component_ok_iff.mp h
  have := componentValue_length_le hv
  simp only [List.length_cons]
  omega

/-- **`components` reads components up to the end**, and makes an object of them. -/
theorem components_ok_iff {data : Bytes} {afi : ℕ} {value : Json} :
    components data afi = .ok value ↔
      ∃ parsed, Reader.Items (component afi) data parsed ∧ value = .object parsed := by
  -- filling the object never fails, so only the reading can
  have hfold : ∀ (parsed m : List (String × Json)),
      parsed.foldlM (fun m e => (.ok (Entries.insert e.1 e.2 m) : Except String _)) m
        = .ok (parsed.foldl (fun m e => Entries.insert e.1 e.2 m) m) := by
    intro parsed
    induction parsed with
    | nil => intro m; rfl
    | cons e parsed ih => intro m; exact ih _
  unfold components
  simp only [Reader.bind_eq_ok_iff, Reader.drain_ok_iff (component_consumes afi), hfold]
  constructor
  · rintro ⟨m, ⟨parsed, hi, hm⟩, h⟩
    obtain rfl := Except.ok.inj hm
    exact ⟨parsed, hi, (Except.ok.inj h).symm⟩
  · rintro ⟨parsed, hi, rfl⟩
    exact ⟨_, ⟨parsed, hi, rfl⟩, rfl⟩

/-! ### Rules -/

theorem ruleLength_consumes : Reader.Consumes ruleLength := by
  intro data len rest h
  unfold ruleLength at h
  simp only [Reader.bind_eq_ok_iff] at h
  obtain ⟨⟨first, data₁⟩, hb, h⟩ := h
  obtain rfl := byteAt_ok_iff.mp hb
  -- one octet is taken, or two
  split_ifs at h
  · obtain ⟨-, rfl⟩ := Prod.mk.inj (Except.ok.inj h)
    simp
  · simp only [Reader.bind_eq_ok_iff] at h
    obtain ⟨⟨second, data₂⟩, hb, h⟩ := h
    obtain rfl := byteAt_ok_iff.mp hb
    obtain ⟨-, rfl⟩ := Prod.mk.inj (Except.ok.inj h)
    simp only [List.length_cons]
    omega

/-- A rule is its length and as many octets, which are components. -/
theorem flowspecRule_ok_iff {afi : ℕ} {data rest : Bytes} {value : Json} :
    flowspecRule afi data = .ok (value, rest) ↔
      ∃ rule, ruleLength data = .ok (rule.length, rule ++ rest) ∧
        components rule afi = .ok value := by
  unfold flowspecRule
  simp only [Reader.bind_eq_ok_iff]
  constructor
  · rintro ⟨⟨len, data₁⟩, hl, ⟨rule, data₂⟩, ht, v, hv, h⟩
    obtain ⟨rfl, rfl⟩ := take_ok_iff.mp ht
    obtain ⟨rfl, rfl⟩ := Prod.mk.inj (Except.ok.inj h)
    exact ⟨rule, hl, hv⟩
  · rintro ⟨rule, hl, hv⟩
    exact ⟨(rule.length, rule ++ rest), hl, (rule, rest), take_append rule rest, value, hv, rfl⟩

theorem flowspecRule_consumes (afi : ℕ) : Reader.Consumes (flowspecRule afi) := by
  intro data value rest h
  obtain ⟨rule, hl, -⟩ := flowspecRule_ok_iff.mp h
  have := ruleLength_consumes _ _ _ hl
  rw [List.length_append] at this
  omega

/-- **`flowspec` reads rules up to the end.** -/
theorem flowspec_ok_iff {data : Bytes} {afi : ℕ} {routes : List Json} :
    flowspec data afi = .ok routes ↔ Reader.Items (flowspecRule afi) data routes :=
  Reader.collect_ok_iff (flowspecRule_consumes afi)

end Wire
