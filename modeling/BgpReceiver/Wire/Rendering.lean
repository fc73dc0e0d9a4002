import BgpReceiver.Wire.Nlri

/-!
# What the texts of a FlowSpec rule determine

A rule is reported as texts: its prefixes as addresses, its terms as an operator
and an operand. This module says what can be read back from each of them.

A prefix text determines the octets and the length (`prefixString_inj`). A term
determines the bits of the comparison, and the operand up to the bits that are not
shown (`termText_inj`): all of it for most kinds, the low six bits for a DSCP, and
the bits with a name for TCP flags and fragments.
-/

namespace Wire

/-! ### Prefixes -/

/-- The text of an address has no characters but digits, dots and colons. -/
theorem not_mem_ipv4Text {c : Char} (hdigit : ∀ d, Nat.digitChar d ≠ c) (hdot : c ≠ '.')
    (octets : Bytes) : c ∉ (IpAddr.ipv4Text octets).toList := by
  intro h
  rcases Text.mem_intercalate h with h | ⟨w, hw, h⟩
  · exact hdot (List.mem_singleton.mp h)
  · obtain ⟨b, -, rfl⟩ := List.mem_map.mp hw
    exact IpAddr.not_mem_repr hdigit b.toNat h

/-- What is no digit, no full stop and no colon is in no IPv6 address. -/
theorem not_mem_ipv6Text {c : Char} (hdigit : ∀ d, Nat.digitChar d ≠ c) (hdot : c ≠ '.')
    (hcolon : c ≠ ':') (octets : Bytes) : c ∉ (IpAddr.ipv6Text octets).toList := by
  rw [← IpAddr.intercalate_pieces]
  intro h
  -- a character of the text is a colon or in one of the pieces
  rcases Text.mem_intercalate h with h | ⟨w, hw, h⟩
  · exact hcolon (List.mem_singleton.mp h)
  · cases hm : IpAddr.toIpv4Mapped octets with
    | none =>
      rcases IpAddr.mem_pieces hm hw with rfl | ⟨n, rfl⟩
      · simp at h
      · exact IpAddr.not_mem_hex hdigit n h
    | some ipv4 =>
      simp only [IpAddr.pieces, hm, List.mem_cons, List.not_mem_nil, or_false] at hw
      rcases hw with rfl | rfl | rfl | rfl
      · simp at h
      · simp at h
      · -- the four letters are digits too
        have hf : c = 'f' := by simpa using h
        exact hdigit 15 (by rw [hf]; rfl)
      · exact not_mem_ipv4Text hdigit hdot ipv4 h

/-- There is no slash in an IPv4 address. -/
theorem slash_not_mem_ipv4Text (octets : Bytes) : '/' ∉ (IpAddr.ipv4Text octets).toList :=
  not_mem_ipv4Text (fun _ => Nat.digitChar_ne '/' (by decide)) (by decide) octets

theorem slash_not_mem_ipv6Text (octets : Bytes) : '/' ∉ (IpAddr.ipv6Text octets).toList :=
  not_mem_ipv6Text (fun _ => Nat.digitChar_ne '/' (by decide)) (by decide) (by decide) octets

/-- Octets of one number are told by what they are padded to. -/
theorem padTo_inj {size : ℕ} {a b : Bytes} (hlen : a.length = b.length)
    (h : padTo size a = padTo size b) : a = b :=
  (List.append_inj h hlen).1

/-- Padded octets have the size that was asked for. -/
theorem length_padTo {size : ℕ} {raw : Bytes} (h : raw.length ≤ size) :
    (padTo size raw).length = size := by
  rw [padTo, List.length_append, List.length_replicate]
  omega

/-- **A prefix text determines its octets and its length.** -/
theorem prefixString_inj {afi : ℕ} {raw raw' : Bytes} {len len' : ℕ}
    (hafi : afi = 1 ∨ afi = 2) (hle : len ≤ maxBits afi) (hle' : len' ≤ maxBits afi)
    (hraw : raw.length = divCeil8 len) (hraw' : raw'.length = divCeil8 len')
    (h : prefixString raw len afi false = prefixString raw' len' afi false) :
    raw = raw' ∧ len = len' := by
  have hhead : ∀ n : ℕ, ("/" ++ Nat.repr n).toList.head? = some '/' := by
    intro n
    rw [String.toList_append]
    rfl
  have htail : ∀ m n : ℕ, "/" ++ Nat.repr m = "/" ++ Nat.repr n → m = n := by
    intro m n h
    have h := congrArg String.toList h
    rw [String.toList_append, String.toList_append] at h
    exact Nat.repr_inj.mp (String.toList_inj.mp (List.append_cancel_left h))
  -- an address of four octets, and one of sixteen
  rcases hafi with rfl | rfl
  · have h : IpAddr.ipv4Text (padTo 4 raw) ++ "/" ++ Nat.repr len
        = IpAddr.ipv4Text (padTo 4 raw') ++ "/" ++ Nat.repr len' := Option.some.inj h
    rw [String.append_assoc, String.append_assoc] at h
    -- no address has a slash in it, so the text splits at the only one
    obtain ⟨ha, hl⟩ := Text.append_inj (slash_not_mem_ipv4Text _) (slash_not_mem_ipv4Text _)
      (hhead len) (hhead len') h
    obtain rfl := htail _ _ hl
    have hle : len ≤ 32 := hle
    have hne : ∀ {r : Bytes}, r.length = divCeil8 len → padTo 4 r ≠ [] := by
      intro r hr
      apply List.ne_nil_of_length_pos
      rw [length_padTo (by unfold divCeil8 at hr; omega)]
      decide
    exact ⟨padTo_inj (hraw.trans hraw'.symm)
      (IpAddr.ipv4Text_injective (hne hraw) (hne hraw') ha), rfl⟩
  · have h : IpAddr.ipv6Text (padTo 16 raw) ++ "/" ++ Nat.repr len
        = IpAddr.ipv6Text (padTo 16 raw') ++ "/" ++ Nat.repr len' := Option.some.inj h
    rw [String.append_assoc, String.append_assoc] at h
    obtain ⟨ha, hl⟩ := Text.append_inj (slash_not_mem_ipv6Text _) (slash_not_mem_ipv6Text _)
      (hhead len) (hhead len') h
    obtain rfl := htail _ _ hl
    have hle : len ≤ 128 := hle
    have hlen : ∀ {r : Bytes}, r.length = divCeil8 len → (padTo 16 r).length = 16 := by
      intro r hr
      exact length_padTo (by unfold divCeil8 at hr; omega)
    exact ⟨padTo_inj (hraw.trans hraw'.symm)
      (IpAddr.ipv6Text_injective (hlen hraw) (hlen hraw') ha), rfl⟩

/-- A prefix of a known family has a text. -/
theorem prefixString_isSome {afi : ℕ} (hafi : afi = 1 ∨ afi = 2) (raw : Bytes) (len : ℕ)
    (mask : Bool) : ∃ text, prefixString raw len afi mask = some text := by
  rcases hafi with rfl | rfl
  · exact ⟨_, rfl⟩
  · exact ⟨_, rfl⟩

/-! ### Numeric terms -/

/-- The bits of an operator octet that say how operand and packet are compared. -/
def comparison (kind op : UInt8) : List Bool :=
  if isBitmask kind then [op &&& 0x02 ≠ 0, op &&& 0x01 ≠ 0]
  else [op &&& 0x04 ≠ 0, op &&& 0x02 ≠ 0, op &&& 0x01 ≠ 0]

/-- The number that the shown part of an operand is reduced by; zero when all of it
is shown. -/
def shownBelow (kind : UInt8) : ℕ :=
  if kind = 9 then 512 else if kind = 11 then 64 else if kind = 12 then 16 else 0

/-- The characters of a numeric operator. -/
def opChars : List Char := ['<', '>', '=', '?']

/-- There is no operator and no bracket in the name of a protocol. -/
theorem protocolName_chars {value : ℕ} {name : String} (h : protocolName value = some name) :
    ∀ c ∈ name.toList, c ∉ opChars ∧ c ≠ '(' := by
  unfold protocolName at h
  split at h <;> cases h <;> simp [opChars]

theorem digit_not_op {n : ℕ} : ∀ c ∈ (Nat.repr n).toList, c ∉ opChars ∧ c ≠ '(' := by
  intro c hc
  refine ⟨fun ho => ?_, fun he => ?_⟩
  · simp only [opChars, List.mem_cons, List.not_mem_nil, or_false] at ho
    rcases ho with rfl | rfl | rfl | rfl
    · exact IpAddr.not_mem_repr (fun _ => Nat.digitChar_ne '<' (by decide)) n hc
    · exact IpAddr.not_mem_repr (fun _ => Nat.digitChar_ne '>' (by decide)) n hc
    · exact IpAddr.not_mem_repr (fun _ => Nat.digitChar_ne '=' (by decide)) n hc
    · exact IpAddr.not_mem_repr (fun _ => Nat.digitChar_ne '?' (by decide)) n hc
  · subst he
    exact IpAddr.not_mem_repr (fun _ => Nat.digitChar_ne '(' (by decide)) n hc

/-- No numeric operand looks like an operator. -/
theorem formatNumericValue_chars (kind : UInt8) (value : ℕ) :
    ∀ c ∈ (formatNumericValue kind value).toList, c ∉ opChars := by
  intro c hc
  unfold formatNumericValue at hc
  -- a value with a name has it in parentheses
  split at hc
  · rename_i name hname
    have hname : protocolName value = some name := by
      split_ifs at hname
      exact hname
    simp only [String.toList_append, List.mem_append] at hc
    rcases hc with ((hc | hc) | hc) | hc
    · exact (protocolName_chars hname c hc).1
    · rw [List.mem_singleton.mp hc]
      decide
    · exact (digit_not_op c hc).1
    · rw [List.mem_singleton.mp hc]
      decide
  · split_ifs at hc
    · exact (digit_not_op c hc).1
    · exact (digit_not_op c hc).1

/-- The text of an operand in parentheses behind a word. -/
theorem parens_inj {a a' b b' : String} (ha : '(' ∉ a.toList) (ha' : '(' ∉ a'.toList)
    (h : a ++ "(" ++ b ++ ")" = a' ++ "(" ++ b' ++ ")") : a = a' ∧ b = b' := by
  have hhead : ∀ s : String, ("(" ++ (s ++ ")")).toList.head? = some '(' := by
    intro s
    rw [String.toList_append]
    rfl
  simp only [String.append_assoc] at h
  obtain ⟨h₁, h₂⟩ := Text.append_inj ha ha' (hhead b) (hhead b') h
  refine ⟨h₁, ?_⟩
  have h₂ := congrArg String.toList h₂
  simp only [String.toList_append] at h₂
  exact String.toList_inj.mp (List.append_cancel_right (List.append_cancel_left h₂))

/-- The name an operand is shown with: protocols have one. -/
def operandName (kind : UInt8) (value : ℕ) : Option String :=
  if kind = 3 then protocolName value else none

/-- A value that has a name is shown with it, in front of its number. -/
theorem formatNumericValue_named {kind : UInt8} {value : ℕ} {name : String}
    (h : operandName kind value = some name) :
    formatNumericValue kind value = name ++ "(" ++ Nat.repr value ++ ")" ∧ '(' ∉ name.toList := by
  have hp : protocolName value = some name := by
    unfold operandName at h
    split_ifs at h
    exact h
  unfold operandName at h
  unfold formatNumericValue
  rw [h]
  exact ⟨rfl, fun hc => (protocolName_chars hp _ hc).2 rfl⟩

/-- A value without a name is shown as its number; of a DSCP the last six bits. -/
theorem formatNumericValue_unnamed {kind : UInt8} {value : ℕ}
    (h : operandName kind value = none) :
    formatNumericValue kind value
        = Nat.repr (if kind = 11 then value &&& 0x3F else value) ∧
      '(' ∉ (formatNumericValue kind value).toList := by
  unfold operandName at h
  have heq : formatNumericValue kind value
      = Nat.repr (if kind = 11 then value &&& 0x3F else value) := by
    unfold formatNumericValue
    rw [h]
    simp only
    split_ifs <;> rfl
  rw [heq]
  exact ⟨rfl, fun hc => (digit_not_op _ hc).2 rfl⟩

/-- **A numeric operand is shown up to the bits that its kind leaves out.** -/
theorem formatNumericValue_inj {kind : UInt8} (hk : ¬ isBitmask kind) {v v' : ℕ}
    (h : formatNumericValue kind v = formatNumericValue kind v') :
    v % shownBelow kind = v' % shownBelow kind := by
  have hmem : ∀ {n : ℕ} {name : String}, operandName kind n = some name →
      '(' ∈ (formatNumericValue kind n).toList := by
    intro n name hn
    rw [(formatNumericValue_named hn).1]
    simp
  -- both values have names, or neither has
  cases hn : operandName kind v with
  | some name =>
    cases hn' : operandName kind v' with
    | some name' =>
      obtain ⟨he, hp⟩ := formatNumericValue_named hn
      obtain ⟨he', hp'⟩ := formatNumericValue_named hn'
      rw [he, he'] at h
      rw [Nat.repr_inj.mp (parens_inj hp hp' h).2]
    -- only a named value has a parenthesis
    | none => exact absurd (h ▸ hmem hn) (formatNumericValue_unnamed hn').2
  | none =>
    cases hn' : operandName kind v' with
    | some name' => exact absurd (h ▸ hmem hn') (formatNumericValue_unnamed hn).2
    | none =>
      rw [(formatNumericValue_unnamed hn).1, (formatNumericValue_unnamed hn').1] at h
      have h := Nat.repr_inj.mp h
      unfold shownBelow
      rw [if_neg fun h9 => hk (Or.inl h9)]
      split_ifs at h ⊢ with h11 h12
      · rw [show (0x3F : ℕ) = 2 ^ 6 - 1 from rfl, Nat.and_two_pow_sub_one_eq_mod,
          Nat.and_two_pow_sub_one_eq_mod] at h
        exact h
      · exact absurd (Or.inr h12) hk
      · rw [h]

/-- The symbol of a numeric operator is its three comparison bits. -/
theorem decodeOp_symbol_inj {op op' : UInt8} (h : (decodeOp op).symbol = (decodeOp op').symbol) :
    ((op &&& 0x04 ≠ 0) ↔ (op' &&& 0x04 ≠ 0)) ∧ ((op &&& 0x02 ≠ 0) ↔ (op' &&& 0x02 ≠ 0)) ∧
      ((op &&& 0x01 ≠ 0) ↔ (op' &&& 0x01 ≠ 0)) := by
  unfold decodeOp at h
  simp only at h
  by_cases h₁ : op &&& 0x04 ≠ 0 <;> by_cases h₂ : op &&& 0x02 ≠ 0 <;>
    by_cases h₃ : op &&& 0x01 ≠ 0 <;> by_cases h₁' : op' &&& 0x04 ≠ 0 <;>
    by_cases h₂' : op' &&& 0x02 ≠ 0 <;> by_cases h₃' : op' &&& 0x01 ≠ 0 <;>
    simp_all

/-! ### Bitmask terms -/

/-- The symbol of a bitmask operator is its two comparison bits. -/
theorem decodeBitmaskOp_symbol_inj {op op' : UInt8}
    (h : (decodeBitmaskOp op).symbol = (decodeBitmaskOp op').symbol) :
    ((op &&& 0x02 ≠ 0) ↔ (op' &&& 0x02 ≠ 0)) ∧ ((op &&& 0x01 ≠ 0) ↔ (op' &&& 0x01 ≠ 0)) := by
  unfold decodeBitmaskOp at h
  simp only at h
  by_cases h₁ : op &&& 0x01 ≠ 0 <;> by_cases h₂ : op &&& 0x02 ≠ 0 <;>
    by_cases h₁' : op' &&& 0x01 ≠ 0 <;> by_cases h₂' : op' &&& 0x02 ≠ 0 <;> simp_all

/-- The flags of a kind of bitmask, and how many of its low bits have a name. -/
def flagTable (kind : UInt8) : List (ℕ × String) := if kind = 9 then tcpFlags else fragmentFlags

/-- How many of the bits have names: those of TCP or of a fragment. -/
def namedBits (kind : UInt8) : ℕ := if kind = 9 then 9 else 4

/-- The names can be told apart in a list, and from a number. -/
theorem flagTable_names (kind : UInt8) :
    ∀ e ∈ flagTable kind, ',' ∉ e.2.toList ∧ '0' ∉ e.2.toList := by
  unfold flagTable
  split_ifs <;> simp [tcpFlags, fragmentFlags]

theorem flagTable_nodup (kind : UInt8) : ((flagTable kind).map Prod.snd).Nodup := by
  unfold flagTable
  split_ifs <;> simp [tcpFlags, fragmentFlags]

theorem flagTable_covers (kind : UInt8) :
    ∀ i < namedBits kind, ∃ name, (2 ^ i, name) ∈ flagTable kind := by
  unfold flagTable namedBits
  split_ifs
  · intro i hi
    interval_cases i <;> simp [tcpFlags]
  · intro i hi
    interval_cases i <;> simp [fragmentFlags]

/-- A name is listed exactly when its bit is set. -/
theorem mem_flagNames_iff {table : List (ℕ × String)} (hnodup : (table.map Prod.snd).Nodup)
    {e : ℕ × String} (he : e ∈ table) (value : ℕ) :
    e.2 ∈ flagNames table value ↔ value &&& e.1 ≠ 0 := by
  unfold flagNames
  rw [List.mem_map]
  constructor
  · rintro ⟨e', he', hname⟩
    obtain ⟨hmem, hbit⟩ := List.mem_filter.mp he'
    obtain rfl : e' = e := List.inj_on_of_nodup_map hnodup hmem he hname
    exact of_decide_eq_true hbit
  · intro hbit
    exact ⟨e, List.mem_filter.mpr ⟨he, decide_eq_true hbit⟩, rfl⟩

/-- **The names of the flags determine the bits that have a name.** -/
theorem flagNames_inj {kind : UInt8} {v v' : ℕ}
    (h : flagNames (flagTable kind) v = flagNames (flagTable kind) v') :
    v % 2 ^ namedBits kind = v' % 2 ^ namedBits kind := by
  apply Nat.eq_of_testBit_eq
  intro i
  rw [Nat.testBit_mod_two_pow, Nat.testBit_mod_two_pow]
  by_cases hi : i < namedBits kind
  · obtain ⟨name, hmem⟩ := flagTable_covers kind i hi
    -- a named bit is set when its name is listed
    have hiff : v &&& 2 ^ i ≠ 0 ↔ v' &&& 2 ^ i ≠ 0 := by
      rw [← mem_flagNames_iff (flagTable_nodup kind) hmem v, h,
        mem_flagNames_iff (flagTable_nodup kind) hmem v']
    rw [Nat.and_two_pow, Nat.and_two_pow] at hiff
    have hbit : ∀ b : Bool, b.toNat * 2 ^ i ≠ 0 ↔ b = true := by
      intro b
      cases b <;> simp
    rw [hbit, hbit] at hiff
    rw [Bool.eq_iff_iff.mpr hiff]
  · simp [hi]

/-- A bitmask operand without its operator. -/
def maskText (kind : UInt8) (value : ℕ) : String :=
  if flagNames (flagTable kind) value = [] then "0x" ++ Text.hex value
  else String.intercalate "," (flagNames (flagTable kind) value)

/-- A bitmask is shown as its operator with the text of its bits. -/
theorem formatBitmaskValue_eq (kind : UInt8) (opname : String) (value : ℕ) :
    formatBitmaskValue kind opname value = opname ++ "(" ++ maskText kind value ++ ")" := by
  have hnames : (if kind = 9 then tcpFlagNames value else fragmentFlagNames value)
      = flagNames (flagTable kind) value := by
    unfold flagTable
    split_ifs <;> rfl
  unfold formatBitmaskValue maskText
  simp only [hnames]
  split_ifs
  · rw [show "(0x" = "(" ++ "0x" from rfl, ← String.append_assoc, ← String.append_assoc]
  · rfl

/-- **A bitmask operand is shown up to the bits without a name.** An operand with
none of the named bits is shown as a number. -/
theorem maskText_inj {kind : UInt8} {v v' : ℕ} (h : maskText kind v = maskText kind v') :
    v % 2 ^ namedBits kind = v' % 2 ^ namedBits kind := by
  -- a name of a flag has neither a comma nor a digit
  have hfree : ∀ {n : ℕ}, ∀ w ∈ flagNames (flagTable kind) n, ',' ∉ w.toList ∧ '0' ∉ w.toList := by
    intro n w hw
    obtain ⟨e, he, rfl⟩ := List.mem_map.mp hw
    exact flagTable_names kind e (List.mem_of_mem_filter he)
  have hzero : ∀ {n : ℕ}, '0' ∉ (String.intercalate "," (flagNames (flagTable kind) n)).toList := by
    intro n hz
    rcases Text.mem_intercalate hz with hz | ⟨w, hw, hz⟩
    · exact absurd hz (by decide)
    · exact (hfree w hw).2 hz
  -- the number of an unnamed mask has a zero, which no flag's name has
  have hnum : ∀ n : ℕ, '0' ∈ ("0x" ++ Text.hex n).toList := by
    intro n
    simp
  unfold maskText at h
  split_ifs at h with h₁ h₂ h₂
  · have h := congrArg String.toList h
    rw [String.toList_append, String.toList_append] at h
    rw [Text.hex_injective (String.toList_inj.mp (List.append_cancel_left h))]
  · exact absurd (h ▸ hnum v) hzero
  · exact absurd (h ▸ hnum v') hzero
  · exact flagNames_inj (Text.intercalate_inj (c := ',') rfl (fun w hw => (hfree w hw).1)
      (fun w hw => (hfree w hw).1) h₁ h₂ h)

/-! ### Terms -/

/-- Up to eight octets are read as the number that they are. -/
theorem readBeInt_of_length_le {data : Bytes} (h : data.length ≤ 8) :
    readBeInt data = fromBeBytes data := by
  have hstep : ∀ {data : Bytes} {acc : ℕ}, acc * 256 ^ data.length + 256 ^ data.length ≤ 2 ^ 64 →
      data.foldl (fun val b => (val * 256 + b.toNat) % 2 ^ 64) acc
        = data.foldl (fun n b => n * 256 + b.toNat) acc := by
    -- by induction on the octets, with the number read so far general
    intro data
    induction data with
    | nil => intro acc _; rfl
    | cons b data ih =>
      intro acc hacc
      have hb := b.toNat_lt
      have hpos : 0 < 256 ^ data.length := by positivity
      have hle : (acc * 256 + b.toNat) * 256 ^ data.length + 256 ^ data.length ≤ 2 ^ 64 := by
        calc (acc * 256 + b.toNat) * 256 ^ data.length + 256 ^ data.length
            = (acc * 256 + b.toNat + 1) * 256 ^ data.length := by ring
          _ ≤ (acc * 256 + 256) * 256 ^ data.length := Nat.mul_le_mul_right _ (by omega)
          _ = acc * 256 ^ (data.length + 1) + 256 ^ (data.length + 1) := by ring
          _ ≤ 2 ^ 64 := hacc
      -- eight octets fit in the 64 bits, so no step wraps
      have hlt : acc * 256 + b.toNat < 2 ^ 64 := by nlinarith
      rw [List.foldl_cons, List.foldl_cons, Nat.mod_eq_of_lt hlt]
      exact ih hle
  refine hstep ?_
  calc 0 * 256 ^ data.length + 256 ^ data.length = 256 ^ data.length := by ring
    _ ≤ 256 ^ 8 := Nat.pow_le_pow_right (by decide) h
    _ = 2 ^ 64 := by norm_num

theorem opLen_le (op : UInt8) : opLen op ≤ 8 := by
  unfold opLen
  have hle : ((op >>> 4) &&& 0x03).toNat ≤ 3 := by
    rw [UInt8.toNat_and]
    exact Nat.and_le_right
  calc 2 ^ ((op >>> 4) &&& 0x03).toNat ≤ 2 ^ 3 := Nat.pow_le_pow_right (by decide) hle
    _ = 8 := rfl

/-- **What the text of a term determines**: the comparison, and the operand up to
the bits that are not shown. -/
theorem termText_inj {kind op op' : UInt8} {a a' : Bytes} (ha : a.length ≤ 8) (ha' : a'.length ≤ 8)
    (h : termText kind op a = termText kind op' a') :
    comparison kind op = comparison kind op' ∧
      fromBeBytes a % shownBelow kind = fromBeBytes a' % shownBelow kind := by
  unfold termText at h
  rw [readBeInt_of_length_le ha, readBeInt_of_length_le ha'] at h
  unfold comparison
  by_cases hk : isBitmask kind
  · rw [if_pos hk, if_pos hk] at h
    rw [if_pos hk, if_pos hk]
    rw [formatBitmaskValue_eq, formatBitmaskValue_eq] at h
    -- the operator ends where the parenthesis of the mask begins
    have hparen : ∀ o : UInt8, '(' ∉ (decodeBitmaskOp o).symbol.toList := by
      intro o
      unfold decodeBitmaskOp
      simp only
      split_ifs <;> simp
    obtain ⟨hs, hm⟩ := parens_inj (hparen op) (hparen op') h
    obtain ⟨h₁, h₂⟩ := decodeBitmaskOp_symbol_inj hs
    have hbase : shownBelow kind = 2 ^ namedBits kind := by
      rcases hk with rfl | rfl <;> decide
    exact ⟨by simp only [h₁, h₂], by rw [hbase, maskText_inj hm]⟩
  · rw [if_neg hk, if_neg hk] at h
    rw [if_neg hk, if_neg hk]
    have hop : ∀ o : UInt8, ∀ c ∈ (decodeOp o).symbol.toList, decide (c ∈ opChars) = true := by
      intro o
      unfold decodeOp
      simp only
      split <;> simp [opChars]
    -- the operator ends where the first character outside of its own comes
    have hvalue : ∀ n : ℕ, ∀ c ∈ (formatNumericValue kind n).toList.head?,
        decide (c ∈ opChars) = false := by
      intro n c hc
      exact decide_eq_false (formatNumericValue_chars kind n c (List.mem_of_mem_head? hc))
    obtain ⟨hs, hv⟩ := Text.span_inj (hop op) (hop op') (hvalue _) (hvalue _) h
    obtain ⟨h₁, h₂, h₃⟩ := decodeOp_symbol_inj hs
    exact ⟨by simp only [h₁, h₂, h₃], formatNumericValue_inj hk hv⟩

end Wire
