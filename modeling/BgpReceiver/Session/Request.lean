import BgpReceiver.Framework.OrdMap
import BgpReceiver.Framework.Reader
import BgpReceiver.Session.Config

/-!
# The configuration in a request

`Config::from_value` of `session.rs`, which turns the JSON object that a client posts into a
configuration. It works on the object in passes: what is missing gets a default, a number
that is written as a text is read, an empty `json_output` becomes `null`, and only then
are the fields taken and checked. The web page posts the texts of its form, so all numbers
may come as texts.

The passes change the object under one another's feet, but they do not interfere. Each field of
the configuration is what the object that was posted says about it, by itself (`Describes`),
and nothing else is accepted (`fromValue_ok_iff`).

So what the program reports as its configuration can be posted again, whatever else is
reported with it (`fromValue_reported_iff`). On its way it is a text, and the reader of JSON
texts need not give a number with a fraction back as it was. The configuration is taken with
the delays that are read, and without an output where that had an empty name, when it passes
its checks. It is taken as it was when nothing of this happens.

Reading texts as JSON and as addresses is left to parameters, the numbers with a fraction
to one of their own, and so is the text of an error of the deserializer.
-/

namespace Session

/-! ### Values -/

/-- A number as `serde_json` has it. -/
inductive Number where
  | posInt (n : UInt64)
  | negInt (n : ℤ)
  | float (x : F64)
  deriving DecidableEq

/-- A value of `serde_json`, with numbers as the configuration needs them. -/
inductive Value where
  | null
  | bool (b : Bool)
  | number (n : Number)
  | str (s : String)
  | arr (elems : List Value)
  | obj (fields : List (String × Value))

/-- The double-precision number that is next to a natural number, the even one of two. -/
def roundToF64 (n : ℕ) : ℚ :=
  if n < 2 ^ 53 then n
  else
    let unit := 2 ^ (n.log2 - 52)
    let q := n / unit
    let up := unit < 2 * (n % unit) ∨ unit = 2 * (n % unit) ∧ q % 2 = 1
    ((if up then q + 1 else q) * unit : ℕ)

/-- `Number::as_f64`. -/
def Number.asF64 : Number → F64
  | .posInt n => .finite (roundToF64 n.toNat)
  | .negInt n => .finite (-roundToF64 n.natAbs)
  | .float x => x

namespace Value

/-- A `u32`, as serde reads one. -/
def asU32 : Value → Option UInt32
  | number (.posInt n) => if n.toNat < 2 ^ 32 then some (UInt32.ofNat n.toNat) else none
  | _ => none

/-- A `u16`, as serde reads one. -/
def asU16 : Value → Option UInt16
  | number (.posInt n) => if n.toNat < 2 ^ 16 then some (UInt16.ofNat n.toNat) else none
  | _ => none

/-- An `f64`, as serde reads one: any number is taken for one. -/
def asF64 : Value → Option F64
  | number n => some n.asF64
  | _ => none

/-- An address, which is posted as a text. -/
def asIpv4 (parseIp : String → Option Ipv4Addr) : Value → Option Ipv4Addr
  | str s => parseIp s
  | _ => none

/-- A text that may be missing or `null`. -/
def asOptionString : Option Value → Option (Option String)
  | none | some null => some none
  | some (str s) => some (some s)
  | some _ => none

end Value

/-! ### Reading what has been written -/

section Reread

variable (readFloat : ℚ → ℚ)

/-- A floating-point number that has been written and read: what is read of its text is next to
the number, and need not be the number. -/
def F64.reread : F64 → F64
  | .finite q => .finite (readFloat q)
  | x => x

/-- An integer is read as it was written. -/
def Number.reread : Number → Number
  | .float x => .float (x.reread readFloat)
  | n => n

mutual

/-- A value that has been written as a JSON text and read again. -/
def Value.reread : Value → Value
  | .number n => .number (n.reread readFloat)
  | .arr elems => .arr (rereadElems elems)
  | .obj fields => .obj (rereadFields fields)
  | v => v

/-- The elements of an array, read again. -/
def Value.rereadElems : List Value → List Value
  | [] => []
  | v :: elems => v.reread :: rereadElems elems

/-- The members of an object, read again under their keys. -/
def Value.rereadFields : List (String × Value) → List (String × Value)
  | [] => []
  | (k, v) :: fields => (k, v.reread) :: rereadFields fields

end

/-- The members of an object are read one by one. -/
theorem Value.rereadFields_eq_map (fields : List (String × Value)) :
    Value.rereadFields readFloat fields = fields.map fun e => (e.1, e.2.reread readFloat) := by
  induction fields with
  | nil => rfl
  | cons e fields ih => rw [Value.rereadFields, ih, List.map_cons]

/-- A member is found where it was, with its value read again. -/
theorem Value.find_rereadFields (fields : List (String × Value)) (k : String) :
    Entries.find k (Value.rereadFields readFloat fields)
      = (Entries.find k fields).map (Value.reread readFloat) := by
  rw [Value.rereadFields_eq_map, Entries.find_map]

end Reread

/-! ### The passes -/

namespace Config

open Value

/-- The defaults of `from_value`. -/
def defaults : List (String × Value) :=
  [("hold_time", number (.posInt 90)), ("reconnect_delay", number (.posInt 5)),
    ("connect_timeout", number (.float (.finite 5))),
    ("active_retry_delay", number (.float (.finite 1))), ("listen_port", number (.posInt 179))]

/-- The fields in which a text may stand for a number. -/
def numberKeys : List String :=
  ["local_as", "peer_as", "hold_time", "reconnect_delay", "connect_timeout",
    "active_retry_delay", "listen_port"]

/-- `entry(key).or_insert(default)` -/
def orInsert (fields : List (String × Value)) (e : String × Value) : List (String × Value) :=
  match Entries.find e.1 fields with
  | some _ => fields
  | none => Entries.insert e.1 e.2 fields

variable (parse : String → Option Value) (parseIp : String → Option Ipv4Addr)
  (refusal : List (String × Value) → String)

/-- A number that is written as a text is read. -/
def readNumber (fields : List (String × Value)) (key : String) :
    Except String (List (String × Value)) :=
  match Entries.find key fields with
  | some (str s) =>
    match parse s with
    | some (number n) => .ok (Entries.insert key (number n) fields)
    | _ => .error ("Invalid " ++ key)
  | _ => .ok fields

/-- An empty output is none. -/
def dropEmptyOutput (fields : List (String × Value)) : List (String × Value) :=
  match Entries.find "json_output" fields with
  | some (str "") => Entries.insert "json_output" null fields
  | _ => fields

/-- `serde_json::from_value` -/
def deserialize (fields : List (String × Value)) : Option Config := do
  let localAs ← (Entries.find "local_as" fields).bind asU32
  let routerId ← (Entries.find "router_id" fields).bind (asIpv4 parseIp)
  let peerIp ← (Entries.find "peer_ip" fields).bind (asIpv4 parseIp)
  let peerAs ← (Entries.find "peer_as" fields).bind asU32
  let holdTime ← (Entries.find "hold_time" fields).bind asU16
  let reconnectDelay ← (Entries.find "reconnect_delay" fields).bind asF64
  let connectTimeout ← (Entries.find "connect_timeout" fields).bind asF64
  let activeRetryDelay ← (Entries.find "active_retry_delay" fields).bind asF64
  let listenPort ← (Entries.find "listen_port" fields).bind asU16
  let jsonOutput ← asOptionString (Entries.find "json_output" fields)
  return ⟨localAs, routerId, peerIp, peerAs, holdTime, reconnectDelay, connectTimeout,
    activeRetryDelay, listenPort, jsonOutput⟩

/-- `from_value` -/
def fromValue (value : Value) : Except String Config := do
  match value with
  | obj fields =>
    let fields ← numberKeys.foldlM (readNumber parse) (defaults.foldl orInsert fields)
    let fields := dropEmptyOutput fields
    match deserialize parseIp fields with
    | some config =>
      config.validate
      return config
    | none => throw (refusal fields)
  | _ => throw "Config must be an object"

/-! ### What an object says -/

/-- A number under a key: it is there, or a text that is read as it, or it is the default. -/
inductive Says (fields : List (String × Value)) (key : String) (n : Number) : Prop
  | number : Entries.find key fields = some (number n) → Says fields key n
  | text {s : String} : Entries.find key fields = some (str s) → parse s = some (number n) →
      Says fields key n
  | missing : Entries.find key fields = none → Entries.find key defaults = some (number n) →
      Says fields key n

/-- An output: a file, or none. -/
inductive SaysOutput (fields : List (String × Value)) : Option String → Prop
  | missing : Entries.find "json_output" fields = none → SaysOutput fields none
  | null : Entries.find "json_output" fields = some null → SaysOutput fields none
  | empty : Entries.find "json_output" fields = some (str "") → SaysOutput fields none
  | file {s : String} : Entries.find "json_output" fields = some (str s) → s ≠ "" →
      SaysOutput fields (some s)

/-- **Every field of a configuration is what the object says about it.** -/
structure Describes (fields : List (String × Value)) (config : Config) : Prop where
  localAs : ∃ n : UInt64, Says parse fields "local_as" (.posInt n) ∧
    n.toNat = config.localAs.toNat
  routerId : ∃ s, Entries.find "router_id" fields = some (str s) ∧
    parseIp s = some config.routerId
  peerIp : ∃ s, Entries.find "peer_ip" fields = some (str s) ∧ parseIp s = some config.peerIp
  peerAs : ∃ n : UInt64, Says parse fields "peer_as" (.posInt n) ∧ n.toNat = config.peerAs.toNat
  holdTime : ∃ n : UInt64, Says parse fields "hold_time" (.posInt n) ∧
    n.toNat = config.holdTime.toNat
  reconnectDelay : ∃ n, Says parse fields "reconnect_delay" n ∧ n.asF64 = config.reconnectDelay
  connectTimeout : ∃ n, Says parse fields "connect_timeout" n ∧ n.asF64 = config.connectTimeout
  activeRetryDelay : ∃ n, Says parse fields "active_retry_delay" n ∧
    n.asF64 = config.activeRetryDelay
  listenPort : ∃ n : UInt64, Says parse fields "listen_port" (.posInt n) ∧
    n.toNat = config.listenPort.toNat
  jsonOutput : SaysOutput fields config.jsonOutput

/-- A value after the numbers have been read; a text that is no number is refused. -/
def numeric : Value → Option Value
  | str s =>
    match parse s with
    | some (number n) => some (number n)
    | _ => none
  | v => some v

end Config

/-! ### What a field can be taken from -/

/-- A `u32` is a natural number in its range. -/
theorem Value.asU32_eq_some_iff {v : Value} {x : UInt32} :
    v.asU32 = some x ↔ ∃ n : UInt64, v = .number (.posInt n) ∧ n.toNat = x.toNat := by
  constructor
  · intro h
    unfold asU32 at h
    split at h
    · rename_i n
      split_ifs at h with hlt
      obtain rfl := Option.some.inj h
      exact ⟨n, rfl, (UInt32.toNat_ofNat_of_lt' hlt).symm⟩
    · cases h
  · rintro ⟨n, rfl, hn⟩
    -- a value of the width is below its bound
    have hlt : n.toNat < 2 ^ 32 := hn ▸ x.toNat_lt
    rw [asU32, if_pos hlt, hn, UInt32.ofNat_toNat]

theorem Value.asU16_eq_some_iff {v : Value} {x : UInt16} :
    v.asU16 = some x ↔ ∃ n : UInt64, v = .number (.posInt n) ∧ n.toNat = x.toNat := by
  constructor
  · intro h
    unfold asU16 at h
    split at h
    · rename_i n
      split_ifs at h with hlt
      obtain rfl := Option.some.inj h
      exact ⟨n, rfl, (UInt16.toNat_ofNat_of_lt' hlt).symm⟩
    · cases h
  · rintro ⟨n, rfl, hn⟩
    have hlt : n.toNat < 2 ^ 16 := hn ▸ x.toNat_lt
    rw [asU16, if_pos hlt, hn, UInt16.ofNat_toNat]

theorem Value.asF64_eq_some_iff {v : Value} {x : F64} :
    v.asF64 = some x ↔ ∃ n, v = .number n ∧ n.asF64 = x := by
  cases v <;> simp [asF64]

/-- An address is a text that is read as one. -/
theorem Value.asIpv4_eq_some_iff {parseIp : String → Option Ipv4Addr} {v : Value}
    {a : Ipv4Addr} : v.asIpv4 parseIp = some a ↔ ∃ s, v = .str s ∧ parseIp s = some a := by
  cases v <;> simp [asIpv4]

/-! ### What the passes do -/

namespace Config

open Value

variable {parse : String → Option Value} {parseIp : String → Option Ipv4Addr}
  {refusal : List (String × Value) → String}

/-- A default is put in where there is nothing. -/
theorem find_orInsert (fields : List (String × Value)) (e : String × Value) (k : String) :
    Entries.find k (orInsert fields e) =
      (Entries.find k fields).or (if k = e.1 then some e.2 else none) := by
  unfold orInsert
  -- a default is put in where the field is missing
  cases h : Entries.find e.1 fields with
  | some v =>
    by_cases hk : k = e.1
    · rw [hk, h]
      rfl
    · rw [if_neg hk, Option.or_none]
  | none =>
    rw [Entries.find_insert]
    by_cases hk : k = e.1
    · rw [hk, h, if_pos rfl]
      rfl
    · rw [if_neg hk, if_neg hk, Option.or_none]

/-- The defaults are found where nothing else is. -/
theorem find_foldl_orInsert (ds fields : List (String × Value)) (k : String) :
    Entries.find k (ds.foldl orInsert fields) =
      (Entries.find k fields).or (Entries.find k ds) := by
  induction ds generalizing fields with
  | nil => exact Option.or_none.symm
  | cons e ds ih =>
    rw [List.foldl_cons, ih, find_orInsert, Option.or_assoc]
    congr 1
    rw [Entries.find_cons]
    split_ifs <;> rfl

/-- A key that is read has a number afterwards, if it has anything, and no other key changes. -/
theorem readNumber_ok {fields fields' : List (String × Value)} {key : String}
    (h : readNumber parse fields key = .ok fields') (k : String) :
    Entries.find k fields' = if k = key then (Entries.find k fields).bind (numeric parse)
      else Entries.find k fields := by
  -- a text is replaced by what it parses to, and anything else is left as it is
  unfold readNumber at h
  split at h
  · rename_i s hs
    split at h
    · rename_i n hn
      obtain rfl := Except.ok.inj h
      rw [Entries.find_insert]
      by_cases hk : k = key
      · rw [if_pos hk, if_pos hk, hk, hs]
        simp [numeric, hn]
      · rw [if_neg hk, if_neg hk]
    · cases h
  · rename_i hnot
    obtain rfl := Except.ok.inj h
    by_cases hk : k = key
    · rw [if_pos hk, hk]
      cases hv : Entries.find key fields with
      | none => rfl
      | some v =>
        cases v with
        | str s => exact absurd hv (hnot s)
        | _ => rfl
    · rw [if_neg hk]

/-- A key is read when there is nothing under it that is no number. -/
theorem exists_readNumber {fields : List (String × Value)} {key : String}
    (h : ∀ v, Entries.find key fields = some v → (numeric parse v).isSome) :
    ∃ fields', readNumber parse fields key = .ok fields' := by
  unfold readNumber
  split
  · rename_i s hs
    -- a text that says no number is what fails
    have hsome := h _ hs
    unfold numeric at hsome
    split
    · exact ⟨_, rfl⟩
    · rename_i hnot
      cases hp : parse s with
      | none => simp [hp] at hsome
      | some v =>
        cases v with
        | number n => exact absurd hp (hnot n)
        | _ => simp [hp] at hsome
  · exact ⟨_, rfl⟩

/-- What is read once is not changed by being read again. -/
theorem numeric_bind (o : Option Value) :
    (o.bind (numeric parse)).bind (numeric parse) = o.bind (numeric parse) := by
  cases o with
  | none => rfl
  | some v =>
    cases v with
    | str s =>
      cases hp : parse s with
      | none => simp [numeric, hp]
      | some v => cases v <;> simp [numeric, hp]
    | _ => rfl

/-- The pass over the numbers changes their fields and no others. -/
theorem readNumbers_ok {keys : List String} {fields fields' : List (String × Value)}
    (h : keys.foldlM (readNumber parse) fields = .ok fields') (k : String) :
    Entries.find k fields' = if k ∈ keys then (Entries.find k fields).bind (numeric parse)
      else Entries.find k fields := by
  -- field by field; reading a field a second time changes nothing
  induction keys generalizing fields with
  | nil =>
    obtain rfl := Except.ok.inj h
    rw [if_neg List.not_mem_nil]
  | cons key keys ih =>
    rw [List.foldlM_cons] at h
    cases h₁ : readNumber parse fields key with
    | error e =>
      rw [h₁] at h
      cases h
    | ok fields₁ =>
      rw [h₁] at h
      rw [ih h, readNumber_ok h₁]
      by_cases hk : k = key
      · rw [if_pos hk, if_pos (List.mem_cons.mpr (.inl hk)), numeric_bind, ite_self]
      · simp only [hk, if_false, List.mem_cons, false_or]

/-- It succeeds when every one of its fields can be read. -/
theorem exists_readNumbers {keys : List String} {fields : List (String × Value)}
    (h : ∀ key ∈ keys, ∀ v, Entries.find key fields = some v → (numeric parse v).isSome) :
    ∃ fields', keys.foldlM (readNumber parse) fields = .ok fields' := by
  induction keys generalizing fields with
  | nil => exact ⟨fields, rfl⟩
  | cons key keys ih =>
    obtain ⟨hkey, hkeys⟩ := List.forall_mem_cons.mp h
    obtain ⟨fields₁, h₁⟩ := exists_readNumber hkey
    obtain ⟨fields', h'⟩ := ih fun k hk v hv => by
      rw [readNumber_ok h₁] at hv
      split_ifs at hv with heq
      · have hagain := @numeric_bind parse (Entries.find k fields)
        rw [hv] at hagain
        exact Option.isSome_iff_exists.mpr ⟨v, hagain⟩
      · exact hkeys k hk v hv
    refine ⟨fields', ?_⟩
    rw [List.foldlM_cons, h₁]
    exact h'

/-- The pass over the output changes no other field. -/
theorem find_dropEmptyOutput {fields : List (String × Value)} {k : String}
    (hk : k ≠ "json_output") :
    Entries.find k (dropEmptyOutput fields) = Entries.find k fields := by
  unfold dropEmptyOutput
  split
  · rw [Entries.find_insert, if_neg hk]
  · rfl

/-- Every default is a number, and so the pass over the numbers leaves it alone. -/
theorem exists_number_of_default {key : String} {v : Value}
    (h : Entries.find key defaults = some v) : ∃ n, v = number n := by
  have hall : ∀ e ∈ defaults, ∃ n, e.2 = number n := by
    simp only [defaults, List.forall_mem_cons]
    exact ⟨⟨_, rfl⟩, ⟨_, rfl⟩, ⟨_, rfl⟩, ⟨_, rfl⟩, ⟨_, rfl⟩, nofun⟩
  exact hall _ (Entries.mem_of_find h)

/-- **The passes leave a number where the object says one.** -/
theorem says_iff {fields : List (String × Value)} {key : String} {n : Number} :
    ((Entries.find key fields).or (Entries.find key defaults)).bind (numeric parse) =
      some (number n) ↔ Says parse fields key n := by
  constructor
  · intro h
    -- a field is missing, and has its default, or is there as a text or a number
    cases hf : Entries.find key fields with
    | none =>
      rw [hf, Option.none_or] at h
      cases hd : Entries.find key defaults with
      | none =>
        rw [hd] at h
        cases h
      | some v =>
        obtain ⟨m, rfl⟩ := exists_number_of_default hd
        rw [hd] at h
        obtain rfl := Value.number.inj (Option.some.inj h)
        exact .missing hf hd
    | some v =>
      rw [hf, Option.some_or, Option.bind_some] at h
      cases v with
      | str s =>
        cases hp : parse s with
        | none => simp [numeric, hp] at h
        | some w =>
          cases w with
          | number m =>
            simp only [numeric, hp, Option.some.injEq, Value.number.injEq] at h
            exact .text hf (h ▸ hp)
          | _ => simp [numeric, hp] at h
      | number m =>
        obtain rfl := Value.number.inj (Option.some.inj h)
        exact .number hf
      | _ => simp [numeric] at h
  · intro h
    cases h with
    | number hf =>
      rw [hf]
      rfl
    | text hf hp =>
      rw [hf, Option.some_or, Option.bind_some, numeric, hp]
    | missing hf hd =>
      rw [hf, hd]
      rfl

/-- What is found in the end under the key of a number. -/
theorem find_number {fields fields' : List (String × Value)}
    (h : numberKeys.foldlM (readNumber parse) (defaults.foldl orInsert fields) = .ok fields')
    {k : String} (hk : k ∈ numberKeys) : Entries.find k (dropEmptyOutput fields') =
      ((Entries.find k fields).or (Entries.find k defaults)).bind (numeric parse) := by
  have hne : k ≠ "json_output" := by
    rintro rfl
    revert hk
    decide
  rw [find_dropEmptyOutput hne, readNumbers_ok h, if_pos hk, find_foldl_orInsert]

/-- Other keys have no default and are not read. -/
theorem find_other {fields fields' : List (String × Value)}
    (h : numberKeys.foldlM (readNumber parse) (defaults.foldl orInsert fields) = .ok fields')
    {k : String} (hk : k ∉ numberKeys) : Entries.find k fields' = Entries.find k fields := by
  have hdefault : Entries.find k defaults = none := by
    refine Option.eq_none_iff_forall_ne_some.mpr fun v hv => hk ?_
    have hall : ∀ e ∈ defaults, e.1 ∈ numberKeys := by
      simp only [defaults, List.forall_mem_cons, numberKeys]
      simp
    exact hall _ (Entries.mem_of_find hv)
  rw [readNumbers_ok h, if_neg hk, find_foldl_orInsert, hdefault, Option.or_none]

/-- **The output**, when an empty one has been dropped. -/
theorem saysOutput_iff {fields fields' : List (String × Value)}
    (h : Entries.find "json_output" fields' = Entries.find "json_output" fields)
    {o : Option String} :
    asOptionString (Entries.find "json_output" (dropEmptyOutput fields')) = some o ↔
      SaysOutput fields o := by
  -- an empty file name is dropped before the rest is read
  unfold dropEmptyOutput
  constructor
  · intro ho
    split at ho
    · rename_i hempty
      rw [Entries.find_insert, if_pos rfl] at ho
      obtain rfl := Option.some.inj ho
      exact .empty (h ▸ hempty)
    · rename_i hne
      cases hf : Entries.find "json_output" fields' with
      | none =>
        rw [hf] at ho
        obtain rfl := Option.some.inj ho
        exact .missing (h ▸ hf)
      | some v =>
        rw [hf] at ho
        cases v with
        | null =>
          obtain rfl := Option.some.inj ho
          exact .null (h ▸ hf)
        | str s =>
          obtain rfl := Option.some.inj ho
          exact .file (h ▸ hf) fun hs => hne (hs ▸ hf)
        | _ => cases ho
  · intro hsays
    cases hsays with
    | missing hf =>
      rw [h, hf]
      exact congrArg asOptionString (h.trans hf)
    | null hf =>
      rw [h, hf]
      exact congrArg asOptionString (h.trans hf)
    | empty hf =>
      rw [h, hf]
      exact congrArg asOptionString ((Entries.find_insert ..).trans (if_pos rfl))
    | @file s hf hs =>
      -- a name that is not empty is not dropped
      have hsplit : ∀ v, (match v with
          | some (str "") => Entries.insert "json_output" null fields'
          | _ => fields') = fields' ∨ v = some (str "") := fun v => by
        split
        · exact .inr rfl
        · exact .inl rfl
      rcases hsplit (Entries.find "json_output" fields') with heq | hv
      · rw [heq, h, hf]
        rfl
      · rw [h, hf] at hv
        exact absurd (Value.str.inj (Option.some.inj hv)) hs

/-! ### What is accepted -/

/-- A field that is read as a `u32` is there and is one. -/
theorem bind_asU32 {o : Option Value} {x : UInt32} : o.bind asU32 = some x ↔
    ∃ n : UInt64, o = some (number (.posInt n)) ∧ n.toNat = x.toNat := by
  cases o <;> simp [asU32_eq_some_iff]

theorem bind_asU16 {o : Option Value} {x : UInt16} : o.bind asU16 = some x ↔
    ∃ n : UInt64, o = some (number (.posInt n)) ∧ n.toNat = x.toNat := by
  cases o <;> simp [asU16_eq_some_iff]

theorem bind_asF64 {o : Option Value} {x : F64} :
    o.bind asF64 = some x ↔ ∃ n, o = some (number n) ∧ n.asF64 = x := by
  cases o <;> simp [asF64_eq_some_iff]

theorem bind_asIpv4 {o : Option Value} {a : Ipv4Addr} :
    o.bind (asIpv4 parseIp) = some a ↔ ∃ s, o = some (str s) ∧ parseIp s = some a := by
  cases o <;> simp [asIpv4_eq_some_iff]

/-- A configuration is read field by field. -/
theorem deserialize_eq_some_iff {fields : List (String × Value)} {config : Config} :
    deserialize parseIp fields = some config ↔
      (Entries.find "local_as" fields).bind asU32 = some config.localAs ∧
      (Entries.find "router_id" fields).bind (asIpv4 parseIp) = some config.routerId ∧
      (Entries.find "peer_ip" fields).bind (asIpv4 parseIp) = some config.peerIp ∧
      (Entries.find "peer_as" fields).bind asU32 = some config.peerAs ∧
      (Entries.find "hold_time" fields).bind asU16 = some config.holdTime ∧
      (Entries.find "reconnect_delay" fields).bind asF64 = some config.reconnectDelay ∧
      (Entries.find "connect_timeout" fields).bind asF64 = some config.connectTimeout ∧
      (Entries.find "active_retry_delay" fields).bind asF64 = some config.activeRetryDelay ∧
      (Entries.find "listen_port" fields).bind asU16 = some config.listenPort ∧
      asOptionString (Entries.find "json_output" fields) = some config.jsonOutput := by
  -- ten fields, each of which may fail on its own
  unfold deserialize
  generalize (Entries.find "local_as" fields).bind asU32 = o₁
  generalize (Entries.find "router_id" fields).bind (asIpv4 parseIp) = o₂
  generalize (Entries.find "peer_ip" fields).bind (asIpv4 parseIp) = o₃
  generalize (Entries.find "peer_as" fields).bind asU32 = o₄
  generalize (Entries.find "hold_time" fields).bind asU16 = o₅
  generalize (Entries.find "reconnect_delay" fields).bind asF64 = o₆
  generalize (Entries.find "connect_timeout" fields).bind asF64 = o₇
  generalize (Entries.find "active_retry_delay" fields).bind asF64 = o₈
  generalize (Entries.find "listen_port" fields).bind asU16 = o₉
  generalize asOptionString (Entries.find "json_output" fields) = o₁₀
  simp only [Option.bind_eq_bind, Option.bind_eq_some_iff, Option.pure_def, Option.some.injEq]
  constructor
  · rintro ⟨_, h₁, _, h₂, _, h₃, _, h₄, _, h₅, _, h₆, _, h₇, _, h₈, _, h₉, _, h₁₀, rfl⟩
    exact ⟨h₁, h₂, h₃, h₄, h₅, h₆, h₇, h₈, h₉, h₁₀⟩
  · rintro ⟨h₁, h₂, h₃, h₄, h₅, h₆, h₇, h₈, h₉, h₁₀⟩
    exact ⟨_, h₁, _, h₂, _, h₃, _, h₄, _, h₅, _, h₆, _, h₇, _, h₈, _, h₉, _, h₁₀, rfl⟩

/-- **The passes do not interfere**: what is taken in the end is what the object says. -/
theorem deserialize_iff_describes {fields fields' : List (String × Value)}
    (h : numberKeys.foldlM (readNumber parse) (defaults.foldl orInsert fields) = .ok fields')
    {config : Config} : deserialize parseIp (dropEmptyOutput fields') = some config ↔
      Describes parse parseIp fields config := by
  -- a number field is read as the rules say, whatever comes in
  have hnumber : ∀ k ∈ numberKeys, ∀ n, Entries.find k (dropEmptyOutput fields') =
      some (number n) ↔ Says parse fields k n := fun k hk n => by
    rw [find_number h hk]
    exact says_iff
  -- the fields that are not numbers come through as they are
  have hother : ∀ k, k ∉ numberKeys → k ≠ "json_output" →
      Entries.find k (dropEmptyOutput fields') = Entries.find k fields := fun k hk hne => by
    rw [find_dropEmptyOutput hne, find_other h hk]
  rw [deserialize_eq_some_iff, bind_asU32, bind_asU32, bind_asU16, bind_asU16, bind_asF64,
    bind_asF64, bind_asF64, bind_asIpv4, bind_asIpv4,
    saysOutput_iff (find_other h (by decide)), hother "router_id" (by decide) (by decide),
    hother "peer_ip" (by decide) (by decide)]
  simp only [hnumber _ (show "local_as" ∈ numberKeys by decide),
    hnumber _ (show "peer_as" ∈ numberKeys by decide),
    hnumber _ (show "hold_time" ∈ numberKeys by decide),
    hnumber _ (show "reconnect_delay" ∈ numberKeys by decide),
    hnumber _ (show "connect_timeout" ∈ numberKeys by decide),
    hnumber _ (show "active_retry_delay" ∈ numberKeys by decide),
    hnumber _ (show "listen_port" ∈ numberKeys by decide)]
  constructor
  · rintro ⟨h₁, h₂, h₃, h₄, h₅, h₆, h₇, h₈, h₉, h₁₀⟩
    exact ⟨h₁, h₂, h₃, h₄, h₅, h₆, h₇, h₈, h₉, h₁₀⟩
  · rintro ⟨h₁, h₂, h₃, h₄, h₅, h₆, h₇, h₈, h₉, h₁₀⟩
    exact ⟨h₁, h₂, h₃, h₄, h₅, h₆, h₇, h₈, h₉, h₁₀⟩

/-- A configuration that is described has all its numbers read. -/
theorem Describes.exists_passes {fields : List (String × Value)} {config : Config}
    (h : Describes parse parseIp fields config) : ∃ fields',
      numberKeys.foldlM (readNumber parse) (defaults.foldl orInsert fields) = .ok fields' := by
  have hsays : ∀ k ∈ numberKeys, ∃ n, Says parse fields k n := by
    obtain ⟨⟨_, h₁, -⟩, -, -, ⟨_, h₂, -⟩, ⟨_, h₃, -⟩, ⟨_, h₄, -⟩, ⟨_, h₅, -⟩, ⟨_, h₆, -⟩,
      ⟨_, h₇, -⟩, -⟩ := h
    simp only [numberKeys, List.forall_mem_cons]
    exact ⟨⟨_, h₁⟩, ⟨_, h₂⟩, ⟨_, h₃⟩, ⟨_, h₄⟩, ⟨_, h₅⟩, ⟨_, h₆⟩, ⟨_, h₇⟩, nofun⟩
  refine exists_readNumbers fun k hk v hv => ?_
  obtain ⟨n, hn⟩ := hsays k hk
  have hread := says_iff.mpr hn
  rw [← find_foldl_orInsert, hv] at hread
  exact Option.isSome_iff_exists.mpr ⟨_, hread⟩

/-- What is accepted is described and passes its checks. -/
theorem describes_of_fromValue {value : Value} {config : Config}
    (h : fromValue parse parseIp refusal value = .ok config) : ∃ fields, value = obj fields ∧
      Describes parse parseIp fields config ∧ config.validate = .ok () := by
  -- the request is an object, or refused
  cases value with
  | obj fields =>
    obtain ⟨fields', hpasses, h⟩ := Reader.bind_eq_ok_iff.mp h
    dsimp only at h
    cases hd : deserialize parseIp (dropEmptyOutput fields') with
    | none =>
      rw [hd] at h
      cases h
    | some c =>
      rw [hd] at h
      -- the configuration has passed its own check
      obtain ⟨⟨⟩, hvalid, h⟩ := Reader.bind_eq_ok_iff.mp h
      obtain rfl := Except.ok.inj h
      exact ⟨fields, rfl, (deserialize_iff_describes hpasses).mp hd, hvalid⟩
  | _ => cases h

/-- What is described and passes its checks is accepted. -/
theorem Describes.accepted {fields : List (String × Value)} {config : Config}
    (h : Describes parse parseIp fields config) (hvalid : config.validate = .ok ()) :
    fromValue parse parseIp refusal (obj fields) = .ok config := by
  obtain ⟨fields', hpasses⟩ := h.exists_passes
  have hd := (deserialize_iff_describes hpasses).mpr h
  simp only [fromValue, hpasses, hd, hvalid, Except.bind, bind, pure, Except.pure]

/-- **What a request is accepted for**: exactly the configuration that its object describes,
when that passes its checks. -/
theorem fromValue_ok_iff {value : Value} {config : Config} :
    fromValue parse parseIp refusal value = .ok config ↔ ∃ fields, value = obj fields ∧
      Describes parse parseIp fields config ∧ config.validate = .ok () := by
  constructor
  · exact describes_of_fromValue
  · rintro ⟨fields, rfl, h, hvalid⟩
    exact h.accepted hvalid

/-! ### A configuration that is reported -/

/-- What `serde_json` makes of a floating-point number. -/
def delayValue : F64 → Value
  | .finite q => number (.float (.finite q))
  | _ => null

/-- The members of the serialized configuration, in the order of its fields. -/
def members (config : Config) : List (String × Value) :=
  [("local_as", number (.posInt config.localAs.toUInt64)), ("router_id", str config.routerId.text),
    ("peer_ip", str config.peerIp.text), ("peer_as", number (.posInt config.peerAs.toUInt64)),
    ("hold_time", number (.posInt config.holdTime.toUInt64)),
    ("reconnect_delay", delayValue config.reconnectDelay),
    ("connect_timeout", delayValue config.connectTimeout),
    ("active_retry_delay", delayValue config.activeRetryDelay),
    ("listen_port", number (.posInt config.listenPort.toUInt64)),
    ("json_output", (config.jsonOutput.map str).getD null)]

/-- A configuration as it is reported, and other members beside it. -/
def reported (config : Config) (others : List (String × Value)) : List (String × Value) :=
  Entries.ofList (config.members ++ others)

/-- What is found in a map of entries is the last of its key. -/
theorem find_ofList (entries : List (String × Value)) (k : String) :
    Entries.find k (Entries.ofList entries) = Entries.find k entries.reverse := by
  induction entries using List.reverseRecOn with
  | nil => rfl
  | append_singleton entries e ih =>
    rw [Entries.ofList_concat, Entries.find_insert, ih, List.reverse_append, List.reverse_singleton,
      List.singleton_append, Entries.find_cons]

/-- The other members do not hide one of the configuration. -/
theorem find_reported {config : Config} {others : List (String × Value)} {k : String}
    (hothers : ∀ e ∈ others, e.1 ≠ k) :
    Entries.find k (config.reported others) = Entries.find k config.members.reverse := by
  have hnone : Entries.find k others.reverse = none :=
    Option.eq_none_iff_forall_ne_some.mpr fun v hv =>
      hothers _ (List.mem_reverse.mp (Entries.mem_of_find hv)) rfl
  rw [reported, find_ofList, List.reverse_append, Entries.find_append, hnone, Option.none_or]

/-- A delay that is accepted is a number. -/
theorem validateDelay_ok {name : String} {x : F64} {allowZero : Bool}
    (h : validateDelay name x allowZero = .ok ()) : ∃ q, x = .finite q := by
  cases x with
  | finite q => exact ⟨q, rfl⟩
  | nan | inf => simp [validateDelay, F64.isFinite] at h

/-- So are all three of an accepted configuration. -/
theorem validate_delays {config : Config} (h : config.validate = .ok ()) :
    (∃ q, config.reconnectDelay = .finite q) ∧ (∃ q, config.connectTimeout = .finite q) ∧
      ∃ q, config.activeRetryDelay = .finite q := by
  unfold validate at h
  -- the checks in front of the delays have passed
  split_ifs at h <;> try cases h
  obtain ⟨⟨⟩, h₁, h⟩ := Reader.bind_eq_ok_iff.mp h
  obtain ⟨⟨⟩, h₂, h₃⟩ := Reader.bind_eq_ok_iff.mp h
  exact ⟨validateDelay_ok h₁, validateDelay_ok h₂, validateDelay_ok h₃⟩

/-- A number is read of the text of a number only. -/
theorem finite_of_reread {readFloat : ℚ → ℚ} {x : F64} {r : ℚ}
    (h : x.reread readFloat = .finite r) : ∃ q, x = .finite q := by
  cases x with
  | finite q => exact ⟨q, rfl⟩
  | nan | inf => cases h

/-- The configuration with the delays that are read of its text. -/
def reread (readFloat : ℚ → ℚ) (config : Config) : Config :=
  { config with
    reconnectDelay := config.reconnectDelay.reread readFloat
    connectTimeout := config.connectTimeout.reread readFloat
    activeRetryDelay := config.activeRetryDelay.reread readFloat }

/-- What comes back when the configuration is reported and posted: an output with an empty name
is dropped. -/
def returned (readFloat : ℚ → ℚ) (config : Config) : Config :=
  { config.reread readFloat with jsonOutput := config.jsonOutput.filter (· ≠ "") }

/-- An object describes one configuration at most. -/
theorem Describes.unique {fields : List (String × Value)} {c c' : Config}
    (h : Describes parse parseIp fields c) (h' : Describes parse parseIp fields c') : c = c' := by
  obtain ⟨fields', hpasses⟩ := h.exists_passes
  have hc := (deserialize_iff_describes hpasses).mpr h
  rw [(deserialize_iff_describes hpasses).mpr h'] at hc
  exact (Option.some.inj hc).symm

/-- What the object that is posted has under a key of the configuration. -/
theorem find_posted {readFloat : ℚ → ℚ} {config : Config} {others : List (String × Value)}
    (hothers : ∀ e ∈ others, e.1 ∉ config.members.map Prod.fst) {k : String} {v : Value}
    (hk : k ∈ config.members.map Prod.fst) (hv : Entries.find k config.members.reverse = some v) :
    Entries.find k (rereadFields readFloat (config.reported others))
      = some (v.reread readFloat) := by
  rw [find_rereadFields, find_reported fun e he heq => hothers e he (heq ▸ hk), hv, Option.map_some]

/-- A delay that is read as a number was one. -/
theorem finite_of_says {fields : List (String × Value)} {k : String} {n : Number} {x : F64}
    {readFloat : ℚ → ℚ} (hn : Says parse fields k n)
    (hfind : Entries.find k fields = some ((delayValue x).reread readFloat)) :
    ∃ q, x = .finite q := by
  cases x with
  | finite q => exact ⟨q, rfl⟩
  | nan | inf =>
    cases hn with
    | number hf => cases hfind.symm.trans hf
    | text hf => cases hfind.symm.trans hf
    | missing hf => cases hfind.symm.trans hf

/-- **A configuration that is reported can be posted**, and describes what comes back, if its
delays are numbers. -/
theorem describes_returned {readFloat : ℚ → ℚ} {config : Config} {others : List (String × Value)}
    (hrouter : parseIp config.routerId.text = some config.routerId)
    (hpeer : parseIp config.peerIp.text = some config.peerIp)
    (hothers : ∀ e ∈ others, e.1 ∉ config.members.map Prod.fst)
    {q₁ q₂ q₃ : ℚ} (h₁ : config.reconnectDelay = .finite q₁)
    (h₂ : config.connectTimeout = .finite q₂) (h₃ : config.activeRetryDelay = .finite q₃) :
    Describes parse parseIp (rereadFields readFloat (config.reported others))
      (config.returned readFloat) := by
  -- every field of the report is found again behind the round trip
  have hfind := @find_posted readFloat config others hothers
  -- an integer is read back as it was
  have hint : ∀ k n, k ∈ config.members.map Prod.fst →
      Entries.find k config.members.reverse = some (number (.posInt n)) →
      Says parse (rereadFields readFloat (config.reported others)) k (.posInt n) :=
    fun k n hk hn => .number (hfind hk hn)
  -- a delay is read back as its text is read
  have hfloat : ∀ k q, k ∈ config.members.map Prod.fst →
      Entries.find k config.members.reverse = some (number (.float (.finite q))) →
      Says parse (rereadFields readFloat (config.reported others)) k
        (.float (.finite (readFloat q))) :=
    fun k q hk hq => .number (hfind hk hq)
  refine ⟨⟨_, hint _ _ (by simp [members]) rfl, by simp [returned, reread]⟩,
    ⟨_, hfind (k := "router_id") (by simp [members]) rfl, hrouter⟩,
    ⟨_, hfind (k := "peer_ip") (by simp [members]) rfl, hpeer⟩,
    ⟨_, hint _ _ (by simp [members]) rfl, by simp [returned, reread]⟩,
    ⟨_, hint _ _ (by simp [members]) rfl, by simp [returned, reread]⟩,
    ⟨_, hfloat _ q₁ (by simp [members]) (by rw [members, h₁]; rfl), ?_⟩,
    ⟨_, hfloat _ q₂ (by simp [members]) (by rw [members, h₂]; rfl), ?_⟩,
    ⟨_, hfloat _ q₃ (by simp [members]) (by rw [members, h₃]; rfl), ?_⟩,
    ⟨_, hint _ _ (by simp [members]) rfl, by simp [returned, reread]⟩, ?_⟩
  · rw [returned, reread, h₁]
    rfl
  · rw [returned, reread, h₂]
    rfl
  · rw [returned, reread, h₃]
    rfl
  · cases ho : config.jsonOutput with
    | none =>
      rw [returned, ho]
      exact .null (hfind (k := "json_output") (v := null) (by simp [members])
        (by rw [members, ho]; rfl))
    | some s =>
      have hs := hfind (k := "json_output") (v := .str s) (by simp [members])
        (by rw [members, ho]; rfl)
      rw [returned, ho]
      by_cases hempty : s = ""
      · rw [Option.filter_some, if_neg (by simp [hempty])]
        exact .empty (hempty ▸ hs)
      · rw [Option.filter_some, if_pos (by simp [hempty])]
        exact .file hs hempty

/-- What comes back is the configuration itself when its delays are read as they were and its
output is no file with an empty name. -/
theorem returned_eq_iff {readFloat : ℚ → ℚ} {config : Config} :
    config = config.returned readFloat ↔
      config.jsonOutput ≠ some "" ∧ config.reread readFloat = config := by
  constructor
  · intro h
    -- what is dropped on the way is an empty output only
    have hout : config.jsonOutput = config.jsonOutput.filter (· ≠ "") :=
      congrArg Config.jsonOutput h
    refine ⟨fun hempty => ?_, ?_⟩
    · rw [hempty] at hout
      cases hout
    · conv_rhs => rw [h, returned, ← hout]
      rfl
  · rintro ⟨hne, hread⟩
    have hout : config.jsonOutput.filter (· ≠ "") = config.jsonOutput := by
      cases ho : config.jsonOutput with
      | none => rfl
      | some s =>
        have hs : s ≠ "" := fun hs => hne (ho.trans (congrArg some hs))
        rw [Option.filter_some, if_pos (decide_eq_true hs)]
    rw [returned, hread, hout]

/-- **What is reported is accepted again**, whatever is reported with it: as what comes back of
it, when that passes its checks. It is accepted as it was exactly when it passes its checks, no
file has an empty name and the delays are read as they were written. -/
theorem fromValue_reported_iff {readFloat : ℚ → ℚ} {config : Config}
    {others : List (String × Value)}
    (hrouter : parseIp config.routerId.text = some config.routerId)
    (hpeer : parseIp config.peerIp.text = some config.peerIp)
    (hothers : ∀ e ∈ others, e.1 ∉ config.members.map Prod.fst) :
    (∀ c, fromValue parse parseIp refusal ((obj (config.reported others)).reread readFloat)
        = .ok c ↔
      c = config.returned readFloat ∧ c.validate = .ok ()) ∧
    (fromValue parse parseIp refusal ((obj (config.reported others)).reread readFloat)
        = .ok config ↔
      config.validate = .ok () ∧ config.jsonOutput ≠ some "" ∧
        config.reread readFloat = config) := by
  have hall : ∀ c,
      fromValue parse parseIp refusal ((obj (config.reported others)).reread readFloat) = .ok c ↔
        c = config.returned readFloat ∧ c.validate = .ok () := by
    intro c
    constructor
    · intro h
      obtain ⟨fields, hfields, hdescribes, hvalid⟩ := describes_of_fromValue h
      obtain rfl := Value.obj.inj hfields
      -- the delays are numbers, or nothing would be read of them
      obtain ⟨-, -, -, -, -, ⟨_, h₁, -⟩, ⟨_, h₂, -⟩, ⟨_, h₃, -⟩, -, -⟩ := id hdescribes
      obtain ⟨q₁, h₁⟩ := finite_of_says h₁ (find_posted hothers (by simp [members]) rfl)
      obtain ⟨q₂, h₂⟩ := finite_of_says h₂ (find_posted hothers (by simp [members]) rfl)
      obtain ⟨q₃, h₃⟩ := finite_of_says h₃ (find_posted hothers (by simp [members]) rfl)
      exact ⟨hdescribes.unique (describes_returned hrouter hpeer hothers h₁ h₂ h₃), hvalid⟩
    · rintro ⟨rfl, hvalid⟩
      -- delays that pass the check are finite, and were so before they were read
      obtain ⟨⟨r₁, h₁⟩, ⟨r₂, h₂⟩, ⟨r₃, h₃⟩⟩ := validate_delays hvalid
      obtain ⟨q₁, h₁⟩ := finite_of_reread h₁
      obtain ⟨q₂, h₂⟩ := finite_of_reread h₂
      obtain ⟨q₃, h₃⟩ := finite_of_reread h₃
      exact (describes_returned hrouter hpeer hothers h₁ h₂ h₃).accepted hvalid
  refine ⟨hall, (hall config).trans ?_⟩
  rw [returned_eq_iff, and_comm]

/-- 1.4000000000000001 is read as 1.4. -/
def sampleReadFloat (q : ℚ) : ℚ :=
  if q = 6305039478318695 / 2 ^ 52 then 6305039478318694 / 2 ^ 52 else q

/-- A configuration with a file for its output, reported while the session runs: it is accepted
with a delay that is read as another one, and as it was with one that is not. -/
theorem fromValue_reported_iff_running :
    let router : Ipv4Addr := ⟨#v[192, 0, 2, 9]⟩
    let peer : Ipv4Addr := ⟨#v[192, 0, 2, 1]⟩
    let config (delay : ℚ) : Config := ⟨65000, router, peer, 65001, 90, .finite 5, .finite 5,
      .finite delay, 179, some "rib.json"⟩
    let post (delay : ℚ) := fromValue (fun _ => none)
      (fun s => if s = "192.0.2.9" then some router
        else if s = "192.0.2.1" then some peer else none) (fun _ => "")
      ((obj ((config delay).reported [("running", bool true)])).reread sampleReadFloat)
    post (6305039478318695 / 2 ^ 52) = .ok (config (6305039478318694 / 2 ^ 52)) ∧
      post 1 = .ok (config 1) := by
  intro router peer config post
  -- the running flag is no field of a configuration
  have hothers : ∀ delay, ∀ e ∈ [("running", bool true)],
      e.1 ∉ (config delay).members.map Prod.fst := by
    simp [members]
  refine ⟨?_, ?_⟩
  · refine ((fromValue_reported_iff (by decide) (by decide) (hothers _)).1 _).mpr ⟨?_, ?_⟩
    · norm_num [config, returned, Config.reread, F64.reread, sampleReadFloat]
      rfl
    · norm_num [config, validate, validateDelay, F64.isFinite, F64.lt, F64.eq, F64.gt]
      rfl
  · refine (fromValue_reported_iff (by decide) (by decide) (hothers _)).2.mpr
      ⟨by decide, by decide, ?_⟩
    norm_num [config, Config.reread, F64.reread, sampleReadFloat]

end Config

end Session
