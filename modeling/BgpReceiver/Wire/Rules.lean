import BgpReceiver.Wire.Rendering

/-!
# FlowSpec rules

What a FlowSpec rule is, apart from how it is reported. `rawRule` reads a rule into
components, each a prefix or a list of terms, and renders nothing. `components`
reports exactly what `rawRule` reads (`components_ok_iff_rawRule`).

The meaning of a rule assigns to each component type what the components of that
type say: the leading bits of a prefix, or the sequence of terms with their AND
bits, their comparison bits and their operands (`RawRule.meaning`). Two rules are
the same when they mean the same (`SameRule`).

The report leaves some of it out. The AND bits are not shown, nor are the operand
bits that a kind has no use for, and of two components of one type only the later
is kept. `SameUnshown` says that two rules agree in all of that, and among rules
with equal reports it is exactly what decides whether they are the same
(`sameRule_iff_sameUnshown`).
-/

namespace Wire

/-! ### Reading a rule -/

/-- A term: its operator octet and its operand. -/
structure RawTerm where
  op : UInt8
  operand : Bytes
  deriving DecidableEq

/-- What is behind the type of a component: a prefix, or terms. -/
inductive RawValue where
  | pfx (len : UInt8) (raw : Bytes)
  | terms (ts : List RawTerm)
  deriving DecidableEq

/-- A component as it stands on the wire. -/
structure RawComponent where
  kind : UInt8
  value : RawValue
  deriving DecidableEq

/-- A term is read, and whether it is the last one. -/
def rawTerm : Reader String UInt8 (RawTerm × Bool) := fun data => do
  let (op, data) ← byteAt data
  let (operand, data) ← take (opLen op) data
  return ((⟨op, operand⟩, opEnd op), data)

/-- What is behind a type, without its texts. -/
def rawValue (kind : UInt8) (afi : ℕ) : Reader String UInt8 RawValue := fun data => do
  if kind = 1 ∨ kind = 2 then
    let (len, data) ← byteAt data
    if len.toNat ≤ maxBits afi then
      let (raw, data) ← take (divCeil8 len.toNat) data
      return (.pfx len raw, data)
    else
      throw "Invalid FlowSpec prefix"
  else
    let (ts, data) ← Reader.untilLast rawTerm data
    return (.terms ts, data)

/-- The octets of a component. -/
def rawComponent (afi : ℕ) : Reader String UInt8 RawComponent := fun data => do
  let (kind, data) ← byteAt data
  let (value, data) ← rawValue kind afi data
  return (⟨kind, value⟩, data)

/-- The components of a rule. -/
def rawRule (data : Bytes) (afi : ℕ) : Except String (List RawComponent) :=
  Reader.collect (rawComponent afi) data

/-- A term is its operator and an operand of the length that this says. -/
theorem rawTerm_ok_iff {data rest : Bytes} {t : RawTerm} {last : Bool} :
    rawTerm data = .ok ((t, last), rest) ↔
      data = t.op :: (t.operand ++ rest) ∧ t.operand.length = opLen t.op ∧ last = opEnd t.op := by
  unfold rawTerm
  simp only [Reader.bind_eq_ok_iff]
  constructor
  · rintro ⟨⟨op, data₁⟩, hb, ⟨operand, data₂⟩, ht, h⟩
    obtain rfl := byteAt_ok_iff.mp hb
    obtain ⟨rfl, hl⟩ := take_ok_iff.mp ht
    obtain ⟨he, rfl⟩ := Prod.mk.inj (Except.ok.inj h)
    obtain ⟨rfl, rfl⟩ := Prod.mk.inj he
    exact ⟨rfl, hl, rfl⟩
  · rintro ⟨rfl, hl, rfl⟩
    exact ⟨(t.op, t.operand ++ rest), byteAt_ok_iff.mpr rfl, (t.operand, rest),
      take_ok_iff.mpr ⟨rfl, hl⟩, rfl⟩

theorem rawTerm_consumes : Reader.Consumes rawTerm := by
  rintro data ⟨t, last⟩ rest h
  obtain ⟨rfl, -⟩ := rawTerm_ok_iff.mp h
  rw [List.length_cons, List.length_append]
  omega

/-- A prefix is its length and its octets. -/
theorem rawValue_pfx_ok_iff {kind : UInt8} {afi : ℕ} {data rest : Bytes} {v : RawValue}
    (hk : kind = 1 ∨ kind = 2) :
    rawValue kind afi data = .ok (v, rest) ↔
      ∃ len raw, data = len :: (raw ++ rest) ∧ len.toNat ≤ maxBits afi ∧
        raw.length = divCeil8 len.toNat ∧ v = .pfx len raw := by
  unfold rawValue
  rw [if_pos hk]
  simp only [Reader.bind_eq_ok_iff]
  constructor
  · rintro ⟨⟨len, data₁⟩, hb, h⟩
    obtain rfl := byteAt_ok_iff.mp hb
    -- the length is checked before the octets are taken
    by_cases hle : len.toNat ≤ maxBits afi
    · simp only [if_pos hle, Reader.bind_eq_ok_iff] at h
      obtain ⟨⟨raw, data₂⟩, ht, h⟩ := h
      obtain ⟨rfl, hl⟩ := take_ok_iff.mp ht
      obtain ⟨rfl, rfl⟩ := Prod.mk.inj (Except.ok.inj h)
      exact ⟨len, raw, rfl, hle, hl, rfl⟩
    · rw [if_neg hle] at h
      exact absurd h (by simp [throw, throwThe, MonadExceptOf.throw])
  · rintro ⟨len, raw, rfl, hle, hl, rfl⟩
    refine ⟨(len, raw ++ rest), byteAt_ok_iff.mpr rfl, ?_⟩
    simp only [if_pos hle, Reader.bind_eq_ok_iff]
    exact ⟨(raw, rest), take_ok_iff.mpr ⟨rfl, hl⟩, rfl⟩

theorem rawValue_terms_ok_iff {kind : UInt8} {afi : ℕ} {data rest : Bytes} {v : RawValue}
    (hk : ¬ (kind = 1 ∨ kind = 2)) :
    rawValue kind afi data = .ok (v, rest) ↔
      ∃ ts, Reader.UntilLast rawTerm data ts rest ∧ v = .terms ts := by
  unfold rawValue
  rw [if_neg hk]
  simp only [Reader.bind_eq_ok_iff]
  constructor
  · rintro ⟨⟨ts, rest'⟩, hu, h⟩
    obtain ⟨rfl, rfl⟩ := Prod.mk.inj (Except.ok.inj h)
    exact ⟨ts, (Reader.untilLast_ok_iff rawTerm_consumes).mp hu, rfl⟩
  · rintro ⟨ts, hu, rfl⟩
    exact ⟨(ts, rest), (Reader.untilLast_ok_iff rawTerm_consumes).mpr hu, rfl⟩

/-- A component is its type and its value. -/
theorem rawComponent_ok_iff {afi : ℕ} {data rest : Bytes} {c : RawComponent} :
    rawComponent afi data = .ok (c, rest) ↔
      ∃ data', data = c.kind :: data' ∧ rawValue c.kind afi data' = .ok (c.value, rest) := by
  unfold rawComponent
  simp only [Reader.bind_eq_ok_iff]
  constructor
  · rintro ⟨⟨kind, data'⟩, hb, ⟨v, rest'⟩, hv, h⟩
    obtain rfl := byteAt_ok_iff.mp hb
    obtain ⟨rfl, rfl⟩ := Prod.mk.inj (Except.ok.inj h)
    exact ⟨data', rfl, hv⟩
  · rintro ⟨data', rfl, hv⟩
    exact ⟨(c.kind, data'), byteAt_ok_iff.mpr rfl, (c.value, rest), hv, rfl⟩

theorem rawComponent_consumes (afi : ℕ) : Reader.Consumes (rawComponent afi) := by
  intro data c rest h
  obtain ⟨data', rfl, hv⟩ := rawComponent_ok_iff.mp h
  rw [List.length_cons]
  by_cases hk : c.kind = 1 ∨ c.kind = 2
  · obtain ⟨len, raw, rfl, -⟩ := (rawValue_pfx_ok_iff hk).mp hv
    rw [List.length_cons, List.length_append]
    omega
  · obtain ⟨ts, hu, -⟩ := (rawValue_terms_ok_iff hk).mp hv
    have := hu.length_lt rawTerm_consumes
    omega

/-- A rule is read as its components, up to the end. -/
theorem rawRule_ok_iff {data : Bytes} {afi : ℕ} {cs : List RawComponent} :
    rawRule data afi = .ok cs ↔ Reader.Items (rawComponent afi) data cs :=
  Reader.collect_ok_iff (rawComponent_consumes afi)

/-! ### Components as they are read -/

/-- A component that has been read: prefixes under the types 1 and 2 only, with the
octets that their length asks for, and operands of at most eight octets. -/
def RawComponent.WellFormed (afi : ℕ) (c : RawComponent) : Prop :=
  match c.value with
  | .pfx len raw =>
    (c.kind = 1 ∨ c.kind = 2) ∧ len.toNat ≤ maxBits afi ∧ raw.length = divCeil8 len.toNat
  | .terms ts => ¬ (c.kind = 1 ∨ c.kind = 2) ∧ ∀ t ∈ ts, t.operand.length ≤ 8

/-- A component that is read is well formed. -/
theorem rawComponent_wellFormed {afi : ℕ} {data rest : Bytes} {c : RawComponent}
    (h : rawComponent afi data = .ok (c, rest)) : c.WellFormed afi := by
  obtain ⟨data', -, hv⟩ := rawComponent_ok_iff.mp h
  obtain ⟨kind, value⟩ := c
  by_cases hk : kind = 1 ∨ kind = 2
  · obtain ⟨len, raw, -, hle, hl, rfl⟩ := (rawValue_pfx_ok_iff hk).mp hv
    exact ⟨hk, hle, hl⟩
  · obtain ⟨ts, hu, rfl⟩ := (rawValue_terms_ok_iff hk).mp hv
    refine ⟨hk, hu.forall_mem fun data x rest hx => ?_⟩
    rw [(rawTerm_ok_iff.mp hx).2.1]
    exact opLen_le _

theorem rawRule_wellFormed {data : Bytes} {afi : ℕ} {cs : List RawComponent}
    (h : rawRule data afi = .ok cs) : ∀ c ∈ cs, c.WellFormed afi :=
  (rawRule_ok_iff.mp h).forall_mem fun _ _ _ => rawComponent_wellFormed

/-! ### Reporting a rule -/

/-- The value a component is reported with. -/
def RawComponent.json (afi : ℕ) (c : RawComponent) : Json :=
  match c.value with
  | .pfx len raw => .str ((prefixString raw len.toNat afi false).getD "")
  | .terms ts => texts (ts.map fun t => termText c.kind t.op t.operand)

/-- The member a component is reported as. -/
def RawComponent.member (afi : ℕ) (c : RawComponent) : String × Json :=
  (componentKey c.kind afi, c.json afi)

/-- The text of a term is that of what is read. -/
theorem rawTerm_renders (kind : UInt8) :
    Reader.Renders rawTerm (fun x => (termText kind x.1.op x.1.operand, x.2))
      (componentTerm kind) := by
  rintro data ⟨text, last⟩ rest
  rw [componentTerm_ok_iff]
  constructor
  · rintro ⟨op, operand, hd, hl, rfl, rfl⟩
    exact ⟨(⟨op, operand⟩, opEnd op), rawTerm_ok_iff.mpr ⟨hd, hl, rfl⟩, rfl⟩
  · rintro ⟨⟨t, last'⟩, hr, he⟩
    obtain ⟨rfl, rfl⟩ := Prod.mk.inj he
    obtain ⟨hd, hl, rfl⟩ := rawTerm_ok_iff.mp hr
    exact ⟨t.op, t.operand, hd, hl, rfl, rfl⟩

/-- **The decoder reports what is read**, component by component. -/
theorem rawComponent_renders {afi : ℕ} (hafi : afi = 1 ∨ afi = 2) :
    Reader.Renders (rawComponent afi) (RawComponent.member afi) (component afi) := by
  rintro data ⟨key, value⟩ rest
  rw [component_ok_iff]
  constructor
  · rintro ⟨kind, data', rfl, rfl, hv⟩
    by_cases hk : kind = 1 ∨ kind = 2
    · obtain ⟨len, raw, text, rfl, hle, hl, hs, rfl⟩ := (componentValue_prefix_ok_iff hk).mp hv
      refine ⟨⟨kind, .pfx len raw⟩, rawComponent_ok_iff.mpr ⟨_, rfl,
        (rawValue_pfx_ok_iff hk).mpr ⟨len, raw, rfl, hle, hl, rfl⟩⟩, ?_⟩
      simp only [RawComponent.member, RawComponent.json, hs, Option.getD_some]
    · obtain ⟨values, hu, rfl⟩ := (componentValue_terms_ok_iff hk).mp hv
      -- the terms are rendered one by one
      obtain ⟨ts, hts, rfl⟩ :=
        (Reader.Renders.untilLast_iff (f := fun t : RawTerm => termText kind t.op t.operand)
          (rawTerm_renders kind)).mp hu
      exact ⟨⟨kind, .terms ts⟩, rawComponent_ok_iff.mpr ⟨_, rfl,
        (rawValue_terms_ok_iff hk).mpr ⟨ts, hts, rfl⟩⟩, rfl⟩
  · rintro ⟨⟨kind, v⟩, hr, he⟩
    obtain ⟨data', rfl, hv⟩ := rawComponent_ok_iff.mp hr
    obtain ⟨rfl, rfl⟩ := Prod.mk.inj he
    refine ⟨kind, data', rfl, rfl, ?_⟩
    by_cases hk : kind = 1 ∨ kind = 2
    · obtain ⟨len, raw, rfl, hle, hl, rfl⟩ := (rawValue_pfx_ok_iff hk).mp hv
      obtain ⟨text, hs⟩ := prefixString_isSome hafi raw len.toNat false
      refine (componentValue_prefix_ok_iff hk).mpr ⟨len, raw, text, rfl, hle, hl, hs, ?_⟩
      simp only [RawComponent.json, hs, Option.getD_some]
    · obtain ⟨ts, hu, rfl⟩ := (rawValue_terms_ok_iff hk).mp hv
      exact (componentValue_terms_ok_iff hk).mpr ⟨_,
        (Reader.Renders.untilLast_iff (f := fun t : RawTerm => termText kind t.op t.operand)
          (rawTerm_renders kind)).mpr ⟨ts, hu, rfl⟩, rfl⟩

/-- **`components` reports what `rawRule` reads.** -/
theorem components_ok_iff_rawRule {data : Bytes} {afi : ℕ} (hafi : afi = 1 ∨ afi = 2)
    {value : Json} :
    components data afi = .ok value ↔
      ∃ cs, rawRule data afi = .ok cs ∧ value = .object (cs.map (RawComponent.member afi)) := by
  rw [components_ok_iff]
  constructor
  · rintro ⟨parsed, hi, rfl⟩
    obtain ⟨cs, hcs, rfl⟩ := (rawComponent_renders hafi).items_iff.mp hi
    exact ⟨cs, rawRule_ok_iff.mpr hcs, rfl⟩
  · rintro ⟨cs, hcs, rfl⟩
    exact ⟨_, (rawComponent_renders hafi).items_iff.mpr ⟨cs, rawRule_ok_iff.mp hcs, rfl⟩, rfl⟩

/-! ### The name of a component type -/

/-- No two types have one name in a family. -/
theorem componentName_inj {afi : ℕ} {kind kind' : UInt8} {name : String}
    (h : componentName kind afi = some name) (h' : componentName kind' afi = some name) :
    kind = kind' := by
  unfold componentName at h h'
  by_cases h6 : afi = AFI_IPV6 ∧ kind = 13 <;> by_cases h6' : afi = AFI_IPV6 ∧ kind' = 13
  · rw [h6.2, h6'.2]
  · rw [if_pos h6] at h
    rw [if_neg h6'] at h'
    cases h
    split at h' <;> simp at h'
  · rw [if_neg h6] at h
    rw [if_pos h6'] at h'
    cases h'
    split at h <;> simp at h
  · rw [if_neg h6] at h
    rw [if_neg h6'] at h'
    split at h <;> cases h <;> split at h' <;> first | rfl | simp at h'

theorem componentName_ne_type {afi : ℕ} {kind : UInt8} {name : String}
    (h : componentName kind afi = some name) (s : String) : name ≠ "type" ++ s := by
  intro he
  have hlist : name.toList = 't' :: 'y' :: 'p' :: 'e' :: s.toList := by
    rw [he, String.toList_append]
    rfl
  unfold componentName at h
  split_ifs at h
  · cases h
    simp at hlist
  · split at h <;> cases h <;> simp at hlist

/-- No two component types are reported under one name. -/
theorem componentKey_inj {afi : ℕ} {kind kind' : UInt8}
    (h : componentKey kind afi = componentKey kind' afi) : kind = kind' := by
  unfold componentKey at h
  cases hn : componentName kind afi with
  | some name =>
    cases hn' : componentName kind' afi with
    | some name' =>
      rw [hn, hn'] at h
      have h : name = name' := h
      exact componentName_inj hn (h ▸ hn')
    | none =>
      rw [hn, hn'] at h
      exact absurd h (componentName_ne_type hn _)
  | none =>
    cases hn' : componentName kind' afi with
    | some name' =>
      rw [hn, hn'] at h
      exact absurd h.symm (componentName_ne_type hn' _)
    | none =>
      rw [hn, hn'] at h
      -- types without a name are told apart by their numbers
      have h := congrArg String.toList h
      rw [Option.getD_none, Option.getD_none, String.toList_append, String.toList_append] at h
      exact UInt8.toNat_inj.mp (Nat.repr_inj.mp
        (String.toList_inj.mp (List.append_cancel_left h)))

/-! ### What a rule means -/

/-- The first `len` bits of a prefix. -/
def leadingBits (raw : Bytes) (len : ℕ) : List Bool :=
  (raw.flatMap fun b => (List.range 8).map fun i => b.toNat.testBit (7 - i)).take len

/-- A term of the rule: whether it must hold together with the terms before it, how
the operand is compared, and the operand. -/
structure Term where
  and : Bool
  comparison : List Bool
  value : ℕ
  deriving DecidableEq

/-- What a component asks of a packet. -/
inductive Meaning where
  | pfx (len : ℕ) (bits : List Bool)
  | terms (ts : List Term)
  deriving DecidableEq

/-- The bit that joins a term to the one before. -/
def andBit (op : UInt8) : Bool := op &&& 0x40 ≠ 0

/-- What a term asks, and whether it is joined to the one before by AND. -/
def RawTerm.meaning (kind : UInt8) (and : Bool) (t : RawTerm) : Term :=
  ⟨and, comparison kind t.op, fromBeBytes t.operand⟩

/-- The terms of a component. The AND bit of the first has nothing before it to refer
to. -/
def termsMeaning (kind : UInt8) : List RawTerm → List Term
  | [] => []
  | t :: ts => t.meaning kind false :: ts.map fun t => t.meaning kind (andBit t.op)

/-- What a component asks: the bits of its prefix, or its terms with their joins. -/
def RawComponent.meaning (c : RawComponent) : Meaning :=
  match c.value with
  | .pfx len raw => .pfx len.toNat (leadingBits raw len.toNat)
  | .terms ts => .terms (termsMeaning c.kind ts)

/-- The components of one type. -/
def ofKind (kind : UInt8) (cs : List RawComponent) : List RawComponent :=
  cs.filter (·.kind = kind)

/-- Two rules mean the same: the components of every type do. -/
def SameRule (cs cs' : List RawComponent) : Prop :=
  ∀ kind, (ofKind kind cs).map RawComponent.meaning = (ofKind kind cs').map RawComponent.meaning

/-! ### What the report leaves out -/

/-- The AND bits of a component and the operand bits that are not shown. -/
def RawComponent.unshown (c : RawComponent) : List (Bool × ℕ) :=
  match c.value with
  | .pfx _ _ => []
  | .terms ts => (termsMeaning c.kind ts).map fun t => (t.and, t.value / shownBelow c.kind)

/-- Two rules agree in what the report leaves out: in the components that a later one
of the same type replaces, and in the unshown bits of the component that stays. -/
def SameUnshown (cs cs' : List RawComponent) : Prop :=
  ∀ kind,
    (ofKind kind cs).dropLast.map RawComponent.meaning
        = (ofKind kind cs').dropLast.map RawComponent.meaning ∧
      (ofKind kind cs).getLast?.map RawComponent.unshown
        = (ofKind kind cs').getLast?.map RawComponent.unshown

/-- The last component of a type is the one that is reported. -/
theorem find_member (afi : ℕ) (kind : UInt8) (cs : List RawComponent) :
    Entries.find (componentKey kind afi) (cs.map (RawComponent.member afi)).reverse
      = (ofKind kind cs).getLast?.map (RawComponent.json afi) := by
  induction cs using List.reverseRecOn with
  | nil => rfl
  | append_singleton cs c ih =>
    unfold ofKind at ih ⊢
    rw [List.map_append, List.reverse_append, List.filter_append, List.map_singleton,
      List.reverse_singleton, List.singleton_append]
    change Entries.find _ ((componentKey c.kind afi, c.json afi) :: _) = _
    rw [Entries.find_cons]
    by_cases hk : c.kind = kind
    · rw [if_pos (by rw [hk]), List.filter_cons_of_pos (by simpa using hk), List.filter_nil,
        List.getLast?_append]
      rfl
    · rw [if_neg fun h => hk (componentKey_inj h).symm, List.filter_cons_of_neg (by simpa using hk),
        List.filter_nil, List.append_nil, ih]

/-- What the report shows of a term. -/
def Term.shown (kind : UInt8) (t : Term) : List Bool × ℕ :=
  (t.comparison, t.value % shownBelow kind)

/-- The shown part of the terms does not depend on the AND bits. -/
theorem map_shown_termsMeaning (kind : UInt8) (ts : List RawTerm) :
    (termsMeaning kind ts).map (Term.shown kind)
      = ts.map fun t => (comparison kind t.op, fromBeBytes t.operand % shownBelow kind) := by
  cases ts with
  | nil => rfl
  | cons t ts =>
    rw [termsMeaning, List.map_cons, List.map_map]
    rfl

/-- Equal texts show equal terms. -/
theorem map_shown_eq {kind : UInt8} {ts ts' : List RawTerm}
    (hw : ∀ t ∈ ts, t.operand.length ≤ 8) (hw' : ∀ t ∈ ts', t.operand.length ≤ 8)
    (h : (ts.map fun t => termText kind t.op t.operand)
      = ts'.map fun t => termText kind t.op t.operand) :
    (termsMeaning kind ts).map (Term.shown kind)
      = (termsMeaning kind ts').map (Term.shown kind) := by
  rw [map_shown_termsMeaning, map_shown_termsMeaning]
  induction ts generalizing ts' with
  | nil =>
    rw [List.map_nil] at h
    rw [List.map_eq_nil_iff.mp h.symm]
  | cons t ts ih =>
    cases ts' with
    | nil => exact absurd h (by simp)
    | cons t' ts' =>
      rw [List.map_cons, List.map_cons] at h
      obtain ⟨ht, hts⟩ := List.cons.inj h
      obtain ⟨hc, hv⟩ := termText_inj (hw t List.mem_cons_self) (hw' t' List.mem_cons_self) ht
      rw [List.map_cons, List.map_cons, hc, hv,
        ih (fun t ht => hw t (List.mem_cons_of_mem _ ht))
          (fun t ht => hw' t (List.mem_cons_of_mem _ ht)) hts]

/-- What is shown of a term and what is not make up the term. -/
theorem terms_eq_iff {kind : UInt8} {l l' : List Term}
    (hs : l.map (Term.shown kind) = l'.map (Term.shown kind)) :
    l = l' ↔ (l.map fun t => (t.and, t.value / shownBelow kind))
      = l'.map fun t => (t.and, t.value / shownBelow kind) := by
  constructor
  · rintro rfl
    rfl
  · intro hu
    -- a term is what is shown of it and what is not
    have hpair : l.map (fun t => (t.shown kind, t.and, t.value / shownBelow kind))
        = l'.map fun t => (t.shown kind, t.and, t.value / shownBelow kind) := by
      calc l.map (fun t => (t.shown kind, t.and, t.value / shownBelow kind))
          = (l.map (Term.shown kind)).zip (l.map fun t => (t.and, t.value / shownBelow kind)) :=
            List.zip_map'.symm
        _ = (l'.map (Term.shown kind)).zip
              (l'.map fun t => (t.and, t.value / shownBelow kind)) := by
            rw [hs, hu]
        _ = l'.map fun t => (t.shown kind, t.and, t.value / shownBelow kind) :=
            List.zip_map'
    refine List.map_injective_iff.mpr (fun t t' h => ?_) hpair
    obtain ⟨hshown, hrest⟩ := Prod.mk.inj h
    obtain ⟨hc, hm⟩ := Prod.mk.inj hshown
    obtain ⟨ha, hd⟩ := Prod.mk.inj hrest
    have hv : t.value = t'.value := by
      rw [← Nat.div_add_mod t.value (shownBelow kind), hd, hm, Nat.div_add_mod]
    cases t
    cases t'
    simp_all

/-- A list of texts is told by its value. -/
theorem texts_inj {l l' : List String} (h : texts l = texts l') : l = l' :=
  List.map_injective_iff.mpr (fun _ _ => Json.str.inj) (Json.arr.inj h)

/-- **Components with equal reports** mean the same exactly when their unshown bits
agree. -/
theorem RawComponent.meaning_eq_iff {afi : ℕ} (hafi : afi = 1 ∨ afi = 2) {c c' : RawComponent}
    (hw : c.WellFormed afi) (hw' : c'.WellFormed afi) (hk : c.kind = c'.kind)
    (hj : c.json afi = c'.json afi) : c.meaning = c'.meaning ↔ c.unshown = c'.unshown := by
  obtain ⟨kind, value⟩ := c
  obtain ⟨kind', value'⟩ := c'
  simp only at hk
  subst hk
  cases value with
  | pfx len raw =>
    cases value' with
    | pfx len' raw' =>
      obtain ⟨-, hle, hl⟩ := hw
      obtain ⟨-, hle', hl'⟩ := hw'
      -- equal texts of prefixes come from equal leading bits
      have hs : prefixString raw len.toNat afi false = prefixString raw' len'.toNat afi false := by
        obtain ⟨s, hs⟩ := prefixString_isSome hafi raw len.toNat false
        obtain ⟨s', hs'⟩ := prefixString_isSome hafi raw' len'.toNat false
        have hj := Json.str.inj hj
        rw [hs, hs'] at hj
        rw [hs, hs']
        exact congrArg some hj
      obtain ⟨rfl, hlen⟩ := prefixString_inj hafi hle hle' hl hl' hs
      simp only [RawComponent.meaning, RawComponent.unshown, hlen]
    | terms ts' => exact absurd hw.1 hw'.1
  | terms ts =>
    cases value' with
    | pfx len' raw' => exact absurd hw'.1 hw.1
    | terms ts' =>
      -- equal texts of terms come from terms that are shown alike
      have hshown := map_shown_eq hw.2 hw'.2 (texts_inj hj)
      rw [RawComponent.unshown, RawComponent.unshown]
      simp only [RawComponent.meaning, Meaning.terms.injEq]
      exact terms_eq_iff hshown

/-- A list is its front and its last element. -/
theorem map_eq_map_iff_dropLast {α β : Type} {f : α → β} {l l' : List α} :
    l.map f = l'.map f ↔
      l.dropLast.map f = l'.dropLast.map f ∧ l.getLast?.map f = l'.getLast?.map f := by
  rw [List.map_dropLast, List.map_dropLast, ← List.getLast?_map, ← List.getLast?_map]
  constructor
  · intro h
    rw [h]
    exact ⟨rfl, rfl⟩
  · rintro ⟨hd, hl⟩
    generalize l.map f = m at hd hl
    generalize l'.map f = m' at hd hl
    -- a list is its front and its last element
    cases m using List.reverseRecOn with
    | nil =>
      rw [List.getLast?_nil] at hl
      exact (List.getLast?_eq_none_iff.mp hl.symm).symm
    | append_singleton m x =>
      cases m' using List.reverseRecOn with
      | nil => simp at hl
      | append_singleton m' x' =>
        rw [List.dropLast_concat, List.dropLast_concat] at hd
        rw [List.getLast?_concat, List.getLast?_concat] at hl
        rw [hd, Option.some.inj hl]

/-- **When rules with equal reports are the same rule.** They are exactly when they
agree in what the report leaves out: the AND bits, the operand bits that are not
shown, and the components that a later one of the same type replaces. -/
theorem sameRule_iff_sameUnshown {afi : ℕ} (hafi : afi = 1 ∨ afi = 2) {n n' : Bytes} {v : Json}
    (h : components n afi = .ok v) (h' : components n' afi = .ok v) :
    ∃ cs cs', rawRule n afi = .ok cs ∧ rawRule n' afi = .ok cs' ∧
      (SameRule cs cs' ↔ SameUnshown cs cs') := by
  obtain ⟨cs, hcs, hv⟩ := (components_ok_iff_rawRule hafi).mp h
  obtain ⟨cs', hcs', hv'⟩ := (components_ok_iff_rawRule hafi).mp h'
  refine ⟨cs, cs', hcs, hcs', forall_congr' fun kind => ?_⟩
  rw [map_eq_map_iff_dropLast]
  refine and_congr_right fun _ => ?_
  -- the component of this type that is reported is the last of both rules
  have hjson : (ofKind kind cs).getLast?.map (RawComponent.json afi)
      = (ofKind kind cs').getLast?.map (RawComponent.json afi) := by
    rw [← find_member, ← find_member, ← Json.get_object, ← Json.get_object, ← hv, ← hv']
  have hlast : ∀ {l : List RawComponent}, (∀ c ∈ l, c.WellFormed afi) →
      ∀ c ∈ (ofKind kind l).getLast?, c.WellFormed afi ∧ c.kind = kind := by
    intro l hl c hc
    have hmem := List.mem_filter.mp (List.mem_of_mem_getLast? hc)
    exact ⟨hl c hmem.1, of_decide_eq_true hmem.2⟩
  have hw := hlast (rawRule_wellFormed hcs)
  have hw' := hlast (rawRule_wellFormed hcs')
  -- the last components are both there or both absent
  cases hc : (ofKind kind cs).getLast? with
  | none =>
    cases hc' : (ofKind kind cs').getLast? with
    | none => simp
    | some c' =>
      rw [hc, hc'] at hjson
      exact absurd hjson (by simp)
  | some c =>
    cases hc' : (ofKind kind cs').getLast? with
    | none =>
      rw [hc, hc'] at hjson
      exact absurd hjson (by simp)
    | some c' =>
      rw [hc, hc'] at hjson
      obtain ⟨hwf, hk⟩ := hw c hc
      obtain ⟨hwf', hk'⟩ := hw' c' hc'
      simp only [Option.map_some, Option.some.injEq] at hjson ⊢
      exact RawComponent.meaning_eq_iff hafi hwf hwf' (hk.trans hk'.symm) hjson

end Wire
