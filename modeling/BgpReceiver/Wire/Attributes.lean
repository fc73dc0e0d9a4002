import BgpReceiver.Wire.Isolation
import BgpReceiver.Wire.Network

/-!
# What is reported of the attributes

The other half of what `update` does with the attributes: beside the routes it reports a
record for each of them, and the actions that the extended communities ask for.

An action may refer to the next hop of the FlowSpec routes. That is the next hop of the
last multiprotocol attribute that has one (`RawUpdate.flowNextHop`), and once the loop is
over the pass `replaceNextHop` puts it into the actions and into the records. What comes
out is a function of the content of the message (`update_attributes`).

The pass looks for the value of a record by indexing it for writing. A record without a
value gets one by that: the record of an extended communities attribute that does not
decode has both its octets and a value behind the pass, in the messages with a FlowSpec
next hop and in no others (`update_decodedOrRaw_iff`).
-/

namespace Wire

/-! ### The next hop of the FlowSpec routes -/

/-- The family and the next hop at the front of an MP_REACH_NLRI attribute. -/
def mpReach : Reader String UInt8 (ℕ × UInt8 × Bytes) := fun nlri => do
  let (afi, nlri) ← u16At nlri
  let (safi, nlri) ← byteAt nlri
  let (n, nlri) ← byteAt nlri
  let (hop, nlri) ← take n.toNat nlri
  let (_, nlri) ← take 1 nlri
  return ((afi, safi, hop), nlri)

/-- The next hop that an attribute has for the FlowSpec routes. -/
def RawAttr.flowHop (a : RawAttr) : Option Bytes :=
  if a.code = 14 then
    match mpReach a.data with
    | .ok ((afi, safi, hop), _) =>
      if (afi = 1 ∨ afi = 2) ∧ safi = 133 ∧ hop ≠ [] then some hop else none
    | .error _ => none
  else none

/-- The octets of the next hop that is put into the actions; without one there are none. -/
def RawUpdate.flowNextHop (r : RawUpdate) : Bytes :=
  r.attrs.foldl (fun hop a => a.flowHop.getD hop) []

/-- The text of a next hop is empty only without octets. -/
theorem nextHopString_eq_empty_iff {hop : Bytes} : nextHopString hop = "" ↔ hop = [] := by
  refine ⟨fun h => ?_, fun h => by rw [h]; rfl⟩
  unfold nextHopString at h
  split_ifs at h with h0 h4 h16 h32
  · exact List.length_eq_zero_iff.mp h0
  · -- an IPv4 address has a dot
    rcases hop with _ | ⟨a, _ | ⟨b, rest⟩⟩
    · exact absurd h4 (by simp)
    · exact absurd h4 (by simp)
    · have hdot := @IpAddr.dot_mem_ipv4Text a b rest
      rw [h] at hdot
      exact absurd hdot (by simp)
  · -- an IPv6 address has colons
    have hcolon := Ip.colon_mem_ipv6Text h16
    rw [h] at hcolon
    exact absurd hcolon (by simp)
  · -- two addresses have a separator between them
    have hlen := congrArg String.toList h
    rw [String.toList_append, String.toList_append] at hlen
    exact absurd hlen (by simp)
  · -- every other octet is shown with two digits
    have hlist := congrArg String.toList h
    cases hop with
    | nil => rfl
    | cons b hop => exact absurd hlist (by simp [hexEncode])

/-- The header of MP_REACH_NLRI, with its next hop as a text. -/
theorem mpHeader_reach (data : Bytes) :
    mpHeader 14 data
      = (mpReach data).map fun p => (⟨p.1.1, p.1.2.1, nextHopString p.1.2.2⟩, p.2) := by
  unfold mpHeader mpReach
  simp only [if_true]
  -- both read the same fields, so they fail at the same place
  cases u16At data with
  | error e => rfl
  | ok p =>
    obtain ⟨afi, data⟩ := p
    simp only [bind, Except.bind]
    cases byteAt data with
    | error e => rfl
    | ok p =>
      obtain ⟨safi, data⟩ := p
      simp only
      cases byteAt data with
      | error e => rfl
      | ok p =>
        obtain ⟨n, data⟩ := p
        simp only
        cases take n.toNat data with
        | error e => rfl
        | ok p =>
          obtain ⟨hop, data⟩ := p
          simp only
          cases take 1 data with
          | error e => rfl
          | ok p => rfl

/-! ### The loop over the attributes -/

/-- The actions that an attribute adds. -/
def RawAttr.actions (asnLen : ℕ) (a : RawAttr) : List Json :=
  if a.code = 16 ∨ a.code = 25 then
    ((attrRecord asnLen a).index "value").asArray.getD []
  else []

/-- An MP attribute only changes the routes and the next hop of FlowSpec routes. -/
theorem mpStep_flowNextHop {acc acc' : UpdateAcc} {a : RawAttr}
    (hcode : a.code = 14 ∨ a.code = 15) (h : mpStep acc a = .ok acc') :
    acc'.attributes = acc.attributes ∧ acc'.actions = acc.actions ∧
      acc'.flowNextHop = (a.flowHop.map nextHopString).getD acc.flowNextHop := by
  unfold mpStep at h
  simp only [Reader.bind_eq_ok_iff] at h
  obtain ⟨⟨hd, nlri⟩, hh, h⟩ := h
  -- the header that is kept has the next hop of the attribute
  have hhop : a.flowHop.map nextHopString
      = if hd.known = true ∧ hd.safi = 133 ∧ hd.nextHop ≠ "" then some hd.nextHop else none := by
    rcases hcode with hc | hc
    · rw [hc, mpHeader_reach] at hh
      rw [RawAttr.flowHop, if_pos hc]
      cases hr : mpReach a.data with
      | error e =>
        rw [hr] at hh
        exact absurd hh (by simp [Except.map])
      | ok p =>
        obtain ⟨⟨afi, safi, hop⟩, rest⟩ := p
        rw [hr] at hh
        obtain ⟨rfl, rfl⟩ := Prod.mk.inj (Except.ok.inj hh)
        simp only [MpHeader.known, ne_eq, nextHopString_eq_empty_iff, Bool.and_eq_true,
          Bool.or_eq_true, decide_eq_true_eq]
        by_cases hs : safi = 133
        · by_cases ha : afi = 1 ∨ afi = 2
          · by_cases hn : hop = [] <;> simp [hs, ha, hn]
          · simp [hs, ha]
        · simp [hs]
    · -- MP_UNREACH_NLRI has none
      have hnone : hd.nextHop = "" := by
        rw [hc] at hh
        unfold mpHeader at hh
        simp only [Reader.bind_eq_ok_iff] at hh
        obtain ⟨p, -, q, -, hh⟩ := hh
        obtain ⟨rfl, -⟩ := Prod.mk.inj (Except.ok.inj hh)
        rfl
      rw [RawAttr.flowHop, if_neg (by rw [hc]; decide), hnone]
      simp
  rw [hhop]
  -- a known family stores its routes, and an unknown one is passed over
  by_cases hk : hd.known
  · simp only [hk, if_true, Reader.bind_eq_ok_iff] at h
    obtain ⟨routes, -, h⟩ := h
    by_cases hs : hd.safi = 133 ∧ hd.nextHop ≠ ""
    · simp only [if_pos hs] at h
      rw [if_pos ⟨hk, hs⟩]
      split_ifs at h <;> obtain rfl := Except.ok.inj h <;> exact ⟨rfl, rfl, rfl⟩
    · simp only [if_neg hs] at h
      rw [if_neg fun hall => hs hall.2]
      split_ifs at h <;> obtain rfl := Except.ok.inj h <;> exact ⟨rfl, rfl, rfl⟩
  · simp only [hk, Bool.false_eq_true, if_false] at h
    obtain rfl := Except.ok.inj h
    rw [if_neg fun hall => hk hall.1]
    exact ⟨rfl, rfl, rfl⟩

/-- What the notes of an attribute leave alone. -/
theorem noted_frame (asnLen : ℕ) (acc : UpdateAcc) (a : RawAttr) :
    (noted asnLen acc a).attributes = acc.attributes ∧
      (noted asnLen acc a).actions = acc.actions ++ a.actions asnLen ∧
      (noted asnLen acc a).flowNextHop = acc.flowNextHop := by
  unfold noted RawAttr.actions
  simp only
  split_ifs <;> simp

/-- **One turn of the loop** adds the record of the attribute and its actions. -/
theorem attrStep_attributes {asnLen : ℕ} {acc acc' : UpdateAcc} {a : RawAttr}
    (h : attrStep asnLen acc a = .ok acc') :
    acc'.attributes = acc.attributes ++ [attrRecord asnLen a] ∧
      acc'.actions = acc.actions ++ a.actions asnLen ∧
      acc'.flowNextHop = (a.flowHop.map nextHopString).getD acc.flowNextHop := by
  obtain ⟨hattrs, hactions, hflow⟩ := noted_frame asnLen acc a
  rw [attrStep_eq, Reader.bind_eq_ok_iff] at h
  obtain ⟨acc₁, h₁, h⟩ := h
  obtain rfl := Except.ok.inj h
  simp only
  -- the step of an MP attribute stores routes and may keep its hop
  by_cases hcode : a.code = 14 ∨ a.code = 15
  · rw [if_pos hcode] at h₁
    obtain ⟨ha, hs, hf⟩ := mpStep_flowNextHop hcode h₁
    rw [ha, hs, hf, hattrs, hactions, hflow]
    exact ⟨rfl, rfl, rfl⟩
  · rw [if_neg hcode] at h₁
    obtain rfl := Except.ok.inj h₁
    have hnone : a.flowHop = none := if_neg fun hc => hcode (Or.inl hc)
    rw [hattrs, hactions, hflow, hnone]
    exact ⟨rfl, rfl, rfl⟩

/-- **The whole loop.** -/
theorem foldlM_attributes {asnLen : ℕ} {attrs : List RawAttr} {acc walked : UpdateAcc}
    (h : attrs.foldlM (attrStep asnLen) acc = .ok walked) :
    walked.attributes = acc.attributes ++ attrs.map (attrRecord asnLen) ∧
      walked.actions = acc.actions ++ attrs.flatMap (RawAttr.actions asnLen) ∧
      ∀ hop, acc.flowNextHop = nextHopString hop →
        walked.flowNextHop = nextHopString (attrs.foldl (fun hop a => a.flowHop.getD hop) hop) := by
  induction attrs generalizing acc with
  | nil =>
    obtain rfl := Except.ok.inj h
    exact ⟨(List.append_nil _).symm, (List.append_nil _).symm, fun hop hhop => hhop⟩
  | cons a attrs ih =>
    rw [List.foldlM_cons, Reader.bind_eq_ok_iff] at h
    obtain ⟨acc₁, hs, h⟩ := h
    -- the first attribute, and then the others from what it leaves
    obtain ⟨ha, hc, hf⟩ := attrStep_attributes hs
    obtain ⟨iha, ihc, ihf⟩ := ih h
    refine ⟨?_, ?_, fun hop hhop => ?_⟩
    · rw [iha, ha, List.append_assoc]
      rfl
    · rw [ihc, hc, List.append_assoc, List.flatMap_cons]
    · rw [List.foldl_cons]
      refine ihf _ ?_
      rw [hf, hhop]
      cases a.flowHop <;> rfl

/-! ### The message -/

/-- What is reported of some records or actions once the pass over them is done. -/
def RawUpdate.replaced {α : Type} (r : RawUpdate) (f : String → α → α) (x : α) : α :=
  if r.flowNextHop = [] then x else f (nextHopString r.flowNextHop) x

/-- The records of the attributes of an UPDATE, as they are reported. -/
def RawUpdate.records (r : RawUpdate) (asnLen : ℕ) : List Json :=
  r.attrs.map fun a => r.replaced replaceAttr (attrRecord asnLen a)

/-- The actions of an UPDATE, as they are reported. -/
def RawUpdate.actions (r : RawUpdate) (asnLen : ℕ) : List Json :=
  r.replaced replace (r.attrs.flatMap (RawAttr.actions asnLen))

/-- The records and the actions of an UPDATE are reported. -/
structure RawUpdate.Reports (r : RawUpdate) (asnLen : ℕ) (u : Json) : Prop where
  attributes : u.index "path_attributes" = .arr (r.records asnLen)
  actions : u.index "actions" = .arr (r.actions asnLen)

/-- **What `update` reports of the attributes.** -/
theorem update_attributes {body : Bytes} {asnLen : ℕ} {u : Json}
    (h : update body asnLen = .ok u) : ∃ r : RawUpdate, r.Enc body ∧ r.Reports asnLen u := by
  unfold update at h
  cases hp : parseUpdate body asnLen with
  | error e =>
    rw [hp] at h
    exact absurd h (by simp [Except.map])
  | ok acc =>
    rw [hp] at h
    obtain rfl := Except.ok.inj h
    obtain ⟨-, r, henc, walked, hwalk, acc₁, hw, ha⟩ := parseUpdate_ok_iff.mp hp
    obtain ⟨hattrs, hactions, hflow⟩ := foldlM_attributes hwalk
    have hflow : walked.flowNextHop = nextHopString r.flowNextHop := hflow [] rfl
    -- the pass is skipped when the text of the next hop is empty
    have hpass : (replaceNextHop walked).attributes = r.records asnLen ∧
        (replaceNextHop walked).actions = r.actions asnLen := by
      unfold replaceNextHop RawUpdate.records RawUpdate.actions RawUpdate.replaced
      rw [hflow, hattrs, hactions]
      by_cases hhop : r.flowNextHop = []
      · rw [if_neg (not_not.mpr (nextHopString_eq_empty_iff.mpr hhop)), hattrs, hactions]
        simp [hhop, UpdateAcc.empty]
      · have hne : nextHopString r.flowNextHop ≠ "" := fun h =>
          hhop (nextHopString_eq_empty_iff.mp h)
        simp [hhop, hne, UpdateAcc.empty]
    -- the classic fields do not touch them
    obtain ⟨rfl, -⟩ := classicWithdraw_ok hw
    obtain ⟨rfl, -⟩ := classicAnnounce_ok ha
    refine ⟨r, henc, ?_, ?_⟩
    · rw [← hpass.1]
      simp [UpdateAcc.toJson, Json.index, Entries.find_cons]
    · rw [← hpass.2]
      simp [UpdateAcc.toJson, Json.index, Entries.find_cons]

/-! ### Records -/

/-- Every chunk has the size that was asked for. -/
theorem length_of_mem_chunksExact {size : ℕ} {data chunk : Bytes}
    (h : chunk ∈ chunksExact size data) : chunk.length = size := by
  obtain ⟨i, hi, rfl⟩ := List.mem_map.mp h
  have hi := List.mem_range.mp hi
  -- the chunk ends within the data
  have hmul : (i + 1) * size ≤ data.length :=
    (Nat.mul_le_mul_right size hi).trans (Nat.div_mul_le_self _ _)
  rw [Nat.add_mul, Nat.one_mul] at hmul
  rw [List.length_take, List.length_drop]
  omega

theorem index_name_attrRecord (asnLen : ℕ) (a : RawAttr) :
    (attrRecord asnLen a).index "name" = .str (attrName a.code) := by
  unfold attrRecord
  cases attributeValue a.code a.data asnLen <;> simp [Json.index, Entries.find_cons]

/-- The value of a record is what the attribute is decoded to, or `null`. -/
theorem index_value_attrRecord (asnLen : ℕ) (a : RawAttr) :
    (attrRecord asnLen a).index "value"
      = (attributeValue a.code a.data asnLen).toOption.getD .null := by
  unfold attrRecord
  cases attributeValue a.code a.data asnLen <;>
    simp [Json.index, Entries.find_cons, Except.toOption]

/-! ### Records with a value and records with octets -/

/-- The value of an attribute, or its octets when it does not decode; never both. -/
def DecodedOrRaw (asnLen : ℕ) (a : RawAttr) (record : Json) : Prop :=
  match attributeValue a.code a.data asnLen with
  | .ok _ => (∃ value, record.get "value" = some value) ∧ record.get "raw" = none
  | .error _ => record.get "raw" = some (.str (hexEncode a.data)) ∧ record.get "value" = none

/-- A record is decoded, or it has the octets. -/
theorem decodedOrRaw_attrRecord (asnLen : ℕ) (a : RawAttr) :
    DecodedOrRaw asnLen a (attrRecord asnLen a) := by
  unfold DecodedOrRaw attrRecord
  cases attributeValue a.code a.data asnLen <;> simp [Entries.find_cons]

/-- A record has the code of its attribute. -/
@[simp] theorem index_code_attrRecord (asnLen : ℕ) (a : RawAttr) :
    (attrRecord asnLen a).index "code" = .num a.code.toNat := by
  unfold attrRecord
  cases attributeValue a.code a.data asnLen <;> simp [Json.index, Entries.find_cons]

/-- The records of communities are known by their code. -/
theorem index_code_communities {a : RawAttr} (h : a.code = 16) (asnLen : ℕ) :
    (attrRecord asnLen a).index "code" = .num 16 := by
  rw [index_code_attrRecord, h]
  rfl

theorem attrRecord_eq_obj (asnLen : ℕ) (a : RawAttr) :
    ∃ fields, attrRecord asnLen a = .obj fields := by
  unfold attrRecord
  cases attributeValue a.code a.data asnLen <;> exact ⟨_, rfl⟩

/-- The pass leaves the records of other attributes alone. -/
theorem replaceAttr_of_ne {asnLen : ℕ} {a : RawAttr} (h : a.code ≠ 16) (hop : String) :
    replaceAttr hop (attrRecord asnLen a) = attrRecord asnLen a := by
  unfold replaceAttr
  rw [index_code_attrRecord, if_neg]
  intro hcode
  exact h (UInt8.toNat_inj.mp (Json.num.inj hcode))

/-- The value of an extended communities attribute. -/
theorem attributeValue_communities {a : RawAttr} (h : a.code = 16) (asnLen : ℕ) :
    attributeValue a.code a.data asnLen
      = if a.data.length % 8 = 0 then .ok (texts (parseExtCommunities a.data))
        else .error "Unknown or malformed attribute" := by
  rw [h]
  show (if (decide (a.data.length % 8 = 0)) = true then _ else _) = _
  simp only [decide_eq_true_eq]

/-- A value that is there is found when it is indexed for writing. -/
theorem indexMut_of_get {v value : Json} {key : String} (h : v.get key = some value) :
    v.indexMut key = v := by
  cases v with
  | obj fields =>
    rw [Json.get_obj] at h
    rw [Json.indexMut, h]
  | _ => rfl

/-- One that is not there is put there. -/
theorem get_indexMut_of_none {fields : List (String × Json)} {key key' : String}
    (h : Entries.find key fields = none) :
    ((Json.obj fields).indexMut key).get key'
      = if key' = key then some .null else Entries.find key' fields := by
  rw [Json.indexMut, h]
  exact Entries.find_insert key key' .null fields

/-- The record of extended communities with the next hop in their actions. -/
theorem replaceAttr_communities {a : RawAttr} (h : a.code = 16) (hlen : a.data.length % 8 = 0)
    (asnLen : ℕ) (hop : String) :
    replaceAttr hop (attrRecord asnLen a)
      = (attrRecord asnLen a).set "value"
          (.arr (replace hop ((parseExtCommunities a.data).map Json.str))) := by
  have hvalue : (attrRecord asnLen a).get "value" = some (texts (parseExtCommunities a.data)) := by
    unfold attrRecord
    rw [attributeValue_communities h, if_pos hlen]
    simp
  unfold replaceAttr
  rw [if_pos (index_code_communities h asnLen)]
  simp only [indexMut_of_get hvalue, Json.index, hvalue, Option.getD_some, texts,
    Json.asArray_arr]

/-- The record of octets that are no extended communities gets a value. -/
theorem get_replaceAttr_malformed {a : RawAttr} (h : a.code = 16) (hlen : a.data.length % 8 ≠ 0)
    (asnLen : ℕ) (hop key : String) :
    (replaceAttr hop (attrRecord asnLen a)).get key
      = if key = "value" then some .null else (attrRecord asnLen a).get key := by
  obtain ⟨fields, hfields⟩ := attrRecord_eq_obj asnLen a
  -- the record has its octets and no value, until the pass asks for one
  have hnone : Entries.find "value" fields = none := by
    rw [← Json.get_obj, ← hfields]
    unfold attrRecord
    rw [attributeValue_communities h, if_neg hlen]
    simp [Entries.find_cons]
  have hcode := index_code_communities h asnLen
  rw [hfields] at hcode
  have hget := @get_indexMut_of_none fields "value" "value" hnone
  rw [if_pos rfl] at hget
  have hnull : (((Json.obj fields).indexMut "value").index "value").asArray = none := by
    rw [Json.index, hget]
    rfl
  unfold replaceAttr
  rw [hfields, if_pos hcode]
  simp only [hnull]
  exact get_indexMut_of_none hnone

/-- The pass does not touch the names of the records. -/
theorem index_name_replaceAttr (asnLen : ℕ) (a : RawAttr) (hop : String) :
    (replaceAttr hop (attrRecord asnLen a)).index "name" = .str (attrName a.code) := by
  rw [← index_name_attrRecord asnLen a]
  by_cases h : a.code = 16
  · by_cases hlen : a.data.length % 8 = 0
    · obtain ⟨fields, hfields⟩ := attrRecord_eq_obj asnLen a
      rw [replaceAttr_communities h hlen, hfields, Json.index, Json.index, Json.get_set_obj,
        if_neg (by decide)]
    · rw [Json.index, Json.index, get_replaceAttr_malformed h hlen, if_neg (by decide)]
  · rw [replaceAttr_of_ne h]

/-- **The pass over a record** keeps it decoded or raw, unless it looks for the value of
extended communities that do not decode. -/
theorem decodedOrRaw_replaceAttr {asnLen : ℕ} {a : RawAttr} {hop : String} :
    DecodedOrRaw asnLen a (replaceAttr hop (attrRecord asnLen a)) ↔
      (a.code = 16 → a.data.length % 8 = 0) := by
  by_cases hcode : a.code = 16
  · have hvalue := attributeValue_communities hcode asnLen
    have hrecord := decodedOrRaw_attrRecord asnLen a
    unfold DecodedOrRaw at hrecord ⊢
    by_cases hlen : a.data.length % 8 = 0
    · rw [hvalue, if_pos hlen] at hrecord ⊢
      obtain ⟨fields, hfields⟩ := attrRecord_eq_obj asnLen a
      rw [replaceAttr_communities hcode hlen, hfields]
      refine iff_of_true ⟨⟨_, (Json.get_set_obj _ _ _ _).trans (if_pos rfl)⟩, ?_⟩ fun _ => hlen
      rw [Json.get_set_obj, if_neg (by decide), ← hfields, hrecord.2]
    · -- the value is there behind the pass, beside the octets
      rw [hvalue, if_neg hlen]
      simp only [get_replaceAttr_malformed hcode hlen, if_true]
      simp [hcode, hlen]
  · rw [replaceAttr_of_ne hcode]
    exact ⟨fun _ h => absurd h hcode, fun _ => decodedOrRaw_attrRecord asnLen a⟩

/-- Every record is decoded or raw. -/
def AllDecodedOrRaw (asnLen : ℕ) (r : RawUpdate) (u : Json) : Prop :=
  ∃ records, u.index "path_attributes" = .arr records ∧
    List.Forall₂ (DecodedOrRaw asnLen) r.attrs records

/-- **Only communities lose their octets**: those that are not whole, when there is a next hop to
put in. -/
theorem RawUpdate.Reports.decodedOrRaw_iff {r : RawUpdate} {asnLen : ℕ} {u : Json}
    (h : r.Reports asnLen u) : AllDecodedOrRaw asnLen r u ↔
      r.flowNextHop = [] ∨ ∀ a ∈ r.attrs, a.code = 16 → a.data.length % 8 = 0 := by
  have hall : AllDecodedOrRaw asnLen r u ↔
      List.Forall₂ (DecodedOrRaw asnLen) r.attrs (r.records asnLen) := by
    refine ⟨fun ⟨records, hrecords, hf⟩ => ?_, fun hf => ⟨_, h.attributes, hf⟩⟩
    rw [h.attributes] at hrecords
    rwa [Json.arr.inj hrecords]
  rw [hall, RawUpdate.records, List.forall₂_map_right_iff, List.forall₂_same]
  unfold RawUpdate.replaced
  by_cases hhop : r.flowNextHop = []
  · simp only [if_pos hhop]
    exact iff_of_true (fun a _ => decodedOrRaw_attrRecord asnLen a) (Or.inl hhop)
  · simp only [if_neg hhop, decodedOrRaw_replaceAttr]
    exact (or_iff_right hhop).symm

/-- **When every record is either decoded or raw**: without a FlowSpec next hop, or when
all extended communities decode. -/
theorem update_decodedOrRaw_iff {body : Bytes} {asnLen : ℕ} {u : Json}
    (h : update body asnLen = .ok u) : ∃ r : RawUpdate, r.Enc body ∧
      (AllDecodedOrRaw asnLen r u ↔
        r.flowNextHop = [] ∨ ∀ a ∈ r.attrs, a.code = 16 → a.data.length % 8 = 0) := by
  obtain ⟨r, henc, hreports⟩ := update_attributes h
  exact ⟨r, henc, hreports.decodedOrRaw_iff⟩

/-- An UPDATE with some attributes behind the next hop of a FlowSpec family. -/
def hopUpdate (hop : Bytes) (attrs : List RawAttr) : RawUpdate where
  withdrawn := []
  attrs := ⟨0x80, 14, [0, 1, 133, UInt8.ofNat hop.length] ++ hop ++ [0]⟩ :: attrs
  nlri := []

/-- The header of an attribute that carries a next hop and no route. -/
theorem mpHeader_hop {hop : Bytes} (h : hop.length < 256) :
    mpHeader 14 ([0, 1, 133, UInt8.ofNat hop.length] ++ hop ++ [0])
      = .ok (⟨1, 133, nextHopString hop⟩, []) := by
  have hn : (UInt8.ofNat hop.length).toNat = hop.length := by simp [Nat.mod_eq_of_lt h]
  have htake : take (UInt8.ofNat hop.length).toNat (hop ++ [0]) = .ok (hop, [0]) := by
    rw [hn]
    exact take_append hop [0]
  have hfront : u16At ([0, 1, 133, UInt8.ofNat hop.length] ++ hop ++ [0])
      = .ok (1, 133 :: UInt8.ofNat hop.length :: (hop ++ [0])) := by
    rw [List.append_assoc]
    exact u16At_append (n := 1) (by decide) _
  have hsafi : ∀ (b : UInt8) (rest : Bytes), byteAt (b :: rest) = .ok (b, rest) :=
    fun b rest => byteAt_ok_iff.mpr rfl
  unfold mpHeader
  rw [hfront]
  simp only [bind, Except.bind, hsafi, htake, if_true]
  rfl

/-- The UPDATE is taken, as its one multiprotocol attribute has no routes. -/
theorem hopUpdate_taken {hop : Bytes} {attrs : List RawAttr} (hfits : (hopUpdate hop attrs).Fits)
    (hlen : hop.length < 256) (hcodes : ∀ a ∈ attrs, ¬ (a.code = 14 ∨ a.code = 15)) :
    ∃ u, update (hopUpdate hop attrs).octets 2 = .ok u ∧
      (hopUpdate hop attrs).Enc (hopUpdate hop attrs).octets ∧
      (hopUpdate hop attrs).Reports 2 u := by
  have henc := RawUpdate.enc_octets hfits
  -- only the first attribute is a source
  have htaken : ∃ u, update (hopUpdate hop attrs).octets 2 = .ok u := by
    refine henc.taken_of_attrs rfl rfl (fun a ha hcode => ?_) (fun a ha code hcode s hs => ?_)
      (Or.inl rfl)
    · obtain rfl | ha := List.mem_cons.mp ha
      · exact ⟨_, mpHeader_hop hlen⟩
      · exact absurd hcode (hcodes a ha)
    · obtain rfl | ha := List.mem_cons.mp ha
      · by_cases hc : (14 : UInt8) = code
        · -- no octets are left behind its header
          have hself : mpSource 14 ⟨0x80, 14, [0, 1, 133, UInt8.ofNat hop.length] ++ hop ++ [0]⟩
              = some ⟨.ipv4Flowspec, [], some (nextHopString hop)⟩ := by
            rw [mpSource, if_pos rfl, mpHeader_hop hlen]
            rfl
          rw [← hc, hself] at hs
          obtain rfl := Option.some.inj hs
          exact ⟨[], rfl⟩
        · rw [mpSource, if_neg hc] at hs
          exact absurd hs (by simp)
      · have hne : a.code ≠ code := fun he => hcodes a ha (he ▸ hcode)
        rw [mpSource, if_neg hne] at hs
        exact absurd hs (by simp)
  obtain ⟨u, hu⟩ := htaken
  obtain ⟨r', henc', hreports⟩ := update_attributes hu
  obtain rfl := henc.unique henc'
  exact ⟨u, hu, henc, hreports⟩

/-- It holds of an UPDATE that redirects to the next hop. -/
theorem update_decodedOrRaw_iff_redirect :
    ∃ u, update (hopUpdate [192, 0, 2, 1] [⟨0xC0, 16, [8, 0, 0, 0, 0, 0, 0, 0]⟩]).octets 2 = .ok u ∧
      ∃ r : RawUpdate,
        r.Enc (hopUpdate [192, 0, 2, 1] [⟨0xC0, 16, [8, 0, 0, 0, 0, 0, 0, 0]⟩]).octets ∧
        (AllDecodedOrRaw 2 r u ↔
          r.flowNextHop = [] ∨ ∀ a ∈ r.attrs, a.code = 16 → a.data.length % 8 = 0) := by
  obtain ⟨u, hu, -⟩ := @hopUpdate_taken [192, 0, 2, 1] [⟨0xC0, 16, [8, 0, 0, 0, 0, 0, 0, 0]⟩]
    (by decide) (by decide) (by decide)
  exact ⟨u, hu, update_decodedOrRaw_iff hu⟩

/-- Extended communities of one octet beside a next hop: the record has its octet and a
value. -/
theorem hopUpdate_not_decodedOrRaw :
    ∃ r u, update r.octets 2 = .ok u ∧ r.Enc r.octets ∧ ¬ AllDecodedOrRaw 2 r u := by
  obtain ⟨u, hu, henc, hreports⟩ := @hopUpdate_taken [192, 0, 2, 1] [⟨0xC0, 16, [1]⟩]
    (by decide) (by decide) (by decide)
  refine ⟨_, u, hu, henc, ?_⟩
  rw [hreports.decodedOrRaw_iff]
  decide

end Wire
