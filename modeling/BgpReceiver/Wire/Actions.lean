import BgpReceiver.Wire.ActionText
import BgpReceiver.Wire.Attributes

/-!
# Actions that refer to the next hop

All actions of a message are settled exactly when no community refers to the next hop with
flags, and none refers to a next hop that is not an IPv4 address
(`update_actionsSettled_iff`).

The pass over the actions takes all of them, the one over the records only those of
extended communities. So the actions are what the records show unless an IPv6-specific
community stands for the next hop (`update_actionsAgree_iff`).
-/

namespace Wire

/-! ### The communities of an attribute -/

/-- The texts of the communities of an attribute. -/
def RawAttr.actionTexts (a : RawAttr) : List String :=
  if a.code = 16 ∧ a.data.length % 8 = 0 then parseExtCommunities a.data
  else if a.code = 25 ∧ a.data.length % 20 = 0 then parseIpv6ExtCommunities a.data
  else []

/-- Their references. -/
def RawAttr.references (a : RawAttr) : List Reference :=
  if a.code = 16 ∧ a.data.length % 8 = 0 then (chunksExact 8 a.data).map extReference
  else if a.code = 25 ∧ a.data.length % 20 = 0 then (chunksExact 20 a.data).map ipv6Reference
  else []

/-- The texts of an attribute have the shapes of its references, one by one. -/
theorem RawAttr.shapes (a : RawAttr) : List.Forall₂ Shape a.references a.actionTexts := by
  unfold references actionTexts parseExtCommunities parseIpv6ExtCommunities
  split_ifs
  · rw [List.forall₂_map_left_iff, List.forall₂_map_right_iff, List.forall₂_same]
    exact fun ec hec => extCommunity_shape (length_of_mem_chunksExact hec)
  · rw [List.forall₂_map_left_iff, List.forall₂_map_right_iff, List.forall₂_same]
    exact fun ec hec => ipv6ExtCommunity_shape (length_of_mem_chunksExact hec)
  · exact .nil

/-- Two lists that are related one by one agree in what is related to hold of them. -/
theorem forall₂_forall_iff {α β : Type} {R : α → β → Prop} {p : α → Prop} {q : β → Prop}
    {xs : List α} {ys : List β} (h : List.Forall₂ R xs ys) (hpq : ∀ x y, R x y → (q y ↔ p x)) :
    (∀ y ∈ ys, q y) ↔ ∀ x ∈ xs, p x := by
  induction h with
  | nil => simp
  | cons hr _ ih => rw [List.forall_mem_cons, List.forall_mem_cons, ih, hpq _ _ hr]

/-- The value of IPv6 communities is their texts, when their octets are whole communities. -/
theorem attributeValue_ipv6Communities {a : RawAttr} (h : a.code = 25) (asnLen : ℕ) :
    attributeValue a.code a.data asnLen
      = if a.data.length % 20 = 0 then .ok (texts (parseIpv6ExtCommunities a.data))
        else .error "Unknown or malformed attribute" := by
  rw [h]
  show (if (decide (a.data.length % 20 = 0)) = true then _ else _) = _
  simp only [decide_eq_true_eq]

/-- What the loop adds to the actions is the texts of the communities. -/
theorem RawAttr.actions_eq (a : RawAttr) (asnLen : ℕ) :
    a.actions asnLen = a.actionTexts.map Json.str := by
  -- the value of the record is there when the length of the data is a multiple of the size
  have hshown : ∀ {p : Prop} [Decidable p] {l : List String} {e : String},
      (attributeValue a.code a.data asnLen = if p then .ok (texts l) else .error e) →
        ((attrRecord asnLen a).index "value").asArray.getD [] = (if p then l else []).map .str := by
    intro p _ l e h
    unfold attrRecord
    rw [h]
    by_cases hp : p
    · rw [if_pos hp, if_pos hp]
      simp [Json.index, texts]
    · rw [if_neg hp, if_neg hp]
      simp [Json.index, Entries.find_cons]
  unfold RawAttr.actions RawAttr.actionTexts
  by_cases h16 : a.code = 16
  · rw [if_pos (Or.inl h16), hshown (attributeValue_communities h16 asnLen)]
    simp [h16]
  by_cases h25 : a.code = 25
  · rw [if_pos (Or.inr h25), hshown (attributeValue_ipv6Communities h25 asnLen)]
    simp [h25]
  · simp [h16, h25]

theorem replace_map_str (hop : String) (l : List String) :
    replace hop (l.map Json.str) = (l.map (replaceText hop)).map Json.str := by
  unfold replace
  rw [List.map_map, List.map_map]
  rfl

/-! ### Settled actions -/

/-- Every action is settled. -/
def ActionsSettled (u : Json) : Prop :=
  ∃ actions, u.index "actions" = .arr actions ∧ ∀ a ∈ actions, ∃ s, a = .str s ∧ Settled s

/-- The actions of a report are settled when the octets refer to a next hop that can be put in. -/
theorem RawUpdate.Reports.settled_iff {r : RawUpdate} {asnLen : ℕ} {u : Json}
    (h : r.Reports asnLen u) (hhop : r.flowNextHop ≠ []) :
    ActionsSettled u ↔ ∀ a ∈ r.attrs, .flagged ∉ a.references ∧
      (.plain ∈ a.references ∨ .juniper ∈ a.references → r.flowNextHop.length = 4) := by
  -- an action that is reported is a text of the record with the hop put in
  have hall : ActionsSettled u ↔ ∀ a ∈ r.attrs, ∀ s ∈ a.actionTexts,
      Settled (replaceText (nextHopString r.flowNextHop) s) := by
    have hreported : r.actions asnLen = (r.attrs.flatMap RawAttr.actionTexts).map fun s =>
        Json.str (replaceText (nextHopString r.flowNextHop) s) := by
      unfold RawUpdate.actions RawUpdate.replaced
      rw [if_neg hhop, List.flatMap_congr fun a _ => a.actions_eq asnLen, ← List.map_flatMap,
        replace_map_str, List.map_map]
      rfl
    unfold ActionsSettled
    rw [h.actions, hreported]
    -- the reported actions are those of the attributes, one after the other
    constructor
    · rintro ⟨actions, hlist, hs⟩ a ha s hmem
      obtain rfl := Json.arr.inj hlist
      obtain ⟨s', he, hsettled⟩ := hs _ (List.mem_map_of_mem (List.mem_flatMap.mpr ⟨a, ha, hmem⟩))
      rwa [Json.str.inj he]
    · intro hs
      refine ⟨_, rfl, fun action haction => ?_⟩
      obtain ⟨s, hmem, rfl⟩ := List.mem_map.mp haction
      obtain ⟨a, ha, hmem⟩ := List.mem_flatMap.mp hmem
      exact ⟨_, rfl, hs a ha s hmem⟩
  rw [hall]
  refine forall₂_congr fun a _ => ?_
  -- a text is settled by what its reference says
  rw [forall₂_forall_iff a.shapes fun ref s hs => hs.settled_iff r.flowNextHop]
  constructor
  · intro hrefs
    exact ⟨fun hmem => (hrefs _ hmem).1 rfl, fun hmem => hmem.elim
      (fun hmem => (hrefs _ hmem).2 (Or.inl rfl)) fun hmem => (hrefs _ hmem).2 (Or.inr rfl)⟩
  · rintro ⟨hflagged, hlen⟩ ref hmem
    refine ⟨fun he => hflagged (he ▸ hmem), ?_⟩
    rintro (rfl | rfl)
    · exact hlen (Or.inl hmem)
    · exact hlen (Or.inr hmem)

/-- **When the actions of a message are settled**: when no community refers to the next hop
with flags, and the next hop is an IPv4 address if one refers to it without. -/
theorem update_actionsSettled_iff {body : Bytes} {asnLen : ℕ} {u : Json}
    (h : update body asnLen = .ok u) : ∃ r : RawUpdate, r.Enc body ∧ (r.flowNextHop ≠ [] →
      (ActionsSettled u ↔ ∀ a ∈ r.attrs, .flagged ∉ a.references ∧
        (.plain ∈ a.references ∨ .juniper ∈ a.references → r.flowNextHop.length = 4))) := by
  obtain ⟨r, henc, hreports⟩ := update_attributes h
  exact ⟨r, henc, hreports.settled_iff⟩

/-- It holds of an UPDATE that redirects to an IPv4 next hop. -/
theorem update_actionsSettled_iff_redirect :
    ∃ u, update (hopUpdate [192, 0, 2, 1] [⟨0xC0, 16, [8, 0, 0, 0, 0, 0, 0, 0]⟩]).octets 2 = .ok u ∧
      ∃ r : RawUpdate,
        r.Enc (hopUpdate [192, 0, 2, 1] [⟨0xC0, 16, [8, 0, 0, 0, 0, 0, 0, 0]⟩]).octets ∧
        (r.flowNextHop ≠ [] →
          (ActionsSettled u ↔ ∀ a ∈ r.attrs, .flagged ∉ a.references ∧
            (.plain ∈ a.references ∨ .juniper ∈ a.references → r.flowNextHop.length = 4))) := by
  obtain ⟨u, hu, -⟩ := @hopUpdate_taken [192, 0, 2, 1] [⟨0xC0, 16, [8, 0, 0, 0, 0, 0, 0, 0]⟩]
    (by decide) (by decide) (by decide)
  exact ⟨u, hu, update_actionsSettled_iff hu⟩

/-- A redirect to the next hop 2001:db8::1, and one whose flags are shown. -/
theorem hopUpdate_not_settled :
    (∃ (r : RawUpdate) (u : Json), update r.octets 2 = .ok u ∧ r.Enc r.octets ∧
      r.flowNextHop.length = 16 ∧ ¬ ActionsSettled u) ∧
    ∃ (r : RawUpdate) (u : Json), update r.octets 2 = .ok u ∧ r.Enc r.octets ∧
      r.flowNextHop.length = 4 ∧ ¬ ActionsSettled u := by
  -- first a hop that is not of four octets, then one of four and a community with further flags
  constructor
  · obtain ⟨u, hu, henc, hreports⟩ :=
      @hopUpdate_taken [0x20, 1, 0xd, 0xb8, 0, 0, 0, 0, 0, 0, 0, 0, 0, 0, 0, 1]
        [⟨0xC0, 16, [8, 0, 0, 0, 0, 0, 0, 0]⟩] (by decide) (by decide) (by decide)
    refine ⟨_, u, hu, henc, by decide, ?_⟩
    rw [hreports.settled_iff (by decide)]
    decide
  · obtain ⟨u, hu, henc, hreports⟩ :=
      @hopUpdate_taken [192, 0, 2, 1] [⟨0xC0, 16, [1, 12, 0, 0, 0, 0, 0, 2]⟩]
        (by decide) (by decide) (by decide)
    refine ⟨_, u, hu, henc, by decide, ?_⟩
    rw [hreports.settled_iff (by decide)]
    decide +kernel

/-! ### Agreement of the two views -/

/-- The values that a record shows, if it is one of extended communities. -/
def shownValues (record : Json) : List Json :=
  if record.index "code" = .num 16 ∨ record.index "code" = .num 25 then
    (record.index "value").asArray.getD []
  else []

/-- The actions are what the records show. -/
def ActionsAgree (u : Json) : Prop :=
  ∃ records, u.index "path_attributes" = .arr records ∧
    u.index "actions" = .arr (records.flatMap shownValues)

/-- An attribute is reported with its actions. -/
theorem shownValues_attrRecord (asnLen : ℕ) (a : RawAttr) :
    shownValues (attrRecord asnLen a) = a.actions asnLen := by
  have hcode : ∀ n : UInt8, (attrRecord asnLen a).index "code" = .num n.toNat ↔ a.code = n := by
    intro n
    rw [index_code_attrRecord]
    exact ⟨fun h => UInt8.toNat_inj.mp (Json.num.inj h), fun h => by rw [h]⟩
  have h16 := hcode 16
  have h25 := hcode 25
  unfold shownValues RawAttr.actions
  exact if_congr (or_congr h16 h25) rfl rfl

/-- The pass over the records takes those of code 16 and no others. -/
theorem shownValues_replaceAttr (asnLen : ℕ) (a : RawAttr) (hop : String) :
    shownValues (replaceAttr hop (attrRecord asnLen a))
      = if a.code = 16 then replace hop (a.actions asnLen) else a.actions asnLen := by
  by_cases h16 : a.code = 16
  · rw [if_pos h16]
    -- the attribute with the extended communities is the one that is replaced
    have hcode := index_code_communities h16 asnLen
    by_cases hlen : a.data.length % 8 = 0
    · -- the texts are replaced in the record, which keeps its code
      have htexts : a.actions asnLen = (parseExtCommunities a.data).map Json.str := by
        rw [a.actions_eq, RawAttr.actionTexts, if_pos ⟨h16, hlen⟩]
      obtain ⟨fields, hfields⟩ := attrRecord_eq_obj asnLen a
      rw [replaceAttr_communities h16 hlen, htexts]
      rw [hfields] at hcode ⊢
      have hcode' : ∀ v, ((Json.obj fields).set "value" v).index "code" = .num 16 := fun v => by
        rw [Json.index, Json.get_set_obj, if_neg (by decide)]
        exact hcode
      have hvalue : ∀ v, ((Json.obj fields).set "value" v).index "value" = v := fun v => by
        rw [Json.index, Json.get_set_obj, if_pos rfl, Option.getD_some]
      rw [shownValues, if_pos (Or.inl (hcode' _)), hvalue]
      rfl
    · -- the record gets a value of null, and shows none
      have hnone : a.actions asnLen = [] := by
        rw [a.actions_eq, RawAttr.actionTexts, if_neg fun h => hlen h.2,
          if_neg fun h => absurd (h16.symm.trans h.1) (by decide)]
        rfl
      rw [hnone]
      unfold shownValues Json.index
      simp only [get_replaceAttr_malformed h16 hlen]
      simp [replace]
  · rw [if_neg h16, replaceAttr_of_ne h16, shownValues_attrRecord]

/-- Parts of the same lengths make the same whole exactly when they are the same. -/
theorem flatMap_inj_of_length {α β : Type} {f g : α → List β} {l : List α}
    (hlen : ∀ a ∈ l, (f a).length = (g a).length) :
    l.flatMap f = l.flatMap g ↔ ∀ a ∈ l, f a = g a := by
  induction l with
  | nil => simp
  | cons a l ih =>
    obtain ⟨ha, hl⟩ := List.forall_mem_cons.mp hlen
    rw [List.flatMap_cons, List.flatMap_cons, List.forall_mem_cons, ← ih hl]
    exact ⟨fun h => List.append_inj h ha, fun ⟨h, h'⟩ => by rw [h, h']⟩

/-- The IPv6 communities have no redirect of Juniper. -/
theorem juniper_not_mem_ipv6 {a : RawAttr} (h : a.code = 25) : .juniper ∉ a.references := by
  have h16 : a.code ≠ 16 := by
    rw [h]
    decide
  unfold RawAttr.references
  rw [if_neg fun h => h16 h.1]
  split_ifs
  · intro hmem
    obtain ⟨ec, -, hec⟩ := List.mem_map.mp hmem
    unfold ipv6Reference addressReference at hec
    split_ifs at hec
  · simp

/-- The pass over the actions of an attribute does what the one over its record does, unless
the attribute is an IPv6-specific one and stands for the next hop. -/
theorem replace_actions_eq_iff (asnLen : ℕ) (a : RawAttr) (hop : String) :
    replace hop (a.actions asnLen)
        = (if a.code = 16 then replace hop (a.actions asnLen) else a.actions asnLen) ↔
      (a.code = 25 → .plain ∉ a.references) := by
  by_cases h16 : a.code = 16
  · rw [if_pos h16]
    exact iff_of_true rfl fun h25 => absurd (h16.symm.trans h25) (by decide)
  rw [if_neg h16, a.actions_eq]
  by_cases h25 : a.code = 25
  · -- the record is left as it is, so nothing may be replaced in the actions
    have hjuniper := juniper_not_mem_ipv6 h25
    rw [replace_map_str, (List.map_injective_iff.mpr fun _ _ => Json.str.inj).eq_iff]
    calc a.actionTexts.map (replaceText hop) = a.actionTexts
        ↔ ∀ s ∈ a.actionTexts, replaceText hop s = s := by
          conv_lhs => rw [← List.map_id a.actionTexts, List.map_map]
          exact List.map_inj_left
      _ ↔ ∀ ref ∈ a.references, ref ≠ .plain ∧ ref ≠ .juniper :=
          forall₂_forall_iff a.shapes fun ref s hs => hs.replaceText_eq_iff hop
      _ ↔ (a.code = 25 → .plain ∉ a.references) := by
          refine ⟨fun hrefs _ hmem => (hrefs _ hmem).1 rfl, fun hplain ref hmem => ⟨?_, ?_⟩⟩
          · rintro rfl
            exact hplain h25 hmem
          · rintro rfl
            exact hjuniper hmem
  · -- any other attribute reports no action
    have hnone : a.actionTexts = [] := by
      rw [RawAttr.actionTexts, if_neg fun h => h16 h.1, if_neg fun h => h25 h.1]
    rw [hnone]
    exact iff_of_true rfl fun h => absurd h h25

/-- The two lists of actions agree unless an IPv6 redirect is replaced in one of them only. -/
theorem RawUpdate.Reports.agree_iff {r : RawUpdate} {asnLen : ℕ} {u : Json}
    (h : r.Reports asnLen u) : ActionsAgree u ↔
      r.flowNextHop = [] ∨ ∀ a ∈ r.attrs, a.code = 25 → .plain ∉ a.references := by
  -- both views are lists, so they agree as lists
  have hall : ActionsAgree u ↔ r.actions asnLen = (r.records asnLen).flatMap shownValues := by
    unfold ActionsAgree
    rw [h.attributes, h.actions]
    exact ⟨fun ⟨_, hr, ha⟩ => by rw [Json.arr.inj hr]; exact Json.arr.inj ha,
      fun ha => ⟨_, rfl, by rw [ha]⟩⟩
  rw [hall]
  unfold RawUpdate.actions RawUpdate.records RawUpdate.replaced
  -- without a hop nothing is replaced
  by_cases hhop : r.flowNextHop = []
  · simp only [if_pos hhop]
    refine iff_of_true ?_ (Or.inl hhop)
    rw [List.flatMap_map]
    exact (List.flatMap_congr fun a _ => shownValues_attrRecord asnLen a).symm
  · simp only [if_neg hhop]
    rw [or_iff_right hhop, List.flatMap_map,
      List.flatMap_congr fun a _ => shownValues_replaceAttr asnLen a (nextHopString r.flowNextHop)]
    have hmap : replace (nextHopString r.flowNextHop) (r.attrs.flatMap (RawAttr.actions asnLen))
        = r.attrs.flatMap fun a => replace (nextHopString r.flowNextHop) (a.actions asnLen) :=
      List.map_flatMap
    -- both views have as many actions of each attribute, so they agree attribute by attribute
    rw [hmap, flatMap_inj_of_length]
    · exact forall₂_congr fun a _ => replace_actions_eq_iff asnLen a _
    · intro a _
      split_ifs <;> simp [replace]

/-- **When the actions are what the records show**: without a FlowSpec next hop, or when no
IPv6-specific community stands for it. -/
theorem update_actionsAgree_iff {body : Bytes} {asnLen : ℕ} {u : Json}
    (h : update body asnLen = .ok u) : ∃ r : RawUpdate, r.Enc body ∧ (ActionsAgree u ↔
      r.flowNextHop = [] ∨ ∀ a ∈ r.attrs, a.code = 25 → .plain ∉ a.references) := by
  obtain ⟨r, henc, hreports⟩ := update_attributes h
  exact ⟨r, henc, hreports.agree_iff⟩

/-- It holds of an UPDATE that redirects to the next hop. -/
theorem update_actionsAgree_iff_redirect :
    ∃ u, update (hopUpdate [192, 0, 2, 1] [⟨0xC0, 16, [8, 0, 0, 0, 0, 0, 0, 0]⟩]).octets 2 = .ok u ∧
      ∃ r : RawUpdate,
        r.Enc (hopUpdate [192, 0, 2, 1] [⟨0xC0, 16, [8, 0, 0, 0, 0, 0, 0, 0]⟩]).octets ∧
        (ActionsAgree u ↔
          r.flowNextHop = [] ∨ ∀ a ∈ r.attrs, a.code = 25 → .plain ∉ a.references) := by
  obtain ⟨u, hu, -⟩ := @hopUpdate_taken [192, 0, 2, 1] [⟨0xC0, 16, [8, 0, 0, 0, 0, 0, 0, 0]⟩]
    (by decide) (by decide) (by decide)
  exact ⟨u, hu, update_actionsAgree_iff hu⟩

/-- A redirect to the next hop by an IPv6-specific community. -/
theorem hopUpdate_not_agree :
    ∃ (r : RawUpdate) (u : Json),
      update r.octets 2 = .ok u ∧ r.Enc r.octets ∧ ¬ ActionsAgree u := by
  obtain ⟨u, hu, henc, hreports⟩ :=
    @hopUpdate_taken [192, 0, 2, 1] [⟨0xC0, 25, [0, 12] ++ List.replicate 18 0⟩]
      (by decide) (by decide) (by decide)
  refine ⟨_, u, hu, henc, ?_⟩
  rw [hreports.agree_iff]
  decide +kernel

end Wire
