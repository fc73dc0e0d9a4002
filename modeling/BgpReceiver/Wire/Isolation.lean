import BgpReceiver.Framework.TwoRuns
import BgpReceiver.Wire.Sources

/-!
# What attributes can do to the routes

The routes of an UPDATE depend on the two classic fields, on the multiprotocol attributes
and on NEXT_HOP. All other attributes are decoded beside them, into the records and the
actions of the message, and one that does not decode is kept as its octets.

Two UPDATEs that agree in everything but the data of such attributes are decoded side by
side (`update_isolated`): both are refused, or both are taken with the same announcements
and withdrawals. The width of AS numbers makes no difference either. Nor does it matter
whether such attributes are there at all (`update_without`).
-/

namespace Wire

/-- Attributes with one header, and with one content if it is one that routes depend on. -/
structure RawAttr.Alike (a a' : RawAttr) : Prop where
  flags : a.flags = a'.flags
  code : a.code = a'.code
  length : a.data.length = a'.data.length
  data : a.code = 3 ∨ a.code = 14 ∨ a.code = 15 → a.data = a'.data

/-- UPDATEs with the same classic fields and with alike attributes. -/
structure RawUpdate.Alike (r r' : RawUpdate) : Prop where
  withdrawn : r.withdrawn = r'.withdrawn
  nlri : r.nlri = r'.nlri
  attrs : List.Forall₂ RawAttr.Alike r.attrs r'.attrs

/-- What the loop keeps for the routes is the same. -/
structure UpdateAcc.Alike (acc acc' : UpdateAcc) : Prop where
  announce : acc.announce = acc'.announce
  withdraw : acc.withdraw = acc'.withdraw
  nextHop : acc.nextHop = acc'.nextHop

/-- The same announcements and withdrawals. -/
def SameRoutes (u u' : Json) : Prop :=
  u.index "announce" = u'.index "announce" ∧ u.index "withdraw" = u'.index "withdraw"

/-- A multiprotocol attribute does the same to both. -/
theorem mpStep_alike {acc acc' : UpdateAcc} (h : acc.Alike acc') (a : RawAttr) :
    Matched UpdateAcc.Alike (mpStep acc a) (mpStep acc' a) := by
  unfold mpStep
  refine (Matched.same (mpHeader a.code a.data)).bind fun header header' he => ?_
  subst he
  by_cases hk : header.1.known
  · simp only [hk, if_true]
    refine (Matched.same (mpRoutes a.code header.1 header.2)).bind fun routes routes' hr => ?_
    subst hr
    -- the routes go under the same label on both sides
    have hann := congrArg (Entries.insert header.1.label (.arr routes)) h.announce
    have hwd := congrArg (Entries.insert header.1.label (.arr routes)) h.withdraw
    by_cases hcode : a.code = 14
    · simp only [hcode, if_true]
      split_ifs
      · exact .ok ⟨hann, h.withdraw, h.nextHop⟩
      · exact .ok ⟨hann, h.withdraw, h.nextHop⟩
    · simp only [hcode, if_false]
      split_ifs
      · exact .ok ⟨h.announce, hwd, h.nextHop⟩
      · exact .ok ⟨h.announce, hwd, h.nextHop⟩
  · simp only [hk]
    exact .ok h

/-- What the loop keeps before it looks at multiprotocol attributes. -/
def noted (asnLen : ℕ) (acc : UpdateAcc) (a : RawAttr) : UpdateAcc :=
  let attr := attrRecord asnLen a
  let acc := if a.code = 3 then { acc with nextHop := (attr.index "value").asStr.getD "" } else acc
  if a.code = 16 ∨ a.code = 25 then
    { acc with actions := acc.actions ++ (attr.index "value").asArray.getD [] }
  else acc

/-- A step of the walk is its note, its routes where it has some, and its record. -/
theorem attrStep_eq (asnLen : ℕ) (acc : UpdateAcc) (a : RawAttr) :
    attrStep asnLen acc a =
      (if a.code = 14 ∨ a.code = 15 then mpStep (noted asnLen acc a) a
        else .ok (noted asnLen acc a)) >>= fun acc =>
          .ok { acc with attributes := acc.attributes ++ [attrRecord asnLen a] } := rfl

/-- What is noted of alike attributes leaves the walks alike. -/
theorem noted_alike {acc acc' : UpdateAcc} (h : acc.Alike acc') {a a' : RawAttr} (ha : a.Alike a')
    (asnLen asnLen' : ℕ) : (noted asnLen acc a).Alike (noted asnLen' acc' a') := by
  -- a NEXT_HOP attribute is the same on both sides, and its text has nothing to do with AS numbers
  have hhop : (if a.code = 3 then ((attrRecord asnLen a).index "value").asStr.getD ""
      else acc.nextHop) = if a'.code = 3 then ((attrRecord asnLen' a').index "value").asStr.getD ""
      else acc'.nextHop := by
    rw [← ha.code]
    by_cases h3 : a.code = 3
    · rw [if_pos h3, if_pos h3, attrRecord_hopText h3, attrRecord_hopText (ha.code ▸ h3), hopText,
        hopText, ha.data (Or.inl h3)]
    · rw [if_neg h3, if_neg h3, h.nextHop]
  have hparts : ∀ (asnLen : ℕ) (acc : UpdateAcc) (a : RawAttr),
      (noted asnLen acc a).announce = acc.announce ∧ (noted asnLen acc a).withdraw = acc.withdraw ∧
        (noted asnLen acc a).nextHop = if a.code = 3
          then ((attrRecord asnLen a).index "value").asStr.getD "" else acc.nextHop := by
    intro asnLen acc a
    unfold noted
    simp only
    split_ifs <;> exact ⟨rfl, rfl, rfl⟩
  obtain ⟨h₁, h₂, h₃⟩ := hparts asnLen acc a
  obtain ⟨h₁', h₂', h₃'⟩ := hparts asnLen' acc' a'
  exact ⟨by rw [h₁, h₁', h.announce], by rw [h₂, h₂', h.withdraw], by rw [h₃, h₃', hhop]⟩

/-- **One turn of the loop**, side by side. -/
theorem attrStep_alike {acc acc' : UpdateAcc} (h : acc.Alike acc') {a a' : RawAttr}
    (ha : a.Alike a') (asnLen asnLen' : ℕ) :
    Matched UpdateAcc.Alike (attrStep asnLen acc a) (attrStep asnLen' acc' a') := by
  rw [attrStep_eq, attrStep_eq, ← ha.code]
  have hn := noted_alike h ha asnLen asnLen'
  have hmp : Matched UpdateAcc.Alike
      (if a.code = 14 ∨ a.code = 15 then mpStep (noted asnLen acc a) a
        else .ok (noted asnLen acc a))
      (if a.code = 14 ∨ a.code = 15 then mpStep (noted asnLen' acc' a') a'
        else .ok (noted asnLen' acc' a')) := by
    by_cases hcode : a.code = 14 ∨ a.code = 15
    · rw [if_pos hcode, if_pos hcode]
      have hdata := ha.data (Or.inr hcode)
      -- attributes with a source have the same octets in both
      have heq : a' = a := by
        obtain ⟨f, c, d⟩ := a
        obtain ⟨f', c', d'⟩ := a'
        obtain ⟨rfl, rfl, -, -⟩ := ha
        obtain rfl : d = d' := hdata
        rfl
      rw [heq] at hn ⊢
      exact mpStep_alike hn a
    · rw [if_neg hcode, if_neg hcode]
      exact .ok hn
  exact hmp.bind fun x x' hx => .ok ⟨hx.announce, hx.withdraw, hx.nextHop⟩

/-- The classic fields, side by side. -/
theorem classic_alike {acc acc' : UpdateAcc} (h : acc.Alike acc') (withdrawn nlri : Bytes) :
    Matched UpdateAcc.Alike
      (classicWithdraw (replaceNextHop acc) withdrawn >>= fun acc => classicAnnounce acc nlri)
      (classicWithdraw (replaceNextHop acc') withdrawn
        >>= fun acc => classicAnnounce acc nlri) := by
  -- the next hop goes into the actions, which do not matter
  have hr : (replaceNextHop acc).Alike (replaceNextHop acc') :=
    ⟨by simpa using h.announce, by simpa using h.withdraw, by simpa using h.nextHop⟩
  have hw : Matched UpdateAcc.Alike (classicWithdraw (replaceNextHop acc) withdrawn)
      (classicWithdraw (replaceNextHop acc') withdrawn) := by
    unfold classicWithdraw
    split_ifs
    · refine (Matched.same (unicast withdrawn 1 none)).bind fun routes routes' he => ?_
      subst he
      exact .ok ⟨hr.announce,
        congrArg (Entries.insert "ipv4-unicast" (.arr routes)) hr.withdraw, hr.nextHop⟩
    · exact .ok hr
  refine hw.bind fun x x' hx => ?_
  unfold classicAnnounce
  split_ifs
  -- the routes are announced with the next hop, which is the same
  · rw [hx.nextHop]
    refine (Matched.same (unicast nlri 1 (some x'.nextHop))).bind fun routes routes' he => ?_
    subst he
    exact .ok ⟨congrArg (Entries.insert "ipv4-unicast" (.arr routes)) hx.announce, hx.withdraw,
      rfl⟩
  · exact .ok hx

/-- `update` of the encoding of a content. -/
theorem parseUpdate_ok_iff_of_enc {r : RawUpdate} {body : Bytes} (h : r.Enc body) {asnLen : ℕ}
    (hasn : asnLen = 2 ∨ asnLen = 4) {acc : UpdateAcc} :
    parseUpdate body asnLen = .ok acc ↔
      (r.attrs.foldlM (attrStep asnLen) UpdateAcc.empty >>= fun walked =>
        classicWithdraw (replaceNextHop walked) r.withdrawn >>= fun acc =>
          classicAnnounce acc r.nlri) = .ok acc := by
  simp only [parseUpdate_ok_iff, Reader.bind_eq_ok_iff]
  refine ⟨fun hp => ?_, fun hp => ⟨hasn, r, h, hp⟩⟩
  obtain ⟨-, r', h', hp⟩ := hp
  rwa [h'.unique h] at hp

/-- Loops that end alike make updates with the same routes. -/
theorem update_matched {r r' : RawUpdate} {body body' : Bytes} (h : r.Enc body) (h' : r'.Enc body')
    (hwithdrawn : r.withdrawn = r'.withdrawn) (hnlri : r.nlri = r'.nlri) {asnLen asnLen' : ℕ}
    (hasn : asnLen = 2 ∨ asnLen = 4) (hasn' : asnLen' = 2 ∨ asnLen' = 4)
    (hloop : Matched UpdateAcc.Alike (r.attrs.foldlM (attrStep asnLen) UpdateAcc.empty)
      (r'.attrs.foldlM (attrStep asnLen') UpdateAcc.empty)) :
    Matched SameRoutes (update body asnLen) (update body' asnLen') := by
  have hruns := hloop.bind fun _ _ hx => classic_alike hx r.withdrawn r.nlri
  have hparse : Matched UpdateAcc.Alike (parseUpdate body asnLen) (parseUpdate body' asnLen') :=
    hruns.congr (fun _ => parseUpdate_ok_iff_of_enc h hasn)
      fun _ => by rw [parseUpdate_ok_iff_of_enc h' hasn', hwithdrawn, hnlri]
  refine hparse.map fun acc acc' ha => ⟨?_, ?_⟩
  · rw [index_announce_toJson, index_announce_toJson, ha.announce]
  · rw [index_withdraw_toJson, index_withdraw_toJson, ha.withdraw]

/-- **Attributes are isolated from the routes.** Two UPDATEs that differ in the data of
attributes other than NEXT_HOP and the multiprotocol ones are both refused, or both taken
with the same announcements and withdrawals. -/
theorem update_isolated {r r' : RawUpdate} {body body' : Bytes} (h : r.Enc body)
    (h' : r'.Enc body') (halike : r.Alike r') {asnLen asnLen' : ℕ}
    (hasn : asnLen = 2 ∨ asnLen = 4) (hasn' : asnLen' = 2 ∨ asnLen' = 4) :
    Matched SameRoutes (update body asnLen) (update body' asnLen') := by
  refine update_matched h h' halike.withdrawn halike.nlri hasn hasn' ?_
  refine Matched.foldlM ?_ halike.attrs ⟨rfl, rfl, rfl⟩
  exact fun _ _ _ _ hx ha => attrStep_alike hx ha asnLen asnLen'

/-- An UPDATE that announces 10.2.0.0/16, with the header of an AS path segment in its
AS_PATH and nothing behind it. -/
def pathUpdate (kind count : UInt8) : RawUpdate := ⟨[], [⟨0x40, 2, [kind, count]⟩], [16, 10, 2]⟩

/-- The octets of the message with one path. -/
theorem pathUpdate_enc (kind count : UInt8) :
    (pathUpdate kind count).Enc [0, 0, 0, 5, 0x40, 2, 2, kind, count, 16, 10, 2] := by
  have hattr : RawAttr.Enc ⟨0x40, 2, [kind, count]⟩ [0x40, 2, 2, kind, count] := by
    unfold RawAttr.Enc
    rw [if_neg (show ¬ (0x40 : UInt8) &&& 16 ≠ 0 by decide)]
    exact ⟨by simp, rfl⟩
  exact ⟨[0x40, 2, 2, kind, count] ++ [], .cons hattr .nil, by simp [pathUpdate], by simp,
    by simp [pathUpdate, u16ToBeBytes]⟩

/-- It holds of an UPDATE with an empty segment, and of one whose segment misses its five
AS numbers. -/
theorem update_isolated_path :
    Matched SameRoutes (update [0, 0, 0, 5, 0x40, 2, 2, 2, 0, 16, 10, 2] 2)
      (update [0, 0, 0, 5, 0x40, 2, 2, 2, 5, 16, 10, 2] 4) := by
  have hattrs : List.Forall₂ RawAttr.Alike (pathUpdate 2 0).attrs (pathUpdate 2 5).attrs :=
    .cons ⟨rfl, rfl, rfl, by decide⟩ .nil
  exact update_isolated (pathUpdate_enc 2 0) (pathUpdate_enc 2 5) ⟨rfl, rfl, hattrs⟩ (Or.inl rfl)
    (Or.inr rfl)

/-! ### Leaving attributes out -/

/-- An UPDATE without its attributes of one code. -/
def RawUpdate.without (r : RawUpdate) (code : UInt8) : RawUpdate :=
  { r with attrs := r.attrs.filter fun a => a.code ≠ code }

/-- A message without some of its attributes can be written. -/
theorem RawUpdate.Enc.without {r : RawUpdate} {body : Bytes} (h : r.Enc body) (code : UInt8) :
    ∃ body', (r.without code).Enc body' := by
  obtain ⟨attrs, henc, hw, hattrs, -⟩ := h
  obtain ⟨attrs', henc', hlen⟩ := henc.filter fun a => a.code ≠ code
  exact ⟨_, attrs', henc', hw, hlen.trans_lt hattrs, rfl⟩

theorem RawAttr.alike_refl (a : RawAttr) : a.Alike a := ⟨rfl, rfl, rfl, fun _ => rfl⟩

/-- An attribute that the routes do not depend on keeps what the loop keeps for them. -/
theorem attrStep_idle {acc acc' : UpdateAcc} (h : acc.Alike acc') {a : RawAttr}
    (ha : ¬ (a.code = 3 ∨ a.code = 14 ∨ a.code = 15)) (asnLen : ℕ) :
    ∃ acc₁, attrStep asnLen acc a = .ok acc₁ ∧ acc₁.Alike acc' := by
  rw [not_or] at ha
  rw [attrStep_eq, if_neg ha.2]
  refine ⟨_, rfl, ?_⟩
  unfold noted
  simp only [if_neg ha.1]
  split_ifs
  · exact ⟨h.announce, h.withdraw, h.nextHop⟩
  · exact ⟨h.announce, h.withdraw, h.nextHop⟩

/-- **Attributes can be left out.** An UPDATE without its attributes of a code that the
routes do not depend on is taken when it is taken with them, with the same routes. -/
theorem update_without {r : RawUpdate} {body body' : Bytes} {code : UInt8} (h : r.Enc body)
    (h' : (r.without code).Enc body') (hcode : ¬ (code = 3 ∨ code = 14 ∨ code = 15)) {asnLen : ℕ}
    (hasn : asnLen = 2 ∨ asnLen = 4) :
    Matched SameRoutes (update body asnLen) (update body' asnLen) := by
  refine update_matched h h' rfl rfl hasn hasn ?_
  refine Matched.foldlM_filter (fun _ _ a _ hx => attrStep_alike hx a.alike_refl asnLen asnLen) ?_
    r.attrs ⟨rfl, rfl, rfl⟩
  intro x x' a ha hx
  have hcode' : a.code = code := by simpa using ha
  exact attrStep_idle hx (hcode' ▸ hcode) asnLen

end Wire
