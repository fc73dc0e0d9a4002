import BgpReceiver.Wire.Path

/-!
# The text of a redirect to a VRF

Three kinds of extended communities name a route target. Six octets hold an administrator
and a number, and the kind says how they are split: an AS number of two octets and a number
of four (0x80), an IPv4 address and a number of two (0x81), or an AS number of four octets
and a number of two (0x82).

All of them are written as the administrator, a colon and the number. The address can be told
from an AS number, and the octets from what they are read as, but an AS number does not show
how many octets it had. So two communities have the same text when they are equal, and when
they name the same AS number and the same number in the first and in the third kind
(`rtRedirect_eq_iff`).
-/

namespace Wire

/-- An extended community that redirects to a VRF. -/
structure Redirect (ec : Bytes) : Prop where
  length : ec.length = 8
  kind : ec[0]! = 0x80 ∨ ec[0]! = 0x81 ∨ ec[0]! = 0x82
  subtype : ec[1]! = 0x08

/-- The octets of the administrator. -/
def adminOctets (ec : Bytes) : Bytes := (ec.drop 2).take (if ec[0]! = 0x80 then 2 else 4)

/-- The octets of the number. -/
def numberOctets (ec : Bytes) : Bytes := (ec.drop 2).drop (if ec[0]! = 0x80 then 2 else 4)

/-- The text of the administrator: a number, or an address for the type that has one. -/
def adminText (ec : Bytes) : String :=
  if ec[0]! = 0x81 then IpAddr.ipv4Text (adminOctets ec)
  else Nat.repr (fromBeBytes (adminOctets ec))

variable {ec ec' : Bytes}

/-- **The text of a redirect.** -/
theorem Redirect.text (h : Redirect ec) : extCommunity ec
    = "rt-redirect=" ++ (adminText ec ++ (":" ++ Nat.repr (fromBeBytes (numberOctets ec)))) := by
  have hnumber : ∀ k, (ec.drop (2 + k)).take (6 - k) = (ec.drop 2).drop k := by
    intro k
    rw [List.drop_drop, List.take_of_length_le]
    rw [List.length_drop, h.length]
    omega
  have h4 : (ec.drop 4).take 4 = (ec.drop 2).drop 2 := hnumber 2
  have h6 : (ec.drop 6).take 2 = (ec.drop 2).drop 4 := hnumber 4
  unfold extCommunity adminText adminOctets numberOctets
  rcases h.kind with hk | hk | hk <;> simp [hk, h.subtype, h4, h6, String.append_assoc]

/-- The octets of a redirect are its kind and the two parts. -/
theorem Redirect.octets (h : Redirect ec) :
    ec = [ec[0]!, 0x08] ++ (adminOctets ec ++ numberOctets ec) := by
  have hlen := h.length
  have htwo : ec.take 2 = [ec[0]!, ec[1]!] := by
    obtain ⟨t, rest, rfl⟩ := List.exists_cons_of_length_eq_add_one hlen
    obtain ⟨s, rest, rfl⟩ := List.exists_cons_of_length_eq_add_one (Nat.succ.inj hlen)
    rfl
  rw [adminOctets, numberOctets, List.take_append_drop, ← h.subtype, ← htwo, List.take_append_drop]

/-- The administrator has two octets or four, by the type. -/
theorem Redirect.length_admin (h : Redirect ec) :
    (adminOctets ec).length = if ec[0]! = 0x80 then 2 else 4 := by
  have hlen := h.length
  rw [adminOctets, List.length_take, List.length_drop]
  split_ifs <;> omega

theorem Redirect.length_address (h : Redirect ec) (hip : ec[0]! = 0x81) :
    (adminOctets ec).length = 4 := by
  rw [h.length_admin, hip]
  rfl

/-- The text of an administrator has no colon. -/
theorem colon_not_mem_adminText (ec : Bytes) : ':' ∉ (adminText ec).toList := by
  unfold adminText
  split_ifs
  · exact not_mem_ipv4Text IpAddr.digitChar_ne_colon (by decide) _
  · exact IpAddr.not_mem_repr IpAddr.digitChar_ne_colon _

/-- The same target in the two kinds that have an AS number. -/
structure SameTarget (ec ec' : Bytes) : Prop where
  kinds : ec[0]! = 0x80 ∧ ec'[0]! = 0x82
  admin : fromBeBytes (adminOctets ec) = fromBeBytes (adminOctets ec')
  number : fromBeBytes (numberOctets ec) = fromBeBytes (numberOctets ec')

/-- Of the same kind, the administrators are told apart by their texts. -/
theorem Redirect.admin_eq (h : Redirect ec) (h' : Redirect ec') (hkind : ec[0]! = ec'[0]!)
    (ht : adminText ec = adminText ec') : adminOctets ec = adminOctets ec' := by
  have hlen : (adminOctets ec).length = (adminOctets ec').length := by
    rw [h.length_admin, h'.length_admin, hkind]
  unfold adminText at ht
  rw [← hkind] at ht
  split_ifs at ht with hip
  · have hne : ∀ {octets : Bytes}, octets.length = 4 → octets ≠ [] := by
      rintro octets hfour rfl
      exact absurd hfour (by decide)
    have hfour := h.length_address hip
    exact IpAddr.ipv4Text_injective (hne hfour) (hne (hlen ▸ hfour)) ht
  · exact fromBeBytes_inj hlen (Nat.repr_inj.mp ht)

/-- An address is not an AS number. -/
theorem Redirect.adminText_ne (h : Redirect ec) (hip : ec[0]! = 0x81) (hnot : ec'[0]! ≠ 0x81) :
    adminText ec ≠ adminText ec' := by
  intro ht
  have hfour := h.length_address hip
  -- an address has a dot in it, which no number has
  have hdot : '.' ∈ (IpAddr.ipv4Text (adminOctets ec)).toList := by
    obtain ⟨a, rest, ha⟩ := List.exists_cons_of_length_eq_add_one hfour
    obtain ⟨b, rest, rfl⟩ := List.exists_cons_of_length_eq_add_one
      (Nat.succ.inj (ha ▸ hfour : (a :: rest).length = 4))
    rw [ha]
    exact IpAddr.dot_mem_ipv4Text
  unfold adminText at ht
  rw [if_pos hip, if_neg hnot] at ht
  rw [ht] at hdot
  exact IpAddr.not_mem_repr IpAddr.digitChar_ne_dot _ hdot

/-- Of two redirects of different kinds to an AS, one has two octets for it and the other
four. -/
theorem Redirect.kinds_of_ne (h : Redirect ec) (h' : Redirect ec') (hkind : ec[0]! ≠ ec'[0]!)
    (hip : ec[0]! ≠ 0x81) (hip' : ec'[0]! ≠ 0x81) :
    (ec[0]! = 0x80 ∧ ec'[0]! = 0x82) ∨ (ec'[0]! = 0x80 ∧ ec[0]! = 0x82) := by
  rcases h.kind with hk | hk | hk
  · rcases h'.kind with hk' | hk' | hk'
    · exact absurd (hk.trans hk'.symm) hkind
    · exact absurd hk' hip'
    · exact Or.inl ⟨hk, hk'⟩
  · exact absurd hk hip
  · rcases h'.kind with hk' | hk' | hk'
    · exact Or.inr ⟨hk', hk⟩
    · exact absurd hk' hip'
    · exact absurd (hk.trans hk'.symm) hkind

/-- The same parts have the same texts. -/
theorem SameTarget.text_eq (hs : SameTarget ec ec') (h : Redirect ec) (h' : Redirect ec') :
    extCommunity ec = extCommunity ec' := by
  have hadmin : adminText ec = adminText ec' := by
    unfold adminText
    rw [hs.kinds.1, hs.kinds.2, if_neg (by decide), if_neg (by decide), hs.admin]
  rw [h.text, h'.text, hadmin, hs.number]

/-- **Equal texts.** -/
theorem Redirect.text_eq_iff (h : Redirect ec) (h' : Redirect ec') :
    extCommunity ec = extCommunity ec' ↔ ec = ec' ∨ SameTarget ec ec' ∨ SameTarget ec' ec := by
  refine ⟨fun htext => ?_, fun hor => ?_⟩
  · -- the first colon ends the administrator, and the number is behind it
    rw [h.text, h'.text] at htext
    obtain ⟨hadmin, hrest⟩ := Text.append_inj (colon_not_mem_adminText ec)
      (colon_not_mem_adminText ec') (by simp) (by simp) ((String.append_right_inj _).mp htext)
    have hnumber := Nat.repr_inj.mp ((String.append_right_inj _).mp hrest)
    by_cases hkind : ec[0]! = ec'[0]!
    · have hoctets := h.admin_eq h' hkind hadmin
      have hlen : (numberOctets ec).length = (numberOctets ec').length := by
        rw [numberOctets, numberOctets, hkind, List.length_drop, List.length_drop,
          List.length_drop, List.length_drop, h.length, h'.length]
      refine Or.inl ?_
      rw [h.octets, h'.octets, hkind, hoctets, fromBeBytes_inj hlen hnumber]
    · -- an address has a text of its own, so one of the two has the first kind
      have hip : ec[0]! ≠ 0x81 := fun hip =>
        h.adminText_ne hip (fun hip' => hkind (hip.trans hip'.symm)) hadmin
      have hip' : ec'[0]! ≠ 0x81 := fun hip' =>
        h'.adminText_ne hip' hip hadmin.symm
      unfold adminText at hadmin
      rw [if_neg hip, if_neg hip'] at hadmin
      have hasn := Nat.repr_inj.mp hadmin
      rcases h.kinds_of_ne h' hkind hip hip' with hkinds | hkinds
      · exact Or.inr (Or.inl ⟨hkinds, hasn, hnumber⟩)
      · exact Or.inr (Or.inr ⟨hkinds, hasn.symm, hnumber.symm⟩)
  · rcases hor with rfl | hs | hs
    · rfl
    · exact hs.text_eq h h'
    · exact (hs.text_eq h' h).symm

/-! ### The list of actions -/

theorem parseExtCommunities_single (h : ec.length = 8) :
    parseExtCommunities ec = [extCommunity ec] := by
  have hone := chunksExact_append (by decide : 0 < 8) h []
  rw [List.append_nil, chunksExact_nil] at hone
  rw [parseExtCommunities, hone, List.map_singleton]

/-- **When two redirects are shown alike**: when they are equal, or name the same AS number
and the same number, one of them with two octets for the AS number and the other with
four. -/
theorem rtRedirect_eq_iff (h : Redirect ec) (h' : Redirect ec') :
    parseExtCommunities ec = parseExtCommunities ec' ↔
      ec = ec' ∨ SameTarget ec ec' ∨ SameTarget ec' ec := by
  rw [parseExtCommunities_single h.length, parseExtCommunities_single h'.length,
    List.singleton_inj]
  exact h.text_eq_iff h'

/-- Two redirects to AS 1 with different numbers. -/
theorem rtRedirect_eq_iff_numbers :
    parseExtCommunities [0x80, 8, 0, 1, 0, 0, 0, 2]
        = parseExtCommunities [0x82, 8, 0, 0, 0, 1, 0, 3] ↔
      ([0x80, 8, 0, 1, 0, 0, 0, 2] : Bytes) = [0x82, 8, 0, 0, 0, 1, 0, 3] ∨
        SameTarget [0x80, 8, 0, 1, 0, 0, 0, 2] [0x82, 8, 0, 0, 0, 1, 0, 3] ∨
        SameTarget [0x82, 8, 0, 0, 0, 1, 0, 3] [0x80, 8, 0, 1, 0, 0, 0, 2] :=
  rtRedirect_eq_iff ⟨rfl, by decide, rfl⟩ ⟨rfl, by decide, rfl⟩

/-- Two redirects to the number 2 of AS 1 are shown alike. -/
theorem rtRedirect_ambiguous :
    ∃ ec ec' : Bytes, Redirect ec ∧ Redirect ec' ∧ ec ≠ ec' ∧
      parseExtCommunities ec = ["rt-redirect=1:2"] ∧
      parseExtCommunities ec' = ["rt-redirect=1:2"] := by
  refine ⟨[0x80, 8, 0, 1, 0, 0, 0, 2], [0x82, 8, 0, 0, 0, 1, 0, 2], ⟨rfl, by decide, rfl⟩,
    ⟨rfl, by decide, rfl⟩, by decide, ?_, ?_⟩
  · rfl
  · rfl

end Wire
