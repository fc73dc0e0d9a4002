import BgpReceiver.Wire.Network

/-!
# The texts of actions

An extended community is reported as a text, and some of the texts stand for the next hop
of the FlowSpec routes, which is known only once all attributes have been read. The pass
`replace` finds them by their text again.

What a community refers to can be read off its octets (`Reference`), and `Shape` says what
the text of a community with a given reference looks like. A text whose flags are shown
behind it is not found by the pass, and the texts that are found get the next hop as an
IPv4 address, of whatever family it is (`Shape.settled_iff`).
-/

namespace Wire

/-! ### References -/

/-- How a community refers to the next hop. -/
inductive Reference where
  | none
  | plain
  | juniper
  | flagged
  deriving DecidableEq

/-- The reference of a redirect action with an address and some flags. -/
def addressReference (address : Bytes) (flags : ℕ) : Reference :=
  if ∀ b ∈ address, b = 0 then (if flags = 0 ∨ flags = 1 then .plain else .flagged) else .none

/-- The reference of an extended community. -/
def extReference (ec : Bytes) : Reference :=
  let t := ec[0]!
  let s := ec[1]!
  if (t, s) = (0x01, 0x0C) then
    addressReference ((ec.drop 2).take 4) (fromBeBytes ((ec.drop 6).take 2))
  else if t = 0x08 then .plain
  else if (t, s) = (0x80, 0x0b) then .juniper
  else .none

/-- The reference of an IPv6-specific extended community. -/
def ipv6Reference (ec : Bytes) : Reference :=
  if fromBeBytes (ec.take 2) = 0x000C then
    addressReference ((ec.drop 2).take 16) (fromBeBytes ((ec.drop 18).take 2))
  else .none

/-! ### Texts -/

/-- What the actions of redirect communities begin with. -/
def verbs : List String := ["redirect-to", "copy-to"]

/-- What may stand behind them. -/
def IsFlags (t : String) : Prop := t = "" ∨ ∃ flags, t = "(flags=0x" ++ hex4 flags ++ ")"

/-- The text of an IPv4 address. -/
def Dotted (x : String) : Prop := ∃ octets : Vector UInt8 4, x = IpAddr.ipv4Text octets.toList

/-- A text that still stands for the next hop. -/
def Unresolved (s : String) : Prop :=
  (∃ verb ∈ verbs, ∃ t, IsFlags t ∧ s = verb ++ "-next-hop" ++ t) ∨
    ∃ front, s = front ++ "(juniper-redirect-to-next-hop)"

/-- A text that stands for the next hop no more, and that has an IPv4 address where it says
that it has one. -/
structure Settled (s : String) : Prop where
  resolved : ¬ Unresolved s
  address : ∀ verb ∈ verbs, ∀ x t, '(' ∉ x.toList → IsFlags t → s = verb ++ "-ipv4=" ++ x ++ t →
    Dotted x
  juniper : ∀ front x, s = front ++ "(juniper-redirect-to-ipv4=" ++ x ++ ")" → Dotted x

/-- The text of an action that has nothing to do with the next hop: it does not begin with
one of the verbs, and has no remark about one behind it. -/
structure Quiet (s : String) : Prop where
  front : s.toList.take 2 ≠ ['r', 'e'] ∧ s.toList.take 2 ≠ ['c', 'o']
  remark : ¬ "(juniper".toList <:+: s.toList

/-- What the texts of communities look like. -/
inductive Shape : Reference → String → Prop
  | plain {verb : String} : verb ∈ verbs → Shape .plain (verb ++ "-next-hop")
  | flagged {verb : String} (flags : ℕ) : verb ∈ verbs →
      Shape .flagged (verb ++ "-next-hop" ++ ("(flags=0x" ++ hex4 flags ++ ")"))
  | juniper (ec : Bytes) :
      Shape .juniper ("ec=" ++ hexEncode ec ++ "(juniper-redirect-to-next-hop)")
  | ipv4 {verb t : String} (octets : Vector UInt8 4) : verb ∈ verbs → IsFlags t →
      Shape .none (verb ++ "-ipv4=" ++ IpAddr.ipv4Text octets.toList ++ t)
  | ipv6 {verb t : String} (octets : Vector UInt8 16) : verb ∈ verbs → IsFlags t →
      Shape .none (verb ++ "-ipv6=" ++ IpAddr.ipv6Text octets.toList ++ t)
  | other {s : String} : Quiet s → Shape .none s

/-! ### The characters of the texts -/

theorem paren_ne_digit (d : ℕ) : Nat.digitChar d ≠ '(' := Nat.digitChar_ne '(' (by decide)

/-- A bracket is in neither of two texts, so it is not in both together. -/
theorem paren_not_mem_append {a b : String} (ha : '(' ∉ a.toList) (hb : '(' ∉ b.toList) :
    '(' ∉ (a ++ b).toList := by
  rw [String.toList_append, List.mem_append]
  exact not_or.mpr ⟨ha, hb⟩

/-- Octets are shown with digits and nothing else. -/
theorem not_mem_hexEncode {c : Char} (hc : ∀ d, Nat.digitChar d ≠ c) (data : Bytes) :
    c ∉ (hexEncode data).toList := by
  unfold hexEncode
  rw [String.toList_ofList, List.mem_flatMap]
  rintro ⟨b, -, hb⟩
  rcases List.mem_pair.mp hb with h | h
  · exact hc _ h.symm
  · exact hc _ h.symm

/-- There is no bracket in an IPv4 address. -/
theorem paren_not_mem_ipv4Text (octets : Bytes) : '(' ∉ (IpAddr.ipv4Text octets).toList :=
  not_mem_ipv4Text paren_ne_digit (by decide) octets

/-- Neither is there one in an IPv6 address. -/
theorem paren_not_mem_ipv6Text (octets : Bytes) : '(' ∉ (IpAddr.ipv6Text octets).toList :=
  not_mem_ipv6Text paren_ne_digit (by decide) (by decide) octets

theorem paren_not_mem_nextHopString (hop : Bytes) : '(' ∉ (nextHopString hop).toList := by
  unfold nextHopString
  split_ifs
  · simp
  · exact paren_not_mem_ipv4Text hop
  · exact paren_not_mem_ipv6Text hop
  · -- a global and a link-local address
    refine paren_not_mem_append (paren_not_mem_append ?_ (by decide)) ?_
    · exact paren_not_mem_ipv6Text _
    · exact paren_not_mem_ipv6Text _
  · exact not_mem_hexEncode paren_ne_digit hop

/-- **A next hop is an IPv4 address** exactly when it has four octets. Addresses of the
other family have colons, and octets that are shown as such have no dots. -/
theorem dotted_nextHopString_iff {hop : Bytes} : Dotted (nextHopString hop) ↔ hop.length = 4 := by
  constructor
  · -- a dotted text has a dot and no colon, which leaves one of the five forms
    rintro ⟨octets, h⟩
    have hdot : '.' ∈ (nextHopString hop).toList := by
      rw [h]
      obtain ⟨⟨l⟩, hl⟩ := octets
      rcases l with _ | ⟨a, _ | ⟨b, rest⟩⟩
      · exact absurd hl (by simp)
      · exact absurd hl (by simp)
      · exact IpAddr.dot_mem_ipv4Text
    have hcolon : ':' ∉ (nextHopString hop).toList := by
      rw [h]
      exact Ip.colon_not_mem_ipv4Text _
    unfold nextHopString at hdot hcolon
    split_ifs at hdot hcolon with h0 h4 h16 h32
    · exact absurd hdot (by simp)
    · exact h4
    · exact absurd (Ip.colon_mem_ipv6Text h16) hcolon
    · refine absurd ?_ hcolon
      -- two addresses: the first of them has a colon
      have hfront : (hop.take 16).length = 16 := by
        rw [List.length_take]
        omega
      rw [String.toList_append, String.toList_append, List.mem_append, List.mem_append]
      exact Or.inl (Or.inl (Ip.colon_mem_ipv6Text hfront))
    · exact absurd hdot (not_mem_hexEncode IpAddr.digitChar_ne_dot hop)
  · intro h
    refine ⟨⟨hop.toArray, h⟩, ?_⟩
    unfold nextHopString
    rw [if_neg (by omega), if_pos h]
    rfl

/-! ### Remarks -/

/-- There is a remark about a next hop in the text. -/
def Remarked (s : String) : Prop := "(juniper".toList <:+: s.toList

theorem remarked_append (front rest : String) : Remarked (front ++ ("(juniper" ++ rest)) := by
  unfold Remarked
  rw [String.toList_append, String.toList_append, ← List.append_assoc]
  exact List.infix_append _ _ _

/-- The remark about a redirect to the next hop is one. -/
theorem remarked_nextHop (front : String) : Remarked (front ++ "(juniper-redirect-to-next-hop)") :=
  remarked_append front "-redirect-to-next-hop)"

/-- So is the one about a redirect to an address. -/
theorem remarked_ipv4 (front x : String) :
    Remarked (front ++ "(juniper-redirect-to-ipv4=" ++ x ++ ")") := by
  rw [String.append_assoc, String.append_assoc]
  exact remarked_append front ("-redirect-to-ipv4=" ++ (x ++ ")"))

/-- The flags are shown without another bracket. -/
theorem paren_not_mem_flags (flags : ℕ) : '(' ∉ ("flags=0x" ++ hex4 flags ++ ")").toList :=
  paren_not_mem_append (paren_not_mem_append (by decide) (not_mem_hexEncode paren_ne_digit _))
    (by decide)

/-- Flags are no remark. -/
theorem not_remarked {front t : String} (hfront : '(' ∉ front.toList) (ht : IsFlags t) :
    ¬ Remarked (front ++ t) := by
  rintro ⟨p, q, h⟩
  have hlist : p ++ '(' :: ("juniper".toList ++ q) = front.toList ++ t.toList := by
    rw [← String.toList_append, ← h]
    simp
  rcases ht with rfl | ⟨flags, rfl⟩
  · -- without flags there is no parenthesis at all
    refine hfront ?_
    rw [String.toList_empty, List.append_nil] at hlist
    rw [← hlist]
    simp
  · -- with flags there is one, and behind it stands what is not "juniper"
    rw [String.append_assoc, String.toList_append] at hlist
    have hparen : front.toList ++ '(' :: ("flags=0x" ++ hex4 flags ++ ")").toList
        = p ++ '(' :: ("juniper".toList ++ q) := by
      rw [hlist]
      simp
    obtain ⟨-, -, hrest⟩ :=
      (List.append_cons_inj_of_notMem hfront (paren_not_mem_flags flags)).mp hparen
    simp at hrest

/-! ### The pass over a text -/

/-- A text that ends with a suffix is what is left of it and the suffix. -/
theorem eq_append_of_stripSuffix {s suf front : String} (h : Text.stripSuffix s suf = some front) :
    s = front ++ suf := by
  unfold Text.stripSuffix at h
  split_ifs at h with hends
  obtain rfl := Option.some.inj h
  obtain ⟨p, hp⟩ := List.isSuffixOf_iff_suffix.mp hends
  refine String.toList_inj.mp ?_
  rw [String.toList_append, String.toList_ofList, ← hp, List.length_append, Nat.add_sub_cancel,
    List.take_left]

/-- A suffix that stands there is taken off. -/
theorem stripSuffix_append (front suf : String) :
    Text.stripSuffix (front ++ suf) suf = some front := by
  have hends : Text.endsWith (front ++ suf) suf = true := by
    unfold Text.endsWith
    rw [List.isSuffixOf_iff_suffix, String.toList_append]
    exact List.suffix_append _ _
  unfold Text.stripSuffix
  rw [if_pos hends, String.toList_append, List.length_append, Nat.add_sub_cancel, List.take_left,
    String.ofList_toList]

/-- A text that is not found stays as it is. -/
theorem replaceText_eq_self {s : String} (hr : s ≠ "redirect-to-next-hop")
    (hc : s ≠ "copy-to-next-hop")
    (hremark : ∀ front, s ≠ front ++ "(juniper-redirect-to-next-hop)") (hop : String) :
    replaceText hop s = s := by
  unfold replaceText
  rw [if_neg hr, if_neg hc]
  cases hs : Text.stripSuffix s "(juniper-redirect-to-next-hop)" with
  | none => rfl
  | some front => exact absurd (eq_append_of_stripSuffix hs) (hremark front)

/-- No verb is the beginning of another one, so it can be told from what is behind it. -/
theorem verb_inj {verb verb' a b : String} (hv : verb ∈ verbs) (hv' : verb' ∈ verbs)
    (h : verb ++ a = verb' ++ b) : verb = verb' ∧ a = b := by
  have hlist := congrArg String.toList h
  rw [String.toList_append, String.toList_append] at hlist
  -- the two verbs differ in their first letters
  rcases List.mem_pair.mp hv with rfl | rfl <;> rcases List.mem_pair.mp hv' with rfl | rfl
  · exact ⟨rfl, String.toList_inj.mp (List.append_cancel_left hlist)⟩
  · simp at hlist
  · simp at hlist
  · exact ⟨rfl, String.toList_inj.mp (List.append_cancel_left hlist)⟩

/-! ### What becomes of a text -/

theorem paren_not_mem_verb {verb : String} (hv : verb ∈ verbs) : '(' ∉ verb.toList := by
  rcases List.mem_pair.mp hv with rfl | rfl <;> decide

/-- Flags begin with a parenthesis. -/
theorem head_flags {t : String} (ht : IsFlags t) :
    ∀ c ∈ t.toList.head?, decide (c ≠ '(') = false := by
  rcases ht with rfl | ⟨flags, rfl⟩
  · simp
  · rw [String.append_assoc, String.toList_append]
    simp

/-- There is no bracket in a redirect, when there is none in its parts. -/
theorem paren_not_mem_redirect {verb family x : String} (hv : verb ∈ verbs)
    (hf : '(' ∉ family.toList) (hx : '(' ∉ x.toList) : '(' ∉ (verb ++ family ++ x).toList := by
  rw [String.toList_append, String.toList_append, List.mem_append, List.mem_append]
  rintro ((h | h) | h)
  · exact paren_not_mem_verb hv h
  · exact hf h
  · exact hx h

/-- The text of a redirect action with an address does not stand for the next hop, and there
is no remark in it. -/
theorem resolved_address {verb family x t : String} (hv : verb ∈ verbs)
    (hf : family ∈ ["-ipv4=", "-ipv6="]) (hx : '(' ∉ x.toList) (ht : IsFlags t) :
    ¬ Unresolved (verb ++ family ++ x ++ t) ∧ ¬ Remarked (verb ++ family ++ x ++ t) := by
  have hfamily : '(' ∉ family.toList := by
    rcases List.mem_pair.mp hf with rfl | rfl <;> decide
  have hremark := not_remarked (paren_not_mem_redirect hv hfamily hx) ht
  refine ⟨?_, hremark⟩
  rintro (⟨verb', hv', t', -, h⟩ | ⟨front, h⟩)
  · -- behind the verb stands the family, and not the next hop
    simp only [String.append_assoc] at h
    have hlist := congrArg String.toList (verb_inj hv hv' h).2
    rcases List.mem_pair.mp hf with rfl | rfl <;> simp at hlist
  · exact hremark (h ▸ remarked_nextHop front)

/-- The text of a redirect action with an address: it is settled when the address is an
IPv4 address. -/
theorem settled_ipv4_iff {verb x t : String} (hv : verb ∈ verbs) (hx : '(' ∉ x.toList)
    (ht : IsFlags t) : Settled (verb ++ "-ipv4=" ++ x ++ t) ↔ Dotted x := by
  obtain ⟨hresolved, hremark⟩ := resolved_address hv (List.mem_cons_self) hx ht
  refine ⟨fun h => h.address verb hv x t hx ht rfl, fun hd => ⟨hresolved, ?_, ?_⟩⟩
  · intro verb' hv' x' t' hx' ht' h
    simp only [String.append_assoc] at h
    have hlist := congrArg String.toList (verb_inj hv hv' h).2
    have hrest : x ++ t = x' ++ t' := String.toList_inj.mp (by simpa using hlist)
    -- both addresses end where the flags begin, so they are one address
    have hfree : ∀ {y : String}, '(' ∉ y.toList → ∀ c ∈ y.toList, decide (c ≠ '(') = true :=
      fun hy c hc => decide_eq_true fun he => hy (he ▸ hc)
    obtain ⟨rfl, -⟩ := Text.span_inj (p := fun c => decide (c ≠ '(')) (hfree hx) (hfree hx')
      (head_flags ht) (head_flags ht') hrest
    exact hd
  · intro front x' h
    exact absurd (h ▸ remarked_ipv4 front x') hremark

/-- An address of the other family is shown as one. -/
theorem settled_ipv6 {verb x t : String} (hv : verb ∈ verbs) (hx : '(' ∉ x.toList)
    (ht : IsFlags t) : Settled (verb ++ "-ipv6=" ++ x ++ t) := by
  obtain ⟨hresolved, hremark⟩ :=
    resolved_address hv (List.mem_cons_of_mem _ List.mem_cons_self) hx ht
  refine ⟨hresolved, ?_, ?_⟩
  · intro verb' hv' x' t' _ _ h
    simp only [String.append_assoc] at h
    have hlist := congrArg String.toList (verb_inj hv hv' h).2
    simp at hlist
  · intro front x' h
    exact absurd (h ▸ remarked_ipv4 front x') hremark

/-- A text that says nothing about next hops is settled. -/
theorem Quiet.settled {s : String} (h : Quiet s) : Settled s := by
  -- each of the verbs would show in the first two letters
  have hverb : ∀ verb ∈ verbs, ∀ rest, s ≠ verb ++ rest := by
    rintro verb hv rest rfl
    obtain ⟨hr, hc⟩ := h.front
    rw [String.toList_append] at hr hc
    rcases List.mem_pair.mp hv with rfl | rfl
    · exact hr (by simp)
    · exact hc (by simp)
  refine ⟨?_, ?_, ?_⟩
  · rintro (⟨verb, hv, t, -, hs⟩ | ⟨front, rfl⟩)
    · rw [String.append_assoc] at hs
      exact hverb verb hv _ hs
    · exact h.remark (remarked_nextHop front)
  · intro verb hv x t _ _ hs
    rw [String.append_assoc, String.append_assoc] at hs
    exact absurd hs (hverb verb hv _)
  · rintro front x rfl
    exact absurd (remarked_ipv4 front x) h.remark

/-- The text of the other vendor's action with an address. -/
theorem settled_juniper_iff {x : String} (hx : '(' ∉ x.toList) (ec : Bytes) :
    Settled ("ec=" ++ hexEncode ec ++ "(juniper-redirect-to-ipv4=" ++ x ++ ")") ↔ Dotted x := by
  -- the text begins with none of the verbs
  have hverb : ∀ verb ∈ verbs, ∀ rest,
      "ec=" ++ hexEncode ec ++ "(juniper-redirect-to-ipv4=" ++ x ++ ")" ≠ verb ++ rest := by
    intro verb hv rest h
    have hlist := congrArg String.toList h
    simp only [String.toList_append] at hlist
    rcases List.mem_pair.mp hv with rfl | rfl <;> simp at hlist
  have hfront : '(' ∉ "ec=".toList ++ (hexEncode ec).toList := by
    rw [List.mem_append]
    rintro (h | h)
    · exact absurd h (by decide)
    · exact not_mem_hexEncode paren_ne_digit ec h
  have hback : '(' ∉ "juniper-redirect-to-ipv4=".toList ++ (x.toList ++ [')']) := by
    rw [List.mem_append, List.mem_append]
    rintro (h | h | h)
    · exact absurd h (by decide)
    · exact hx h
    · exact absurd h (by decide)
  -- what is behind the one parenthesis of the text
  have hsplit : ∀ (front : String) (rest : List Char),
      ("ec=" ++ hexEncode ec ++ "(juniper-redirect-to-ipv4=" ++ x ++ ")").toList
          = front.toList ++ '(' :: rest →
        "juniper-redirect-to-ipv4=".toList ++ (x.toList ++ [')']) = rest := by
    intro front rest h
    have hone : "ec=".toList ++ (hexEncode ec).toList
        ++ '(' :: ("juniper-redirect-to-ipv4=".toList ++ (x.toList ++ [')']))
          = front.toList ++ '(' :: rest := by
      rw [← h]
      simp
    exact ((List.append_cons_inj_of_notMem hfront hback).mp hone).2.2
  refine ⟨fun h => h.juniper _ x rfl, fun hd => ⟨?_, ?_, ?_⟩⟩
  · rintro (⟨verb, hv, t, -, h⟩ | ⟨front, h⟩)
    · exact hverb verb hv _ (h.trans String.append_assoc)
    · have hrest := hsplit front "juniper-redirect-to-next-hop)".toList (by rw [h]; simp)
      simp at hrest
  · intro verb hv y t _ _ h
    have h := h.trans (String.append_assoc.trans String.append_assoc)
    exact absurd h (hverb verb hv _)
  · intro front y h
    have hrest := hsplit front ("juniper-redirect-to-ipv4=".toList ++ (y.toList ++ [')']))
      (by rw [h]; simp)
    have hxy := List.append_cancel_right (List.append_cancel_left hrest)
    rwa [← String.toList_inj.mp hxy]

/-- A redirect to the next hop becomes one to its address. -/
theorem replaceText_plain {verb : String} (hv : verb ∈ verbs) (hop : String) :
    replaceText hop (verb ++ "-next-hop") = verb ++ "-ipv4=" ++ hop := by
  rcases List.mem_pair.mp hv with rfl | rfl <;> rfl

/-- So does the one of Juniper, inside of its remark. -/
theorem replaceText_juniper (ec : Bytes) (hop : String) :
    replaceText hop ("ec=" ++ hexEncode ec ++ "(juniper-redirect-to-next-hop)")
      = "ec=" ++ hexEncode ec ++ "(juniper-redirect-to-ipv4=" ++ hop ++ ")" := by
  -- it is neither of the two whole texts
  have hne : ∀ {s : String}, s.toList.head? ≠ some 'e' →
      "ec=" ++ hexEncode ec ++ "(juniper-redirect-to-next-hop)" ≠ s := by
    rintro s hs rfl
    refine hs ?_
    simp only [String.toList_append]
    rfl
  unfold replaceText
  rw [if_neg (hne (by decide)), if_neg (hne (by decide)), stripSuffix_append]

/-- A text that does not stand for the next hop is not found. -/
theorem replaceText_of_resolved {s : String} (h : ¬ Unresolved s) (hop : String) :
    replaceText hop s = s := by
  have hverb : ∀ verb ∈ verbs, s ≠ verb ++ "-next-hop" := by
    rintro verb hv rfl
    exact h (Or.inl ⟨verb, hv, "", Or.inl rfl, (String.append_empty).symm⟩)
  have hr : s ≠ "redirect-to-next-hop" := hverb "redirect-to" (by simp [verbs])
  have hc : s ≠ "copy-to-next-hop" := hverb "copy-to" (by simp [verbs])
  exact replaceText_eq_self hr hc (fun front hs => h (Or.inr ⟨front, hs⟩)) hop

/-- Shown flags hide a text from the pass. -/
theorem replaceText_flagged {verb : String} (hv : verb ∈ verbs) (flags : ℕ) (hop : String) :
    replaceText hop (verb ++ "-next-hop" ++ ("(flags=0x" ++ hex4 flags ++ ")"))
      = verb ++ "-next-hop" ++ ("(flags=0x" ++ hex4 flags ++ ")") := by
  have hfront : '(' ∉ (verb ++ "-next-hop").toList := by
    rcases List.mem_pair.mp hv with rfl | rfl <;> decide
  -- the texts that are looked for as a whole have no parenthesis
  have hparen : ∀ {s : String}, '(' ∉ s.toList →
      verb ++ "-next-hop" ++ ("(flags=0x" ++ hex4 flags ++ ")") ≠ s := by
    rintro s hs rfl
    refine hs ?_
    simp
  refine replaceText_eq_self (hparen (by decide)) (hparen (by decide)) (fun front hs => ?_) hop
  exact not_remarked hfront (Or.inr ⟨flags, rfl⟩) (hs ▸ remarked_nextHop front)

/-- **What becomes of the text of a community** when the next hop is put in. -/
theorem Shape.settled_iff {ref : Reference} {s : String} (h : Shape ref s) (hop : Bytes) :
    Settled (replaceText (nextHopString hop) s) ↔
      ref ≠ .flagged ∧ (ref = .plain ∨ ref = .juniper → hop.length = 4) := by
  have hquiet : ∀ {s : String}, Settled s → (Settled (replaceText (nextHopString hop) s) ↔
      Reference.none ≠ .flagged ∧
        (Reference.none = .plain ∨ Reference.none = .juniper → hop.length = 4)) := by
    intro s hs
    rw [replaceText_of_resolved hs.resolved]
    exact iff_of_true hs ⟨by decide, by simp⟩
  have hparen := paren_not_mem_nextHopString hop
  cases h with
  | plain hv =>
    -- the next hop stands where an IPv4 address is promised
    have hsettled := settled_ipv4_iff hv hparen (Or.inl rfl)
    rw [String.append_empty, dotted_nextHopString_iff] at hsettled
    rw [replaceText_plain hv, hsettled]
    simp
  | flagged flags hv =>
    -- the text is what it was, and stands for the next hop still
    rw [replaceText_flagged hv]
    refine iff_of_false (fun hs => hs.resolved (Or.inl ⟨_, hv, _, Or.inr ⟨flags, rfl⟩, rfl⟩)) ?_
    simp
  | juniper ec =>
    rw [replaceText_juniper, settled_juniper_iff hparen, dotted_nextHopString_iff]
    simp
  | ipv4 octets hv ht =>
    exact hquiet ((settled_ipv4_iff hv (paren_not_mem_ipv4Text _) ht).mpr ⟨octets, rfl⟩)
  | ipv6 octets hv ht => exact hquiet (settled_ipv6 hv (paren_not_mem_ipv6Text _) ht)
  | other hs => exact hquiet hs.settled

/-- The texts that the next hop is put into are those that stand for it without flags. -/
theorem Shape.replaceText_eq_iff {ref : Reference} {s : String} (h : Shape ref s) (hop : String) :
    replaceText hop s = s ↔ ref ≠ .plain ∧ ref ≠ .juniper := by
  -- a text without a reference is left as it is
  have hquiet : ∀ {s : String}, Settled s → (replaceText hop s = s ↔
      Reference.none ≠ .plain ∧ Reference.none ≠ .juniper) := fun hs =>
    iff_of_true (replaceText_of_resolved hs.resolved hop) ⟨by decide, by decide⟩
  cases h with
  | plain hv =>
    rw [replaceText_plain hv]
    refine iff_of_false (fun heq => ?_) (by simp)
    -- the text has become longer
    rw [String.append_assoc] at heq
    have hlist := congrArg String.toList (verb_inj hv hv heq).2
    simp at hlist
  | flagged flags hv => exact iff_of_true (replaceText_flagged hv flags hop) ⟨by decide, by decide⟩
  | juniper ec =>
    rw [replaceText_juniper]
    refine iff_of_false (fun heq => ?_) (by simp)
    have hlist := congrArg String.toList heq
    simp at hlist
  | ipv4 octets hv ht =>
    exact hquiet ((settled_ipv4_iff hv (paren_not_mem_ipv4Text _) ht).mpr ⟨octets, rfl⟩)
  | ipv6 octets hv ht => exact hquiet (settled_ipv6 hv (paren_not_mem_ipv6Text _) ht)
  | other hs => exact hquiet hs.settled

/-! ### The texts of communities -/

/-- The text of a redirect action: a next hop for the unspecified address, and otherwise
the address. -/
theorem redirectToIpAction_eq (family addr : String) (flags : ℕ) :
    ∃ verb ∈ verbs, ∃ t, IsFlags t ∧
      (flags = 0 ∨ flags = 1 → t = "") ∧
      (¬ (flags = 0 ∨ flags = 1) → t = "(flags=0x" ++ hex4 flags ++ ")") ∧
      redirectToIpAction family addr flags =
        if addr = "0.0.0.0" ∨ addr = "::" then verb ++ "-next-hop" ++ t
        else verb ++ ("-" ++ family ++ "=") ++ addr ++ t := by
  refine ⟨if flags % 2 = 1 then "copy-to" else "redirect-to", ?_,
    if flags = 0 ∨ flags = 1 then "" else "(flags=0x" ++ hex4 flags ++ ")", ?_, ?_, ?_, ?_⟩
  · split_ifs <;> simp [verbs]
  · split_ifs
    · exact Or.inl rfl
    · exact Or.inr ⟨flags, rfl⟩
  · exact fun h => if_pos h
  · exact fun h => if_neg h
  · unfold redirectToIpAction
    simp only [String.append_assoc]

/-- A text that tells its octets is that of the unspecified address when all octets are zero. -/
theorem unspecified_iff {text : Bytes → String} {octets : Bytes}
    (hinj : text octets = text (List.replicate octets.length 0) →
      octets = List.replicate octets.length 0) :
    text octets = text (List.replicate octets.length 0) ↔ ∀ b ∈ octets, b = 0 := by
  have hrep : octets = List.replicate octets.length 0 ↔ ∀ b ∈ octets, b = 0 := by
    rw [List.eq_replicate_iff]
    exact and_iff_right rfl
  rw [← hrep]
  exact ⟨hinj, congrArg text⟩

/-- The text of the unspecified address is that of no other one. -/
theorem ipv4Text_unspecified_iff {octets : Bytes} (h : octets.length = 4) :
    IpAddr.ipv4Text octets = "0.0.0.0" ↔ ∀ b ∈ octets, b = 0 := by
  have hzero : IpAddr.ipv4Text (List.replicate octets.length 0) = "0.0.0.0" := by
    rw [h]
    decide
  have hne : octets ≠ [] := List.ne_nil_of_length_pos (by omega)
  rw [← hzero]
  exact unspecified_iff (IpAddr.ipv4Text_injective hne (by rw [h]; decide))

theorem ipv6Text_unspecified_iff {octets : Bytes} (h : octets.length = 16) :
    IpAddr.ipv6Text octets = "::" ↔ ∀ b ∈ octets, b = 0 := by
  have hzero : IpAddr.ipv6Text (List.replicate octets.length 0) = "::" := by
    rw [h]
    decide
  rw [← hzero]
  exact unspecified_iff (IpAddr.ipv6Text_injective h (by rw [h]; decide))

/-- A redirect action to the unspecified address stands for the next hop. -/
theorem shape_unspecified {verb t : String} (hv : verb ∈ verbs) {flags : ℕ} {address : Bytes}
    (haddress : ∀ b ∈ address, b = 0) (h₀ : flags = 0 ∨ flags = 1 → t = "")
    (h₁ : ¬ (flags = 0 ∨ flags = 1) → t = "(flags=0x" ++ hex4 flags ++ ")") :
    Shape (addressReference address flags) (verb ++ "-next-hop" ++ t) := by
  unfold addressReference
  rw [if_pos haddress]
  by_cases hflags : flags = 0 ∨ flags = 1
  · rw [if_pos hflags, h₀ hflags, String.append_empty]
    exact .plain hv
  · rw [if_neg hflags, h₁ hflags]
    exact .flagged flags hv

/-- The text of a redirect action has the shape of its reference. -/
theorem redirectToIpAction_shape {octets : Bytes} {family front addr : String}
    (hfront : "-" ++ family ++ "=" = front)
    (hzero : addr = "0.0.0.0" ∨ addr = "::" ↔ ∀ b ∈ octets, b = 0)
    (hshape : ∀ verb ∈ verbs, ∀ t, IsFlags t → Shape .none (verb ++ front ++ addr ++ t))
    (flags : ℕ) :
    Shape (addressReference octets flags) (redirectToIpAction family addr flags) := by
  obtain ⟨verb, hv, t, ht, h₀, h₁, heq⟩ := redirectToIpAction_eq family addr flags
  rw [heq, hfront]
  by_cases h : ∀ b ∈ octets, b = 0
  · rw [if_pos (hzero.mpr h)]
    exact shape_unspecified hv h h₀ h₁
  · rw [if_neg (mt hzero.mp h), addressReference, if_neg h]
    exact hshape verb hv t ht

/-- A redirect to an IPv4 address has the shape of its octets: the next hop, when they are zero. -/
theorem redirectToIpAction_shape_ipv4 {octets : Bytes} (h : octets.length = 4) (flags : ℕ) :
    Shape (addressReference octets flags)
      (redirectToIpAction "ipv4" (IpAddr.ipv4Text octets) flags) := by
  have hother : IpAddr.ipv4Text octets ≠ "::" := fun he =>
    Ip.colon_not_mem_ipv4Text octets (he ▸ by decide)
  have hzero : IpAddr.ipv4Text octets = "0.0.0.0" ∨ IpAddr.ipv4Text octets = "::" ↔
      ∀ b ∈ octets, b = 0 := by
    rw [or_iff_left hother]
    exact ipv4Text_unspecified_iff h
  have hfront : "-" ++ "ipv4" ++ "=" = "-ipv4=" := by decide
  exact redirectToIpAction_shape hfront hzero
    (fun verb hv t ht => .ipv4 ⟨octets.toArray, h⟩ hv ht) flags

theorem redirectToIpAction_shape_ipv6 {octets : Bytes} (h : octets.length = 16) (flags : ℕ) :
    Shape (addressReference octets flags)
      (redirectToIpAction "ipv6" (IpAddr.ipv6Text octets) flags) := by
  -- the text of an IPv6 address has a colon, so it is not the one of IPv4
  have hother : IpAddr.ipv6Text octets ≠ "0.0.0.0" := fun he => by
    have hcolon := Ip.colon_mem_ipv6Text h
    rw [he] at hcolon
    exact absurd hcolon (by decide)
  have hzero : IpAddr.ipv6Text octets = "0.0.0.0" ∨ IpAddr.ipv6Text octets = "::" ↔
      ∀ b ∈ octets, b = 0 := by
    rw [or_iff_right hother]
    exact ipv6Text_unspecified_iff h
  have hfront : "-" ++ "ipv6" ++ "=" = "-ipv6=" := by decide
  exact redirectToIpAction_shape hfront hzero
    (fun verb hv t ht => .ipv6 ⟨octets.toArray, h⟩ hv ht) flags

/-- A text is quiet by its first letters, when there is no bracket in it. -/
theorem quiet_append {front x : String}
    (hf : 2 ≤ front.toList.length ∧ front.toList.take 2 ≠ ['r', 'e'] ∧
      front.toList.take 2 ≠ ['c', 'o'] ∧ '(' ∉ front.toList) (hx : '(' ∉ x.toList) :
    Quiet (front ++ x) := by
  obtain ⟨hlen, hr, hc, hp⟩ := hf
  have htake : (front ++ x).toList.take 2 = front.toList.take 2 := by
    rw [String.toList_append, List.take_append_of_le_length hlen]
  refine ⟨by rw [htake]; exact ⟨hr, hc⟩, ?_⟩
  have hfree : '(' ∉ (front ++ x).toList := by
    rw [String.toList_append, List.mem_append]
    exact not_or.mpr ⟨hp, hx⟩
  have hno := not_remarked hfree (Or.inl rfl)
  rwa [String.append_empty] at hno

theorem Quiet.ite {p : Prop} [Decidable p] {a b : String} (ha : Quiet a) (hb : Quiet b) :
    Quiet (if p then a else b) := by
  by_cases hp : p
  · rwa [if_pos hp]
  · rwa [if_neg hp]

theorem paren_not_mem_repr (n : ℕ) : '(' ∉ (Nat.repr n).toList :=
  IpAddr.not_mem_repr paren_ne_digit n

theorem paren_not_mem_scaledText (x : Binary32) (shift : ℕ) :
    '(' ∉ (x.scaledText shift).toList := by
  -- both ways to write a rounded number have digits only
  have hrounded : ∀ significand biased : ℕ,
      '(' ∉ (Binary32.roundedText significand biased).toList := by
    intro significand biased
    unfold Binary32.roundedText
    split_ifs
    · exact paren_not_mem_repr _
    · exact paren_not_mem_repr _
  unfold Binary32.scaledText
  split_ifs
  · decide
  · decide
  · exact hrounded _ _
  · decide
  · exact hrounded _ _

/-- **The text of a community has the shape of its octets.** -/
theorem extCommunity_shape {ec : Bytes} (h : ec.length = 8) :
    Shape (extReference ec) (extCommunity ec) := by
  unfold extReference extCommunity
  generalize ec[0]! = t
  generalize ec[1]! = s
  by_cases hc : (t, s) = (0x01, 0x0C)
  · obtain ⟨rfl, rfl⟩ := Prod.mk.inj hc
    refine redirectToIpAction_shape_ipv4 ?_ _
    rw [List.length_take, List.length_drop]
    omega
  by_cases h8 : t = 0x08
  · subst h8
    exact @Shape.plain "redirect-to" (by simp [verbs])
  by_cases hj : (t, s) = (0x80, 0x0b)
  · obtain ⟨rfl, rfl⟩ := Prod.mk.inj hj
    exact .juniper ec
  -- all other communities say nothing about next hops
  simp only [if_neg hc, if_neg h8, if_neg hj]
  have hrate : ∀ (shift : ℕ) {unit : String}, '(' ∉ unit.toList → Quiet
      ("rate-limit=" ++ (readF32 ((ec.drop 4).take 4)).scaledText shift ++ unit) := by
    intro shift unit hunit
    rw [String.append_assoc]
    exact quiet_append (by decide) (paren_not_mem_append (paren_not_mem_scaledText _ _) hunit)
  have htarget : ∀ {a b : String}, '(' ∉ a.toList → '(' ∉ b.toList →
      Quiet ("rt-redirect=" ++ a ++ ":" ++ b) := by
    intro a b ha hb
    rw [String.append_assoc, String.append_assoc]
    exact quiet_append (by decide) (paren_not_mem_append ha (paren_not_mem_append (by decide) hb))
  have hflags : ∀ sample terminal : Bool, Quiet ("traffic-action(sample=" ++ boolName sample
      ++ ",terminal=" ++ boolName terminal ++ ")") := by
    intro sample terminal
    cases sample <;> cases terminal <;> exact ⟨by decide, by decide⟩
  refine .other ?_
  -- a rate that is not positive, and a rate
  refine .ite (.ite ⟨by decide, by decide⟩ (hrate 3 (by decide))) ?_
  refine .ite (.ite ⟨by decide, by decide⟩ (hrate 0 (by decide))) ?_
  refine .ite (hflags _ _) ?_
  -- the three forms of route targets
  refine .ite (htarget (paren_not_mem_repr _) (paren_not_mem_repr _)) ?_
  refine .ite (htarget (paren_not_mem_ipv4Text _) (paren_not_mem_repr _)) ?_
  refine .ite (htarget (paren_not_mem_repr _) (paren_not_mem_repr _)) ?_
  refine .ite (quiet_append (by decide) (paren_not_mem_repr _)) ?_
  -- unknown communities are shown as their octets
  have hocts : '(' ∉ (hexEncode ec).toList := not_mem_hexEncode paren_ne_digit ec
  exact .ite (quiet_append (by decide) hocts) (quiet_append (by decide) hocts)

/-- **So has the text of an IPv6 community.** -/
theorem ipv6ExtCommunity_shape {ec : Bytes} (h : ec.length = 20) :
    Shape (ipv6Reference ec) (ipv6ExtCommunity ec) := by
  unfold ipv6Reference ipv6ExtCommunity
  by_cases hc : fromBeBytes (ec.take 2) = 0x000C
  · rw [if_pos hc, if_pos hc]
    refine redirectToIpAction_shape_ipv6 ?_ _
    rw [List.length_take, List.length_drop]
    omega
  simp only [if_neg hc]
  have hocts : '(' ∉ (hexEncode ec).toList := not_mem_hexEncode paren_ne_digit ec
  -- no other IPv6 community has a parenthesis
  refine .other (.ite ?_ (.ite (quiet_append (by decide) hocts) (quiet_append (by decide) hocts)))
  rw [String.append_assoc, String.append_assoc]
  refine quiet_append (by decide) (paren_not_mem_append (paren_not_mem_ipv6Text _) ?_)
  exact paren_not_mem_append (by decide) (paren_not_mem_repr _)

end Wire
