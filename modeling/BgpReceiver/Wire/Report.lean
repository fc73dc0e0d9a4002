import BgpReceiver.Wire.Actions
import BgpReceiver.Wire.Path
import BgpReceiver.Wire.Rules

/-!
# What the report of an UPDATE tells

An UPDATE is not kept; what is kept of its attributes are the records that `update`
reports. A record shows the value of an attribute as text, in the words of the protocol,
and so it is a question how much of the attribute can be had back from it.

All of it, for most codes: the texts are injective, each in its way (`attributeValue_inj`).
The multiprotocol attributes are shown without their routes, and two extended communities
may ask for the same action. With these exceptions, two messages with the same report carry
the same attributes, octet for octet (`update_told`).
-/

namespace Wire

/-! ### Texts of octets -/

theorem hexEncode_injective : Function.Injective hexEncode := by
  intro data data' h
  have hlist := congrArg String.toList h
  unfold hexEncode at hlist
  rw [String.toList_ofList, String.toList_ofList] at hlist
  clear h
  -- octet by octet, two digits each
  induction data generalizing data' with
  | nil =>
    cases data' with
    | nil => rfl
    | cons => simp at hlist
  | cons b data ih =>
    cases data' with
    | nil => simp at hlist
    | cons b' data' =>
      simp only [List.flatMap_cons, List.cons_append, List.nil_append, List.cons.injEq] at hlist
      obtain ⟨hhigh, hlow, hrest⟩ := hlist
      have hb := b.toNat_lt
      have hb' := b'.toNat_lt
      -- the two digits are those of one octet
      have hquot := Text.digitChar_inj _ (by omega) _ (by omega) hhigh
      have hrem := Text.digitChar_inj _ (by omega) _ (by omega) hlow
      rw [ih hrest, UInt8.toNat_inj.mp (by omega : b.toNat = b'.toNat)]

/-- Two numbers of two octets have two texts. -/
theorem hex4_inj {m n : ℕ} (hm : m < 65536) (hn : n < 65536) (h : hex4 m = hex4 n) : m = n := by
  have hoctets := hexEncode_injective h
  unfold u16ToBeBytes at hoctets
  simp only [List.cons.injEq, and_true] at hoctets
  have hhigh := congrArg UInt8.toNat hoctets.1
  have hlow := congrArg UInt8.toNat hoctets.2
  rw [UInt8.toNat_ofNat', UInt8.toNat_ofNat'] at hhigh hlow
  omega

/-- An origin is told by its text, an unknown one by its number. -/
theorem originText_injective : Function.Injective originText := by
  intro b b' h
  unfold originText at h
  split at h <;> split at h <;> first | rfl | exact absurd h (by decide) | skip
  all_goals
    have hlist := congrArg String.toList h
    first
    | rw [String.toList_append, String.toList_append] at hlist
      exact UInt8.toNat_inj.mp
        (Nat.repr_inj.mp (String.toList_inj.mp (List.append_cancel_left hlist)))
    | simp at hlist

/-- Four octets are shown as an IPv4 address. -/
theorem nextHopString_four {octets : Bytes} (h : octets.length = 4) :
    nextHopString octets = IpAddr.ipv4Text octets := by
  unfold nextHopString
  rw [if_neg (by omega), if_pos h]

theorem nextHopString_four_inj {octets octets' : Bytes} (h : octets.length = 4)
    (h' : octets'.length = 4) (ht : nextHopString octets = nextHopString octets') :
    octets = octets' := by
  rw [nextHopString_four h, nextHopString_four h'] at ht
  exact IpAddr.ipv4Text_injective (List.ne_nil_of_length_pos (by omega))
    (List.ne_nil_of_length_pos (by omega)) ht

/-- Octets of one length that make up the same number. -/
theorem readBeInt_inj {octets octets' : Bytes} (hlen : octets.length = octets'.length)
    (hle : octets.length ≤ 8) (h : readBeInt octets = readBeInt octets') : octets = octets' := by
  rw [readBeInt_of_length_le hle, readBeInt_of_length_le (hlen ▸ hle)] at h
  exact fromBeBytes_inj hlen h

/-- Numbers with a colon between them. -/
theorem colons_inj {a a' : ℕ} {s s' : String}
    (h : Nat.repr a ++ ":" ++ s = Nat.repr a' ++ ":" ++ s') : a = a' ∧ s = s' := by
  rw [String.append_assoc, String.append_assoc] at h
  obtain ⟨ha, hs⟩ := Text.append_inj (IpAddr.not_mem_repr IpAddr.digitChar_ne_colon a)
    (IpAddr.not_mem_repr IpAddr.digitChar_ne_colon a') (by simp) (by simp) h
  exact ⟨Nat.repr_inj.mp ha, (String.append_right_inj _).mp hs⟩

/-! ### Communities -/

/-- The text of a community is a name, or has a colon. -/
theorem communityText_cases (chunk : Bytes) :
    (∃ n name, readBeInt chunk = n ∧ communityText chunk = name ∧
      (n, name) ∈ [(0xffffff01, "NO_EXPORT"), (0xffffff02, "NO_ADVERTISE"),
        (0xffffff03, "NO_EXPORT_SUBCONFED"), (0xffffff04, "NOPEER")]) ∨
    communityText chunk
      = Nat.repr (readBeInt (chunk.take 2)) ++ ":" ++ Nat.repr (readBeInt (chunk.drop 2)) := by
  unfold communityText
  split
  · exact .inl ⟨_, _, ‹_›, rfl, by simp⟩
  · exact .inl ⟨_, _, ‹_›, rfl, by simp⟩
  · exact .inl ⟨_, _, ‹_›, rfl, by simp⟩
  · exact .inl ⟨_, _, ‹_›, rfl, by simp⟩
  · exact .inr rfl

/-- **A community is told by its text**, the well-known ones by their names. -/
theorem communityText_inj {chunk chunk' : Bytes} (h : chunk.length = 4) (h' : chunk'.length = 4)
    (ht : communityText chunk = communityText chunk') : chunk = chunk' := by
  have hcolon : ∀ a b : ℕ, ':' ∈ (Nat.repr a ++ ":" ++ Nat.repr b).toList := fun a b => by simp
  -- no name has a colon, and they are all different
  have hnames : ∀ p ∈ [(0xffffff01, "NO_EXPORT"), (0xffffff02, "NO_ADVERTISE"),
      (0xffffff03, "NO_EXPORT_SUBCONFED"), (0xffffff04, "NOPEER")], ':' ∉ p.2.toList ∧
      ∀ q ∈ [(0xffffff01, "NO_EXPORT"), (0xffffff02, "NO_ADVERTISE"),
      (0xffffff03, "NO_EXPORT_SUBCONFED"), (0xffffff04, "NOPEER")], p.2 = q.2 → p.1 = q.1 := by
    decide
  obtain ⟨n, name, hn, hname, hmem⟩ | hc := communityText_cases chunk
  · obtain ⟨n', name', hn', hname', hmem'⟩ | hc' := communityText_cases chunk'
    · have hnn : n = n' := (hnames _ hmem).2 _ hmem' (hname.symm.trans (ht.trans hname'))
      exact readBeInt_inj (h.trans h'.symm) (by omega) (hn.trans (hnn.trans hn'.symm))
    · have hmem' := hcolon (readBeInt (chunk'.take 2)) (readBeInt (chunk'.drop 2))
      rw [← hc', ← ht, hname] at hmem'
      exact absurd hmem' (hnames _ hmem).1
  · obtain ⟨n', name', hn', hname', hmem'⟩ | hc' := communityText_cases chunk'
    · have hmem := hcolon (readBeInt (chunk.take 2)) (readBeInt (chunk.drop 2))
      rw [← hc, ht, hname'] at hmem
      exact absurd hmem (hnames _ hmem').1
    · rw [hc, hc'] at ht
      obtain ⟨hfront, hback⟩ := colons_inj ht
      rw [← List.take_append_drop 2 chunk, ← List.take_append_drop 2 chunk',
        readBeInt_inj (by simp [h, h']) (by simp [h]) hfront,
        readBeInt_inj (by simp [h, h']) (by simp [h]) (Nat.repr_inj.mp hback)]

/-- **So is a large community.** -/
theorem largeCommunityText_inj {chunk chunk' : Bytes} (h : chunk.length = 12)
    (h' : chunk'.length = 12) (ht : largeCommunityText chunk = largeCommunityText chunk') :
    chunk = chunk' := by
  -- the text is split at its first colon, and what is left at the next
  have hassoc : ∀ a b c : String, a ++ ":" ++ b ++ ":" ++ c = a ++ ":" ++ (b ++ ":" ++ c) :=
    fun a b c => by simp only [String.append_assoc]
  unfold largeCommunityText at ht
  rw [hassoc, hassoc] at ht
  obtain ⟨hfirst, ht⟩ := colons_inj ht
  obtain ⟨hsecond, hthird⟩ := colons_inj ht
  have hparts : ∀ octets : Bytes, octets = octets.take 4 ++ ((octets.drop 4).take 4
      ++ octets.drop 8) := fun octets => by
    conv_lhs => rw [← List.take_append_drop 4 octets, ← List.take_append_drop 4 (octets.drop 4),
      List.drop_drop]
  rw [hparts chunk, hparts chunk', readBeInt_inj (by simp [h, h']) (by simp [h]) hfirst,
    readBeInt_inj (by simp [h, h']) (by simp [h]) hsecond,
    readBeInt_inj (by simp [h, h']) (by simp [h]) (Nat.repr_inj.mp hthird)]

/-! ### Redirects to IPv6 addresses -/

/-- The flags of a redirect action: the verb and the remark behind it. -/
theorem redirectToIpAction_parts (family addr : String) (flags : ℕ) :
    ∃ verb ∈ verbs, ∃ t, IsFlags t ∧
      redirectToIpAction family addr flags = verb ++ (if addr = "0.0.0.0" ∨ addr = "::" then
        "-next-hop" else "-" ++ family ++ "=" ++ addr) ++ t ∧
      (verb = "copy-to" ↔ flags % 2 = 1) ∧ (t = "" ↔ flags = 0 ∨ flags = 1) ∧
      (¬ (flags = 0 ∨ flags = 1) → t = "(flags=0x" ++ hex4 flags ++ ")") := by
  -- the verb is told by the lowest flag, and the remark by the others
  refine ⟨if flags % 2 = 1 then "copy-to" else "redirect-to", ?_,
    if flags = 0 ∨ flags = 1 then "" else "(flags=0x" ++ hex4 flags ++ ")", ?_, ?_, ?_, ?_, ?_⟩
  · split_ifs <;> simp [verbs]
  · split_ifs
    · exact Or.inl rfl
    · exact Or.inr ⟨flags, rfl⟩
  · unfold redirectToIpAction
    by_cases haddr : addr = "0.0.0.0" ∨ addr = "::"
    · simp only [if_pos haddr]
    · simp only [if_neg haddr, String.append_assoc]
  · split_ifs with hodd <;> simp [hodd]
  · split_ifs with hfew
    · simp [hfew]
    · refine iff_of_false (fun he => ?_) hfew
      have hlist := congrArg String.toList he
      rw [String.toList_append, String.toList_append] at hlist
      simp at hlist
  · exact fun h => if_neg h

/-- The middle of a redirect action tells its address. -/
theorem redirect_middle_inj {octets octets' : Bytes} (h : octets.length = 16)
    (h' : octets'.length = 16)
    (hm : (if IpAddr.ipv6Text octets = "0.0.0.0" ∨ IpAddr.ipv6Text octets = "::" then "-next-hop"
        else "-" ++ "ipv6" ++ "=" ++ IpAddr.ipv6Text octets)
      = if IpAddr.ipv6Text octets' = "0.0.0.0" ∨ IpAddr.ipv6Text octets' = "::" then "-next-hop"
        else "-" ++ "ipv6" ++ "=" ++ IpAddr.ipv6Text octets') : octets = octets' := by
  -- no IPv6 address is written with dots only
  have hdots : ∀ {octets : Bytes}, octets.length = 16 → IpAddr.ipv6Text octets ≠ "0.0.0.0" := by
    intro octets h he
    have hcolon := Ip.colon_mem_ipv6Text h
    rw [he] at hcolon
    exact absurd hcolon (by decide)
  -- a next hop that is left open is not written as an address
  have hmixed : ∀ a : String, "-next-hop" ≠ "-" ++ "ipv6" ++ "=" ++ a := fun a he => by
    have hlist := congrArg String.toList he
    rw [String.toList_append, show ("-" ++ "ipv6" ++ "=").toList = "-ipv6=".toList by decide]
      at hlist
    simp at hlist
  simp only [hdots h, hdots h', false_or] at hm
  split_ifs at hm with hzero hzero' hzero'
  · exact IpAddr.ipv6Text_injective h h' (hzero.trans hzero'.symm)
  · exact absurd hm (hmixed _)
  · exact absurd hm.symm (hmixed _)
  · exact IpAddr.ipv6Text_injective h h' ((String.append_right_inj _).mp hm)

/-- A redirect tells its address and its flags. -/
theorem redirectToIpAction_ipv6_inj {octets octets' : Bytes} {flags flags' : ℕ}
    (h : octets.length = 16) (h' : octets'.length = 16) (hf : flags < 65536)
    (hf' : flags' < 65536)
    (ht : redirectToIpAction "ipv6" (IpAddr.ipv6Text octets) flags
      = redirectToIpAction "ipv6" (IpAddr.ipv6Text octets') flags') :
    octets = octets' ∧ flags = flags' := by
  obtain ⟨verb, hv, t, hflags, heq, hodd, hfew, hmany⟩ :=
    redirectToIpAction_parts "ipv6" (IpAddr.ipv6Text octets) flags
  obtain ⟨verb', hv', t', hflags', heq', hodd', hfew', hmany'⟩ :=
    redirectToIpAction_parts "ipv6" (IpAddr.ipv6Text octets') flags'
  -- in front of the remark there is no parenthesis
  have hfree : ∀ {verb : String}, verb ∈ verbs → ∀ octets : Bytes, ∀ c ∈ (verb ++
      if IpAddr.ipv6Text octets = "0.0.0.0" ∨ IpAddr.ipv6Text octets = "::" then "-next-hop"
        else "-" ++ "ipv6" ++ "=" ++ IpAddr.ipv6Text octets).toList, decide (c ≠ '(') = true := by
    intro verb hv octets c hc
    refine decide_eq_true fun he => ?_
    rw [he] at hc
    refine paren_not_mem_append (paren_not_mem_verb hv) ?_ hc
    split_ifs
    · decide
    · exact paren_not_mem_append (by decide) (paren_not_mem_ipv6Text octets)
  rw [heq, heq'] at ht
  -- the remark begins with the first parenthesis
  obtain ⟨hfront, htail⟩ := Text.span_inj (hfree hv octets) (hfree hv' octets')
    (head_flags hflags) (head_flags hflags') ht
  obtain ⟨hverb, hmiddle⟩ := verb_inj hv hv' hfront
  refine ⟨redirect_middle_inj h h' hmiddle, ?_⟩
  rw [hverb] at hodd
  by_cases hlow : flags = 0 ∨ flags = 1
  · have hlow' := hfew'.mp (htail ▸ hfew.mpr hlow)
    have hparity := hodd.symm.trans hodd'
    omega
  · have hhigh' : ¬ (flags' = 0 ∨ flags' = 1) := fun hl => hlow (hfew.mp (htail ▸ hfew'.mpr hl))
    rw [hmany hlow, hmany' hhigh'] at htail
    exact hex4_inj hf hf' ((String.append_right_inj _).mp ((String.append_left_inj _).mp htail))

/-- The kinds of IPv6 address specific extended communities. -/
def ipv6Kind (etype : ℕ) : ℕ :=
  if etype = 0x000C then 0 else if etype = 0x000D then 1
  else if 0x000C ≤ etype ∧ etype < 0x0010 then 2 else 3

/-- The kinds of IPv6 communities, by their types. -/
theorem ipv6Kind_iff (etype : ℕ) : (ipv6Kind etype = 0 ↔ etype = 0x000C) ∧
    (ipv6Kind etype = 1 ↔ etype = 0x000D) ∧
    (ipv6Kind etype = 2 ↔ etype = 0x000E ∨ etype = 0x000F) := by
  unfold ipv6Kind
  refine ⟨?_, ?_, ?_⟩ <;> split_ifs <;> simp <;> omega

/-- The kind that a text begins with. -/
def textKind (s : String) : ℕ :=
  if s.toList.take 2 = ['r', 'e'] ∨ s.toList.take 2 = ['c', 'o'] then 0
  else if s.toList.take 2 = ['r', 't'] then 1
  else if s.toList.take 2 = ['u', 'n'] then 2 else 3

/-- The kind of a text is in its first two letters. -/
theorem textKind_append {s t : String} (h : 2 ≤ s.toList.length) :
    textKind (s ++ t) = textKind s := by
  unfold textKind
  rw [String.toList_append, List.take_append_of_le_length h]

/-- The text of a community is of the kind of its type. -/
theorem textKind_ipv6ExtCommunity (ec : Bytes) :
    textKind (ipv6ExtCommunity ec) = ipv6Kind (fromBeBytes (ec.take 2)) := by
  unfold ipv6ExtCommunity ipv6Kind
  dsimp only
  -- each kind of community begins with letters of its own
  split_ifs
  · obtain ⟨verb, hv, t, -, heq, -⟩ := redirectToIpAction_parts "ipv6"
      (IpAddr.ipv6Text ((ec.drop 2).take 16)) (fromBeBytes ((ec.drop 18).take 2))
    rw [heq, String.append_assoc]
    rcases List.mem_pair.mp hv with rfl | rfl
    · rw [textKind_append (by decide)]
      decide
    · rw [textKind_append (by decide)]
      decide
  · rw [String.append_assoc, String.append_assoc, textKind_append (by decide)]
    decide
  · rw [textKind_append (by decide)]
    decide
  · rw [textKind_append (by decide)]
    decide

/-- An address in brackets, and a number behind a colon. -/
theorem brackets_inj {octets octets' : Bytes} {n n' : ℕ} (h : octets.length = 16)
    (h' : octets'.length = 16)
    (ht : "rt-redirect=[" ++ IpAddr.ipv6Text octets ++ "]:" ++ Nat.repr n
      = "rt-redirect=[" ++ IpAddr.ipv6Text octets' ++ "]:" ++ Nat.repr n') :
    octets = octets' ∧ n = n' := by
  have hbracket : ∀ octets : Bytes, ']' ∉ (IpAddr.ipv6Text octets).toList := fun octets =>
    not_mem_ipv6Text (fun d => Nat.digitChar_ne ']' (by decide)) (by decide) (by decide) octets
  simp only [String.append_assoc] at ht
  obtain ⟨haddress, hrest⟩ := Text.append_inj (hbracket octets) (hbracket octets') (by simp)
    (by simp) ((String.append_right_inj _).mp ht)
  exact ⟨IpAddr.ipv6Text_injective h h' haddress,
    Nat.repr_inj.mp ((String.append_right_inj _).mp hrest)⟩

/-- **An IPv6 address specific extended community** is told by its action. -/
theorem ipv6ExtCommunity_inj {ec ec' : Bytes} (h : ec.length = 20) (h' : ec'.length = 20)
    (ht : ipv6ExtCommunity ec = ipv6ExtCommunity ec') : ec = ec' := by
  -- the text tells the kind
  have hkind : ipv6Kind (fromBeBytes (ec.take 2)) = ipv6Kind (fromBeBytes (ec'.take 2)) := by
    rw [← textKind_ipv6ExtCommunity, ht, textKind_ipv6ExtCommunity]
  have hparts : ∀ octets : Bytes, octets.length = 20 → octets = octets.take 2
      ++ ((octets.drop 2).take 16 ++ (octets.drop 18).take 2) := fun octets hlen => by
    have hlast : (octets.drop 18).take 2 = octets.drop 18 := List.take_of_length_le (by simp [hlen])
    rw [hlast]
    conv_lhs => rw [← List.take_append_drop 2 octets, ← List.take_append_drop 16 (octets.drop 2),
      List.drop_drop]
  -- type, address and value are all of the octets
  have hjoin : fromBeBytes (ec.take 2) = fromBeBytes (ec'.take 2) →
      (ec.drop 2).take 16 = (ec'.drop 2).take 16 →
      fromBeBytes ((ec.drop 18).take 2) = fromBeBytes ((ec'.drop 18).take 2) → ec = ec' := by
    intro htype haddress hvalue
    rw [hparts ec h, hparts ec' h', haddress, fromBeBytes_inj (by simp [h, h']) htype,
      fromBeBytes_inj (by simp [h, h']) hvalue]
  unfold ipv6ExtCommunity at ht
  dsimp only at ht
  obtain ⟨hredirect, hroute, hunknown⟩ := ipv6Kind_iff (fromBeBytes (ec.take 2))
  obtain ⟨hredirect', hroute', hunknown'⟩ := ipv6Kind_iff (fromBeBytes (ec'.take 2))
  rw [hkind] at hredirect hroute hunknown
  have hsame : (fromBeBytes (ec.take 2) = 0x000C ↔ fromBeBytes (ec'.take 2) = 0x000C) ∧
      (fromBeBytes (ec.take 2) = 0x000D ↔ fromBeBytes (ec'.take 2) = 0x000D) :=
    ⟨hredirect.symm.trans hredirect', hroute.symm.trans hroute'⟩
  have hlt : ∀ octets : Bytes, fromBeBytes ((octets.drop 18).take 2) < 65536 := fun octets =>
    (fromBeBytes_lt _).trans_le
      (Nat.pow_le_pow_right (by decide : 256 > 0) (List.length_take_le 2 (octets.drop 18)))
  by_cases htwelve : fromBeBytes (ec.take 2) = 0x000C
  · have htwelve' := hsame.1.mp htwelve
    rw [if_pos htwelve, if_pos htwelve'] at ht
    obtain ⟨haddress, hvalue⟩ := redirectToIpAction_ipv6_inj (by simp [h]) (by simp [h'])
      (hlt ec) (hlt ec') ht
    exact hjoin (htwelve.trans htwelve'.symm) haddress hvalue
  rw [if_neg htwelve, if_neg (mt hsame.1.mpr htwelve)] at ht
  by_cases hthirteen : fromBeBytes (ec.take 2) = 0x000D
  · have hthirteen' := hsame.2.mp hthirteen
    rw [if_pos hthirteen, if_pos hthirteen'] at ht
    obtain ⟨haddress, hvalue⟩ := brackets_inj (by simp [h]) (by simp [h']) ht
    exact hjoin (hthirteen.trans hthirteen'.symm) haddress hvalue
  rw [if_neg hthirteen, if_neg (mt hsame.2.mpr hthirteen)] at ht
  -- all others are shown with their octets
  by_cases hrest : ipv6Kind (fromBeBytes (ec'.take 2)) = 2
  · have hrange := hunknown.mp hrest
    have hrange' := hunknown'.mp hrest
    rw [if_pos (by omega), if_pos (by omega)] at ht
    exact hexEncode_injective ((String.append_right_inj _).mp ht)
  · have hrange := mt hunknown.mpr hrest
    have hrange' := mt hunknown'.mpr hrest
    have htwelve' := mt hsame.1.mpr htwelve
    have hthirteen' := mt hsame.2.mpr hthirteen
    rw [if_neg (by omega), if_neg (by omega)] at ht
    exact hexEncode_injective ((String.append_right_inj _).mp ht)

/-! ### Values -/

/-- Lists are told by their images, when their elements are. -/
theorem map_inj_of_mem {α β : Type} {f : α → β} {l l' : List α}
    (hf : ∀ x ∈ l, ∀ y ∈ l', f x = f y → x = y) (h : l.map f = l'.map f) : l = l' := by
  induction l generalizing l' with
  | nil => exact (List.map_eq_nil_iff.mp h.symm).symm
  | cons x l ih =>
    cases l' with
    | nil => cases h
    | cons y l' =>
      rw [List.map_cons, List.map_cons] at h
      obtain ⟨hxy, hrest⟩ := List.cons.inj h
      rw [hf x List.mem_cons_self y List.mem_cons_self hxy,
        ih (fun x hx y hy => hf x (List.mem_cons_of_mem _ hx) y (List.mem_cons_of_mem _ hy)) hrest]

/-- Data that is shown chunk by chunk. -/
theorem chunks_inj {size : ℕ} (hsize : 0 < size) {f : Bytes → String}
    (hf : ∀ c c' : Bytes, c.length = size → c'.length = size → f c = f c' → c = c')
    {data data' : Bytes} (h : data.length % size = 0) (h' : data'.length % size = 0)
    (ht : texts ((chunksExact size data).map f) = texts ((chunksExact size data').map f)) :
    data = data' := by
  have hchunks := map_inj_of_mem (fun c hc c' hc' => hf c c' (length_of_mem_chunksExact hc)
    (length_of_mem_chunksExact hc')) (texts_inj ht)
  have hwhole : ∀ {data : Bytes}, data.length % size = 0 →
      (chunksExact size data).flatten = data := fun {data} h =>
    flatten_chunksExact hsize (n := data.length / size)
      (Nat.div_mul_cancel (Nat.dvd_of_mod_eq_zero h)).symm
  rw [← hwhole h, hchunks, hwhole h']

/-- A guarded value is the value, and the guard holds. -/
theorem guarded_ok {p : Prop} [Decidable p] {e : String} {value v : Json}
    (h : (if decide p = true then Except.ok value else Except.error e) = .ok v) :
    p ∧ value = v := by
  split_ifs at h with hp
  · exact ⟨of_decide_eq_true hp, Except.ok.inj h⟩

/-- The codes of attributes that are shown without a part of them. -/
def Shortened (code : UInt8) : Prop := code = 14 ∨ code = 15 ∨ code = 16

/-- A path is told by its value, at the width that it was read with. -/
theorem path_inj {code : UInt8} {data data' : Bytes} {asnLen : ℕ}
    (hwidth : asnLen = 2 ∨ asnLen = 4) (hcode : code = 2 ∨ code = 17) {v : Json}
    (h : attributeValue code data asnLen = .ok v)
    (h' : attributeValue code data' asnLen = .ok v) : data = data' := by
  -- the flags of an attribute do not count
  let a : RawAttr := ⟨0, code, data⟩
  let a' : RawAttr := ⟨0, code, data'⟩
  obtain htwo | hseventeen := hcode
  · exact @attributeValue_path_inj asnLen a a' asnLen rfl (.inl ⟨htwo, rfl⟩)
      (by omega) (by omega) _ h h'
  · exact @attributeValue_path_inj 4 a a' asnLen rfl (.inr ⟨hseventeen, rfl⟩)
      (by omega) (by omega) _ h h'

/-- Octets that are shown chunk by chunk are told by it, when the chunks are. -/
theorem chunked_inj {size : ℕ} (hsize : 0 < size) {f : Bytes → String}
    (hf : ∀ c c' : Bytes, c.length = size → c'.length = size → f c = f c' → c = c')
    {data data' : Bytes} {e : String} {v : Json}
    (h : (if decide (data.length % size = 0) = true then
      Except.ok (texts ((chunksExact size data).map f)) else .error e) = .ok v)
    (h' : (if decide (data'.length % size = 0) = true then
      Except.ok (texts ((chunksExact size data').map f)) else .error e) = .ok v) :
    data = data' := by
  obtain ⟨hlen, rfl⟩ := guarded_ok h
  obtain ⟨hlen', ht⟩ := guarded_ok h'
  exact chunks_inj hsize hf hlen hlen' ht.symm

theorem address_inj {data data' : Bytes} {e : String} {v : Json}
    (h : (if decide (data.length = 4) = true then
      Except.ok (Json.str (nextHopString data)) else .error e) = .ok v)
    (h' : (if decide (data'.length = 4) = true then
      Except.ok (Json.str (nextHopString data')) else .error e) = .ok v) : data = data' := by
  obtain ⟨hlen, rfl⟩ := guarded_ok h
  obtain ⟨hlen', ht⟩ := guarded_ok h'
  exact nextHopString_four_inj hlen hlen' (Json.str.inj ht).symm

/-- Four octets are told by their number. -/
theorem number_inj {data data' : Bytes} {e : String} {v : Json}
    (h : (if decide (data.length = 4) = true then
      Except.ok (Json.num (readBeInt data)) else .error e) = .ok v)
    (h' : (if decide (data'.length = 4) = true then
      Except.ok (Json.num (readBeInt data')) else .error e) = .ok v) : data = data' := by
  obtain ⟨hlen, rfl⟩ := guarded_ok h
  obtain ⟨hlen', ht⟩ := guarded_ok h'
  exact readBeInt_inj (hlen.trans hlen'.symm) (by omega) (Json.num.inj ht).symm

/-- The AS number and the address of an aggregator. -/
theorem aggregator_inj {data data' : Bytes} {e : String} {n : ℕ} (hn : n = 6 ∨ n = 8) {v : Json}
    (h : (if decide (data.length = n) = true then
      Except.ok (Json.object [("asn", .num (readBeInt (data.take (data.length - 4)))),
        ("router_id", .str (nextHopString (data.drop (data.length - 4))))])
      else .error e) = .ok v)
    (h' : (if decide (data'.length = n) = true then
      Except.ok (Json.object [("asn", .num (readBeInt (data'.take (data'.length - 4)))),
        ("router_id", .str (nextHopString (data'.drop (data'.length - 4))))])
      else .error e) = .ok v) : data = data' := by
  obtain ⟨hlen, rfl⟩ := guarded_ok h
  obtain ⟨hlen', ht⟩ := guarded_ok h'
  have hasn := congrArg (fun v => v.index "asn") ht
  have hrouter := congrArg (fun v => v.index "router_id") ht
  simp only [Json.index, Json.get_object, List.reverse_cons, List.reverse_nil, List.nil_append,
    List.cons_append, Entries.find_cons] at hasn hrouter
  simp only [String.reduceEq, if_true, if_false, Option.getD_some, Json.num.injEq,
    Json.str.injEq] at hasn hrouter
  -- both have the one length that their width allows
  have hsame : data'.length = data.length := hlen'.trans hlen.symm
  rw [hsame] at hasn hrouter
  rw [← List.take_append_drop (data.length - 4) data,
    ← List.take_append_drop (data.length - 4) data',
    readBeInt_inj (by simp [hsame]) (by simp; omega) hasn,
    nextHopString_four_inj (by simp; omega) (by simp; omega) hrouter]

/-- **The value of an attribute tells its octets.** -/
theorem attributeValue_inj {code : UInt8} {data data' : Bytes} {asnLen : ℕ}
    (hwidth : asnLen = 2 ∨ asnLen = 4) (hcode : ¬ Shortened code) {v : Json}
    (h : attributeValue code data asnLen = .ok v)
    (h' : attributeValue code data' asnLen = .ok v) : data = data' := by
  by_cases hpath : code = 2 ∨ code = 17
  · exact path_inj hwidth hpath h h'
  unfold attributeValue at h h'
  dsimp only at h h'
  split at h
  · -- ORIGIN
    obtain ⟨hlen, rfl⟩ := guarded_ok h
    obtain ⟨hlen', ht⟩ := guarded_ok h'
    obtain ⟨b, rfl⟩ := List.length_eq_one_iff.mp hlen
    obtain ⟨b', rfl⟩ := List.length_eq_one_iff.mp hlen'
    rw [show b = b' from originText_injective (Json.str.inj ht).symm]
  · exact absurd (Or.inl rfl) hpath
  · exact absurd (Or.inr rfl) hpath
  · exact address_inj h h'
  · exact address_inj h h'
  · exact number_inj h h'
  · exact number_inj h h'
  · -- ATOMIC_AGGREGATE
    obtain ⟨hlen, -⟩ := guarded_ok h
    obtain ⟨hlen', -⟩ := guarded_ok h'
    rw [List.length_eq_zero_iff.mp hlen, List.length_eq_zero_iff.mp hlen']
  · exact aggregator_inj (by decide) h h'
  · exact aggregator_inj (by decide) h h'
  · exact chunked_inj (by decide) (fun _ _ => communityText_inj) h h'
  · exact chunked_inj (by decide) (fun _ _ => nextHopString_four_inj) h h'
  · exact absurd (Or.inl rfl) hcode
  · exact absurd (Or.inr (Or.inl rfl)) hcode
  · exact absurd (Or.inr (Or.inr rfl)) hcode
  · exact chunked_inj (by decide) (fun _ _ => ipv6ExtCommunity_inj) h h'
  · exact chunked_inj (by decide) (fun _ _ => largeCommunityText_inj) h h'
  · cases h

/-! ### Records -/

/-- What two attributes have in common whose records are equal. -/
structure RawAttr.SameReport (asnLen : ℕ) (a a' : RawAttr) : Prop where
  code : a.code = a'.code
  length : a.data.length = a'.data.length
  /-- The four flags that the protocol defines. -/
  flags : ∀ flag : UInt8, flag ∈ [128, 64, 32, 16] →
    (a.flags &&& flag ≠ 0 ↔ a'.flags &&& flag ≠ 0)
  /-- The octets, if the attribute is shown as a whole or does not decode. -/
  data : (Shortened a.code → ∃ e, attributeValue a.code a.data asnLen = .error e) →
    a.data = a'.data

/-- The members of a record that the pass over the actions does not touch. -/
theorem get_replaceAttr_of_ne {asnLen : ℕ} {a : RawAttr} {hop key : String} (h : key ≠ "value") :
    (replaceAttr hop (attrRecord asnLen a)).get key = (attrRecord asnLen a).get key := by
  by_cases hcode : a.code = 16
  · by_cases hlen : a.data.length % 8 = 0
    · obtain ⟨fields, hfields⟩ := attrRecord_eq_obj asnLen a
      rw [replaceAttr_communities hcode hlen, hfields, Json.get_set_obj, if_neg h]
    · rw [get_replaceAttr_malformed hcode hlen, if_neg h]
  · rw [replaceAttr_of_ne hcode]

/-- Of a record only the value is written again. -/
theorem RawUpdate.get_replaced_of_ne (r : RawUpdate) {asnLen : ℕ} {a : RawAttr} {key : String}
    (h : key ≠ "value") : (r.replaced replaceAttr (attrRecord asnLen a)).get key
      = (attrRecord asnLen a).get key := by
  unfold RawUpdate.replaced
  split_ifs
  · rfl
  · exact get_replaceAttr_of_ne h

/-- Only the records of communities are written again. -/
theorem RawUpdate.replaced_of_ne (r : RawUpdate) {asnLen : ℕ} {a : RawAttr} (h : a.code ≠ 16) :
    r.replaced replaceAttr (attrRecord asnLen a) = attrRecord asnLen a := by
  unfold RawUpdate.replaced
  split_ifs
  · rfl
  · exact replaceAttr_of_ne h _

/-- The members of a record. -/
theorem get_attrRecord (asnLen : ℕ) (a : RawAttr) :
    (attrRecord asnLen a).get "code" = some (.num a.code.toNat) ∧
    (attrRecord asnLen a).get "length" = some (.num a.data.length) ∧
    (attrRecord asnLen a).get "flags" = some (.object [("optional", .bool (a.flags &&& 128 ≠ 0)),
      ("transitive", .bool (a.flags &&& 64 ≠ 0)), ("partial", .bool (a.flags &&& 32 ≠ 0)),
      ("extended_length", .bool (a.flags &&& 16 ≠ 0))]) ∧
    (attrRecord asnLen a).get "raw" = (match attributeValue a.code a.data asnLen with
      | .ok _ => none
      | .error _ => some (.str (hexEncode a.data))) ∧
    (attrRecord asnLen a).get "value" = (attributeValue a.code a.data asnLen).toOption := by
  unfold attrRecord
  cases attributeValue a.code a.data asnLen <;> simp [Entries.find_cons, Except.toOption]

/-- The four flags are told by their truth values. -/
theorem flags_told {flags flags' : UInt8}
    (h : Json.object [("optional", .bool (flags &&& 128 ≠ 0)),
        ("transitive", .bool (flags &&& 64 ≠ 0)), ("partial", .bool (flags &&& 32 ≠ 0)),
        ("extended_length", .bool (flags &&& 16 ≠ 0))]
      = Json.object [("optional", .bool (flags' &&& 128 ≠ 0)),
        ("transitive", .bool (flags' &&& 64 ≠ 0)), ("partial", .bool (flags' &&& 32 ≠ 0)),
        ("extended_length", .bool (flags' &&& 16 ≠ 0))]) :
    ∀ flag : UInt8, flag ∈ [128, 64, 32, 16] → (flags &&& flag ≠ 0 ↔ flags' &&& flag ≠ 0) := by
  have hget := fun key => congrArg (Json.get key) h
  have h₁ := hget "optional"
  have h₂ := hget "transitive"
  have h₃ := hget "partial"
  have h₄ := hget "extended_length"
  simp [Entries.find_cons] at h₁ h₂ h₃ h₄
  simp [h₁, h₂, h₃, h₄]

/-- **Equal records tell alike attributes**, whatever the next hops of the two messages. -/
theorem record_told {asnLen : ℕ} (hwidth : asnLen = 2 ∨ asnLen = 4) {r r' : RawUpdate}
    {a a' : RawAttr} (h : r.replaced replaceAttr (attrRecord asnLen a)
      = r'.replaced replaceAttr (attrRecord asnLen a')) : a.SameReport asnLen a' := by
  -- everything but the value is reported as it was decoded
  have hget : ∀ key, key ≠ "value" →
      (attrRecord asnLen a).get key = (attrRecord asnLen a').get key := fun key hkey => by
    rw [← r.get_replaced_of_ne hkey, h, r'.get_replaced_of_ne hkey]
  obtain ⟨hcode, hlen, hflags, hraw, hvalue⟩ := get_attrRecord asnLen a
  obtain ⟨hcode', hlen', hflags', hraw', hvalue'⟩ := get_attrRecord asnLen a'
  have hc := hget "code" (by decide)
  have hl := hget "length" (by decide)
  have hf := hget "flags" (by decide)
  have hr := hget "raw" (by decide)
  rw [hcode, hcode', Option.some.injEq, Json.num.injEq, UInt8.toNat_inj] at hc
  rw [hlen, hlen', Option.some.injEq, Json.num.injEq] at hl
  rw [hflags, hflags', Option.some.injEq] at hf
  rw [hraw, hraw'] at hr
  refine ⟨hc, hl, flags_told hf, fun hshort => ?_⟩
  cases hv : attributeValue a.code a.data asnLen with
  | error e =>
    -- octets that do not decode are shown as they are
    cases hv' : attributeValue a'.code a'.data asnLen with
    | error e' =>
      rw [hv, hv'] at hr
      exact hexEncode_injective (Json.str.inj (Option.some.inj hr))
    | ok v' =>
      rw [hv, hv'] at hr
      cases hr
  | ok v =>
    -- a value that is shown in short does not decode
    have hwhole : ¬ Shortened a.code := fun hs => by
      obtain ⟨e, he⟩ := hshort hs
      rw [hv] at he
      cases he
    have hne : a.code ≠ 16 := fun he => hwhole (Or.inr (Or.inr he))
    rw [r.replaced_of_ne hne, r'.replaced_of_ne (hc ▸ hne)] at h
    rw [h, hvalue', hv] at hvalue
    cases hv' : attributeValue a'.code a'.data asnLen with
    | error e' =>
      rw [hv'] at hvalue
      cases hvalue
    | ok v' =>
      rw [hv'] at hvalue
      obtain rfl := Option.some.inj hvalue
      rw [← hc] at hv'
      exact attributeValue_inj hwidth hwhole hv hv'

/-! ### The message -/

/-- Two lists with one image are related element by element. -/
theorem forall₂_of_map_eq {α β : Type} {R : α → α → Prop} {f g : α → β}
    (hR : ∀ a a', f a = g a' → R a a') {l l' : List α} (h : l.map f = l'.map g) :
    List.Forall₂ R l l' := by
  have heq := List.forall₂_eq_eq_eq (α := β) ▸ h
  rw [List.forall₂_map_left_iff, List.forall₂_map_right_iff] at heq
  exact heq.imp hR

/-- An accepted body was read at a width of two or of four octets. -/
theorem asnLen_of_update {body : Bytes} {asnLen : ℕ} {u : Json}
    (h : update body asnLen = .ok u) : asnLen = 2 ∨ asnLen = 4 := by
  unfold update at h
  cases hp : parseUpdate body asnLen with
  | error e =>
    rw [hp] at h
    cases h
  | ok acc => exact (parseUpdate_ok_iff.mp hp).1

/-- **The report of an UPDATE tells its attributes**: two messages whose records are the same
have as many attributes, and they are alike one by one. -/
theorem update_told {body body' : Bytes} {asnLen : ℕ} {u u' : Json}
    (h : update body asnLen = .ok u) (h' : update body' asnLen = .ok u')
    (hsame : u.index "path_attributes" = u'.index "path_attributes") :
    ∃ r r' : RawUpdate, r.Enc body ∧ r'.Enc body' ∧
      List.Forall₂ (RawAttr.SameReport asnLen) r.attrs r'.attrs := by
  obtain ⟨r, henc, hreports⟩ := update_attributes h
  obtain ⟨r', henc', hreports'⟩ := update_attributes h'
  rw [hreports.attributes, hreports'.attributes] at hsame
  exact ⟨r, r', henc, henc',
    forall₂_of_map_eq (fun _ _ => record_told (asnLen_of_update h)) (Json.arr.inj hsame)⟩

/-- An UPDATE with an ORIGIN, twice: a flag that the protocol does not define is not told. -/
theorem update_told_origin : ∃ r r' : RawUpdate, r.Enc [0, 0, 0, 4, 0x40, 1, 1, 0] ∧
    r'.Enc [0, 0, 0, 4, 0x41, 1, 1, 0] ∧
    List.Forall₂ (RawAttr.SameReport 2) r.attrs r'.attrs := by
  -- the two bodies differ in a flag bit that the report does not show
  have hsame : ((update [0, 0, 0, 4, 0x40, 1, 1, 0] 2).map (·.index "path_attributes")).toOption
      = ((update [0, 0, 0, 4, 0x41, 1, 1, 0] 2).map (·.index "path_attributes")).toOption := by
    decide
  have hisOk : (update [0, 0, 0, 4, 0x40, 1, 1, 0] 2).toOption.isSome = true ∧
      (update [0, 0, 0, 4, 0x41, 1, 1, 0] 2).toOption.isSome = true := by decide
  cases hu : update [0, 0, 0, 4, 0x40, 1, 1, 0] 2 with
  | error e =>
    rw [hu] at hisOk
    exact absurd hisOk.1 (by simp [Except.toOption])
  | ok u =>
    cases hu' : update [0, 0, 0, 4, 0x41, 1, 1, 0] 2 with
    | error e =>
      rw [hu'] at hisOk
      exact absurd hisOk.2 (by simp [Except.toOption])
    | ok u' =>
      rw [hu, hu'] at hsame
      exact update_told hu hu' (Option.some.inj hsame)

/-! Two communities that ask for the same mark. -/

example : parseExtCommunities [0x80, 9, 0, 0, 0, 0, 0, 0x41]
    = parseExtCommunities [0x80, 9, 0, 0, 0, 0, 0, 0x01] := by decide

end Wire
