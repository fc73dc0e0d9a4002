import BgpReceiver.Rib.Refinement
import BgpReceiver.Wire.Rules

/-!
# FlowSpec rules in the store

A FlowSpec route is identified by its decoded rule, so two rules share a row as soon as
they are decoded to the same object. `Untouched` says that no announcement or withdrawal
of one rule touches the row of another. For two different rules that is so exactly when
they are decoded differently, which is when they do not agree in everything that the
report shows (`flowspec_untouched_iff`).
-/

namespace Rib

open Wire (SameRule SameUnshown)

variable {digest : Bytes → Vector UInt8 20} {peer : String}

/-- Taking the rule `v` through the store leaves the row of the rule `v'` as it is. -/
def Untouched (digest : Bytes → Vector UInt8 20) (peer label : String) (v v' : Json) : Prop :=
  ∀ d op instant d' existed, sections.Reachable d →
    op.entry.id = routeId digest peer (keyOf label v) →
    d.applyRoute op instant = some (d', existed) →
    d'.byId (routeId digest peer (keyOf label v')) = d.byId (routeId digest peer (keyOf label v'))

/-- Rules with two ids do not touch each other. -/
theorem untouched_of_ne {label : String} {v v' : Json}
    (h : routeId digest peer (keyOf label v) ≠ routeId digest peer (keyOf label v')) :
    Untouched digest peer label v v' := by
  intro d op instant d' existed hd hid ha
  rw [byId_applyRoute (sections_consistent hd) ha]
  refine Function.update_of_ne ?_ _ _
  change _ ≠ op.entry.id
  rw [hid]
  exact h.symm

/-- A rule that is announced is touched by its own withdrawal. -/
theorem not_untouched_self (label : String) (v : Json) : ¬ Untouched digest peer label v v := by
  intro h
  have hnew : sections.Reachable (Data.new none) := .init ⟨none, rfl⟩
  have hid : ∀ kind, (routeOp digest .null peer kind label v "").entry.id
      = routeId digest peer (keyOf label v) := fun kind => entryOf_id _ _ _ _ _
  -- the route is announced on an empty store, and withdrawn from there
  obtain ⟨d₁, existed₁, h₁, hc₁⟩ := applyRoute_consistent (sections_consistent hnew)
    (routeOp digest .null peer .announce label v "") 0
  have hd₁ : sections.Reachable d₁ := hnew.step (l := .route _ 0)
    (show (Section.route _ 0).run (Data.new none) = some d₁ by rw [Section.run, h₁]; rfl)
  obtain ⟨d₂, existed₂, h₂, -⟩ := applyRoute_consistent hc₁
    (routeOp digest .null peer .withdraw label v "") 0
  -- the row of the announcement goes with the withdrawal
  have hrow := byId_applyRoute (sections_consistent hnew) h₁
  have hgone := byId_applyRoute hc₁ h₂
  have hsame := h d₁ _ 0 d₂ existed₂ hd₁ (hid .withdraw) h₂
  rw [hgone, hrow] at hsame
  simp only [RouteOp.write, hid, Function.update_self] at hsame
  exact absurd hsame (by simp [routeOp])

/-- Rules are told apart by what they are decoded to. -/
theorem flowspec_routeId_iff {label : String} (hl : familyOf label = .flowspec) {v v' : Json}
    (hinj : Set.InjOn (shortId digest)
      {Key.canonical peer (keyOf label v), Key.canonical peer (keyOf label v')}) :
    routeId digest peer (keyOf label v) = routeId digest peer (keyOf label v') ↔ v = v' := by
  constructor
  · intro h
    have hkey := Key.canonical_injective peer (hinj (by simp) (by simp) h)
    rw [keyOf_flowspec hl, keyOf_flowspec hl] at hkey
    exact (Key.flowspec.inj hkey).2
  · rintro rfl
    rfl

/-- The label of a FlowSpec family is taken for one. -/
theorem familyOf_flowspec {f : Wire.Family} (hf : f.safi = 133) : familyOf f.label = .flowspec := by
  cases f with
  | ipv4Unicast | ipv6Unicast => exact absurd hf (by decide)
  | ipv4Flowspec | ipv6Flowspec => decide +kernel

/-- **When distinct rules are not merged.** Of two accepted rules with equal results, and
so for the rows of different rules, everything turns on what the report leaves out. -/
theorem flowspec_untouched_iff {f : Wire.Family} (hf : f.safi = 133) {n n' : Bytes} {v v' : Json}
    (h : Wire.components n f.afi = .ok v) (h' : Wire.components n' f.afi = .ok v')
    (hinj : Set.InjOn (shortId digest)
      {Key.canonical peer (keyOf f.label v), Key.canonical peer (keyOf f.label v')}) :
    ∃ cs cs', Wire.rawRule n f.afi = .ok cs ∧ Wire.rawRule n' f.afi = .ok cs' ∧
      ((v = v' → SameRule cs cs') ↔ (v = v' → SameUnshown cs cs')) ∧
      ((¬ SameRule cs cs' → Untouched digest peer f.label v v') ↔
        (v = v' → SameUnshown cs cs')) := by
  have hafi : f.afi = 1 ∨ f.afi = 2 := by cases f <;> simp [Wire.Family.afi]
  have hid := flowspec_routeId_iff (familyOf_flowspec hf) hinj
  -- two match objects are equal or not, and their ids with them
  by_cases hv : v = v'
  · subst hv
    obtain ⟨cs, cs', hcs, hcs', hsame⟩ := Wire.sameRule_iff_sameUnshown hafi h h'
    refine ⟨cs, cs', hcs, hcs', by rw [hsame], ?_⟩
    rw [← hsame]
    -- the ids of equal objects are equal, so a rule touches itself
    constructor
    · intro hu _
      by_contra hne
      exact not_untouched_self f.label v (hu hne)
    · intro hs hne
      exact absurd (hs rfl) hne
  · obtain ⟨cs, hcs, -⟩ := (Wire.components_ok_iff_rawRule hafi).mp h
    obtain ⟨cs', hcs', -⟩ := (Wire.components_ok_iff_rawRule hafi).mp h'
    exact ⟨cs, cs', hcs, hcs', iff_of_true (absurd · hv) (absurd · hv),
      iff_of_true (fun _ => untouched_of_ne (mt hid.mp hv)) (absurd · hv)⟩

/-! Two rules that differ in the AND bit of a term. -/

/-- The destination port is 80 or 443. -/
def orRule : Bytes := [5, 0x01, 80, 0x91, 1, 0xbb]

/-- The destination port is 80 and 443. -/
def andRule : Bytes := [5, 0x01, 80, 0xd1, 1, 0xbb]

/-- Two comparisons of the port, the one behind the other or both at once: the object is the
same. -/
def portsJson : Json := .object [("dst-port", .arr [.str "=80", .str "=443"])]

/-- SHA-1 on the text of the one key. -/
def portsDigest (_ : Bytes) : Vector UInt8 20 :=
  #v[0x78, 0x85, 0xde, 0x08, 0xb7, 0xa4, 0x88, 0xa7, 0x6b, 0x3b, 0xf2, 0x91, 0xe0, 0xe1,
    0x95, 0x8d, 0x2f, 0xa8, 0x4b, 0x91]

/-- It holds of these two. -/
theorem flowspec_untouched_iff_ports :
    ∃ cs cs', Wire.rawRule orRule 1 = .ok cs ∧ Wire.rawRule andRule 1 = .ok cs' ∧
      ((portsJson = portsJson → SameRule cs cs') ↔ (portsJson = portsJson → SameUnshown cs cs')) ∧
      ((¬ SameRule cs cs' → Untouched portsDigest samplePeer "ipv4-flowspec" portsJson portsJson) ↔
        (portsJson = portsJson → SameUnshown cs cs')) :=
  @flowspec_untouched_iff portsDigest samplePeer .ipv4Flowspec rfl orRule andRule portsJson
    portsJson (by decide) (by decide +kernel) (by simp)

/-- The rules have equal results, and the AND bit is lost. -/
theorem orRule_merged :
    ∃ cs cs', Wire.components orRule 1 = .ok portsJson ∧ Wire.components andRule 1 = .ok portsJson ∧
      Wire.rawRule orRule 1 = .ok cs ∧ Wire.rawRule andRule 1 = .ok cs' ∧ ¬ SameRule cs cs' ∧
      ¬ Untouched portsDigest samplePeer "ipv4-flowspec" portsJson portsJson := by
  refine ⟨[⟨5, .terms [⟨0x01, [80]⟩, ⟨0x91, [1, 0xbb]⟩]⟩],
    [⟨5, .terms [⟨0x01, [80]⟩, ⟨0xd1, [1, 0xbb]⟩]⟩], by decide, by decide +kernel,
    by decide, by decide +kernel, fun h => absurd (h 5) (by decide), not_untouched_self _ _⟩

end Rib
