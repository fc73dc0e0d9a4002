import BgpReceiver.Rib.AsPath

/-!
# The AS path that is stored, and the AS that is counted

An AS_PATH attribute has its segments in the octets of `Wire.segmentOctets`, and nothing
else is read from it. Without an AS4_PATH in the UPDATE, the AS numbers of its segments, one
after the other, are what is stored with every route that is announced.

The statistics count a unicast row under the last of them (`originAs`), so the counter of an
AS is the number of unicast rows with a path that ends in it (`origin_counted`).
-/

namespace Rib

open Data (metrics)
open Wire (RawAttr RawUpdate FitsWidth segmentOctets segmentJson)

/-! ### The origin of a row -/

/-- The AS that a row is counted under. -/
def originAs (row : Route) : Option String :=
  match row.family with
  | .unicast => row.asPath.getLast?.map Nat.repr
  | .flowspec => none

/-- A row is counted once under its origin, and under no other. -/
theorem count_metrics_origin (row : Route) (asn : String) :
    (metrics row).count ("origin_as", asn) = if originAs row = some asn then 1 else 0 := by
  have hother : ∀ {l : List String} {name : String}, name ≠ "origin_as" →
      (l.map fun s => (name, s)).count ("origin_as", asn) = 0 := by
    intro l name hname
    rw [List.count_eq_zero]
    intro hm
    obtain ⟨s, -, hs⟩ := List.mem_map.mp hm
    exact hname (Prod.mk.inj hs).1
  unfold metrics originAs
  cases row.family with
  | unicast =>
    -- of the four tables of a unicast row, one is that of the origins
    have hlengths : ((((row.pfx.bind fun s => Text.splitOnce s '/').toList).map fun p =>
        ("prefix_lengths", "/" ++ p.2))).count ("origin_as", asn) = 0 := by
      rw [List.count_eq_zero]
      intro hm
      obtain ⟨p, -, hp⟩ := List.mem_map.mp hm
      exact absurd (Prod.mk.inj hp).1 (by decide)
    simp only [List.count_append, hother (show "communities" ≠ "origin_as" by decide),
      hother (show "next_hops" ≠ "origin_as" by decide), hlengths, Nat.zero_add, Nat.add_zero]
    cases row.asPath.getLast? with
    | none => rfl
    | some last =>
      by_cases h : Nat.repr last = asn
      · simp [h]
      · simp [h]
  | flowspec =>
    rw [if_neg nofun, List.count_eq_zero]
    intro hm
    rcases List.mem_append.mp hm with hm | hm
    · obtain ⟨a, -, ha⟩ := List.mem_map.mp hm
      exact absurd (Prod.mk.inj ha).1 (by decide)
    · -- no table of the match is the table of the origins
      obtain ⟨t, ht, hm⟩ := List.mem_flatMap.mp hm
      obtain ⟨v, -, hv⟩ := List.mem_map.mp hm
      have hname : t.1 = "origin_as" := (Prod.mk.inj hv).1
      revert hname
      simp only [Data.matchTables, List.mem_cons, List.not_mem_nil, or_false] at ht
      rcases ht with rfl | rfl | rfl | rfl <;> decide

/-- **The counter of an AS** is the number of rows with that origin. -/
theorem origin_counted {d : Data} (h : Counted d) :
    ∃ table, d.analytics.find "origin_as" = some table ∧
      ∀ asn, (table.find asn).getD 0
        = d.routes.values.countP fun row => originAs row = some asn := by
  obtain ⟨table, ht⟩ := h.analytics.present "origin_as" (by decide)
  refine ⟨table, ht, fun asn => ?_⟩
  rw [h.analytics.total "origin_as" table ht asn]
  induction d.routes.values with
  | nil => rfl
  | cons row rows ih =>
    rw [List.flatMap_cons, List.count_append, ih, count_metrics_origin, List.countP_cons,
      Nat.add_comm]
    simp only [decide_eq_true_eq]

/-! ### The path of an UPDATE -/

/-- The segments of the AS_PATH of an UPDATE without AS4_PATH. The last attribute counts
when there is more than one. -/
structure PathOf (width : ℕ) (r : RawUpdate) (path : List (UInt8 × List ℕ)) : Prop where
  alone : ∀ a ∈ r.attrs, a.code ≠ 17
  last : ∃ before a after, r.attrs = before ++ a :: after ∧ a.code = 2 ∧
    (∀ b ∈ after, b.code ≠ 2) ∧ a.data = path.flatMap (segmentOctets width)
  fits : ∀ segment ∈ path, FitsWidth width segment

/-- Attributes with other codes leave the path of the loop alone. -/
theorem foldl_asnsOf_of_ne {code : UInt8} {asnLen : ℕ} {attrs : List RawAttr}
    (h : ∀ a ∈ attrs, a.code ≠ code) (asns : List ℕ) :
    attrs.foldl (fun asns a => (asnsOf code asnLen a).getD asns) asns = asns := by
  induction attrs with
  | nil => rfl
  | cons a attrs ih =>
    obtain ⟨ha, hattrs⟩ := List.forall_mem_cons.mp h
    rw [List.foldl_cons, asnsOf, if_neg ha]
    exact ih hattrs

/-- **The path that the routes of such an UPDATE share.** -/
theorem PathOf.mergePath_eq {asnLen : ℕ} (hasn : asnLen = 2 ∨ asnLen = 4) {r : RawUpdate}
    {path : List (UInt8 × List ℕ)} (h : PathOf asnLen r path) {u : Json}
    (hu : r.Reports asnLen u) : mergePath (attrAcc u) = path.flatMap Prod.snd := by
  obtain ⟨hpath, has4⟩ := attrAcc_path hasn hu
  obtain ⟨before, a, after, hattrs, hcode, hafter, hdata⟩ := h.last
  have hnone : (attrAcc u).as4 = [] := has4.trans (foldl_asnsOf_of_ne h.alone [])
  have hread : asnsOf 2 asnLen a = some (path.flatMap Prod.snd) := by
    rw [asnsOf, if_pos hcode, if_neg (by decide),
      (Wire.collect_pathSegment_iff (by omega) (by omega)).mpr ⟨h.fits, hdata⟩]
    rfl
  rw [mergePath, hnone, if_neg (not_not.mpr rfl), hpath, hattrs, lastAsns, List.foldl_append,
    List.foldl_cons, hread]
  exact foldl_asnsOf_of_ne hafter _

/-! ### From the octets to the counters -/

variable {digest : Bytes → Vector UInt8 20}

/-- **AS paths are decoded exactly, and stored and counted as they are decoded.** With two
or four octets for each AS number in AS_PATH, and four in AS4_PATH, every list of segments
is read back from its octets, and everything that is not the octets of such a list is
refused. Without AS4_PATH, every row of an announced route has the AS numbers of the
segments as its path, and the counter of an AS is the number of unicast rows with a path
that ends in it. -/
theorem asPath_exact {asnLen : ℕ} (hasn : asnLen = 2 ∨ asnLen = 4) :
    (∀ (a : RawAttr) (n width : ℕ),
      a.code = 2 ∧ n = asnLen ∧ width = asnLen ∨ a.code = 17 ∧ width = 4 →
      (∀ path : List (UInt8 × List ℕ), (∀ segment ∈ path, FitsWidth width segment) →
        a.data = path.flatMap (segmentOctets width) →
        Wire.attributeValue a.code a.data n = .ok (.arr (path.map segmentJson))) ∧
      ((∃ e, Wire.attributeValue a.code a.data n = .error e) ↔
        ¬ ∃ path : List (UInt8 × List ℕ), (∀ segment ∈ path, FitsWidth width segment) ∧
          a.data = path.flatMap (segmentOctets width))) ∧
    ∀ {d : Data}, sections.Reachable d → ∀ {body : Bytes} {u : Json},
      Wire.update body asnLen = .ok u → ∀ {r : RawUpdate}, r.Enc body →
        ∀ {path : List (UInt8 × List ℕ)}, PathOf asnLen r path → ∀ (o : Outside) (peer : String),
          ∃ d', applyUpdate digest o u peer d = some d' ∧
            (∀ id ∈ idsOf digest u peer .announce,
              (id ∉ idsOf digest u peer .withdraw → ∃ row, d'.byId id = some row) ∧
              ∀ row, d'.byId id = some row → row.asPath = path.flatMap Prod.snd) ∧
            ∃ table, d'.analytics.find "origin_as" = some table ∧ ∀ asn,
              (table.find asn).getD 0 = d'.routes.values.countP fun row =>
                row.family = .unicast ∧ row.asPath.getLast?.map Nat.repr = some asn := by
  refine ⟨fun a n width hcode => ?_, fun {d} h {body u} hu {r} henc {path} hpath o peer => ?_⟩
  · have hwidth : a.code = 2 ∧ width = n ∨ a.code = 17 ∧ width = 4 :=
      hcode.imp (fun h => ⟨h.1, h.2.2.trans h.2.1.symm⟩) id
    have hiff : ∀ v, _ := fun v =>
      @Wire.attributeValue_path_iff width a n hwidth (by omega) (by omega) v
    refine ⟨fun path hpath hdata => (hiff _).mpr ⟨path, hpath, hdata, rfl⟩, fun herror hex => ?_,
      fun hno => ?_⟩
    · obtain ⟨e, he⟩ := herror
      obtain ⟨path, hpath, hdata⟩ := hex
      rw [(hiff _).mpr ⟨path, hpath, hdata, rfl⟩] at he
      cases he
    · cases hv : Wire.attributeValue a.code a.data n with
      | error e => exact ⟨e, rfl⟩
      | ok v =>
        obtain ⟨path, hpath, hdata, -⟩ := (hiff v).mp hv
        exact absurd ⟨path, hpath, hdata⟩ hno
  · -- the attributes of the report are those of the octets, as `r` has them
    have hc := sections_consistent h
    obtain ⟨d', -, ha, -, hc'⟩ := applyUpdate_run digest o u peer hc
    obtain ⟨r', henc', hreports⟩ := Wire.update_attributes hu
    obtain rfl := henc'.unique henc
    have hmerge := hpath.mergePath_eq hasn hreports
    refine ⟨d', ha, fun id hid => ⟨fun hw => ?_, fun row hrow => ?_⟩, ?_⟩
    · obtain ⟨row, hrow, -⟩ := exists_row_asPath hc ha hid hw
      exact ⟨row, hrow⟩
    · rw [announced_asPath hc ha hid hrow, hmerge]
    · obtain ⟨table, ht, htotal⟩ := origin_counted hc'.counted
      refine ⟨table, ht, fun asn => (htotal asn).trans (List.countP_congr fun row _ => ?_)⟩
      unfold originAs
      cases row.family <;> simp

/-- An UPDATE that announces 10.2.0.0/16 with an AS_SET of no AS number and an AS_SEQUENCE of
two. -/
def pathUpdate : RawUpdate where
  withdrawn := []
  attrs := [⟨0x40, 2, [1, 0, 2, 2, 0xFD, 0xE9, 0xFD, 0xEA]⟩]
  nlri := [16, 10, 2]

/-- Its route has both. -/
theorem asPath_exact_pathUpdate :
    ∃ u d', Wire.update pathUpdate.octets 2 = .ok u ∧
      applyUpdate cancelDigest sampleOutside u samplePeer (Data.new none) = some d' ∧
      ∀ id ∈ idsOf cancelDigest u samplePeer .announce, ∀ row, d'.byId id = some row →
        row.asPath = [65001, 65002] := by
  have hu := @updateOf_ok pathUpdate.octets 2 (by decide)
  have hpath : PathOf 2 pathUpdate [(1, []), (2, [65001, 65002])] :=
    ⟨by decide, ⟨[], _, [], rfl, rfl, by decide, rfl⟩, by
      simp only [List.forall_mem_cons, FitsWidth]
      decide⟩
  obtain ⟨d', ha, hrows, -⟩ := (@asPath_exact cancelDigest 2 (Or.inl rfl)).2
    (.init ⟨none, rfl⟩) hu (Wire.RawUpdate.enc_octets (by decide)) hpath sampleOutside samplePeer
  exact ⟨_, d', hu, ha, fun id hid => (hrows id hid).2⟩

end Rib
