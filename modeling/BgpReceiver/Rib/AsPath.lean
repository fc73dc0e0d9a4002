import BgpReceiver.Rib.Cancellation
import BgpReceiver.Wire.Path

/-!
# The AS path of a route

`apply_update` makes one AS path of the attributes AS_PATH and AS4_PATH and stores it with
every route of the update. It reads them from the records that `update` reports, and the
last attribute of a code that decodes is the one that counts (`attrAcc_path`).

A path with four octets for each AS number takes the place of the end of the other one
(`mergePath`). When it is the longer of the two it takes the place of all of it, and the
path that is stored is not as long as the one that has been received
(`storedPath_iff`).
-/

namespace Rib

open Wire (RawAttr RawUpdate)

/-! ### The records of the two attributes -/

/-- The AS numbers in an attribute with the given code, if it decodes. -/
def asnsOf (code : UInt8) (asnLen : ℕ) (a : RawAttr) : Option (List ℕ) :=
  if a.code = code then
    (Reader.collect (Wire.pathSegment (if code = 17 then 4 else asnLen)) a.data).toOption.map
      fun path => path.flatMap Prod.snd
  else none

/-- The AS numbers in the last such attribute. -/
def lastAsns (code : UInt8) (asnLen : ℕ) (attrs : List RawAttr) : List ℕ :=
  attrs.foldl (fun asns a => (asnsOf code asnLen a).getD asns) []

/-- AS numbers have four octets at most. -/
theorem asn_lt {width : ℕ} (hpos : 0 < width) (hw : width ≤ 4) {data : Bytes}
    {path : List (UInt8 × List ℕ)}
    (h : Reader.collect (Wire.pathSegment width) data = .ok path) :
    ∀ n ∈ path.flatMap Prod.snd, n < 2 ^ 32 := by
  obtain ⟨hpath, -⟩ := (Wire.collect_pathSegment_iff hpos (by omega)).mp h
  intro n hn
  obtain ⟨segment, hsegment, hn⟩ := List.mem_flatMap.mp hn
  calc n < 256 ^ width := (hpath segment hsegment).2 n hn
    _ ≤ 256 ^ 4 := Nat.pow_le_pow_right (by decide) hw
    _ = 2 ^ 32 := by norm_num

/-- Reading the AS numbers back from the segments as they are shown. -/
theorem flatAsns_segments {path : List (UInt8 × List ℕ)}
    (h : ∀ n ∈ path.flatMap Prod.snd, n < 2 ^ 32) :
    flatAsns (path.map Wire.segmentJson) = path.flatMap Prod.snd := by
  have hasns : (path.map Wire.segmentJson).flatMap (fun s => (s.index "asns").asArray.getD [])
      = (path.flatMap Prod.snd).map Json.num := by
    rw [List.flatMap_map, List.map_flatMap]
    refine List.flatMap_congr fun segment _ => ?_
    simp [Wire.segmentJson, Json.index, Entries.find_cons]
  have hnums : ((path.flatMap Prod.snd).map Json.num).filterMap Json.asU64
      = path.flatMap Prod.snd := by
    rw [List.filterMap_map]
    exact List.filterMap_some
  rw [flatAsns, hasns, hnums]
  -- the numbers are cut to 32 bits, and they have no more
  calc (path.flatMap Prod.snd).map (fun n => n % 2 ^ 32)
      = (path.flatMap Prod.snd).map id :=
        List.map_congr_left fun n hn => Nat.mod_eq_of_lt (h n hn)
    _ = path.flatMap Prod.snd := List.map_id _

/-- The two attributes are found by their names. -/
theorem attrName_path {code : UInt8} : Wire.attrName code = "AS_PATH" ↔ code = 2 := by
  refine ⟨fun h => ?_, fun h => by rw [h]; rfl⟩
  unfold Wire.attrName at h
  split at h <;> first | rfl | exact absurd h (by decide) | skip
  -- the name of an unknown code has its number in it
  have hlist := congrArg String.toList h
  simp at hlist

/-- The name is that of code 17 and of no other. -/
theorem attrName_as4Path {code : UInt8} : Wire.attrName code = "AS4_PATH" ↔ code = 17 := by
  refine ⟨fun h => ?_, fun h => by rw [h]; rfl⟩
  unfold Wire.attrName at h
  split at h <;> first | rfl | exact absurd h (by decide) | skip
  have hlist := congrArg String.toList h
  simp at hlist

/-- The path that `apply_update` reads from the value of an attribute. -/
theorem flatAsns_value {a : RawAttr} (h : a.code = 2 ∨ a.code = 17) {asnLen : ℕ}
    (hasn : asnLen = 2 ∨ asnLen = 4) :
    ((Wire.attrRecord asnLen a).index "value").asArray.map flatAsns = asnsOf a.code asnLen a := by
  have hpos : 0 < if a.code = 17 then 4 else asnLen := by
    split_ifs <;> omega
  have hw : (if a.code = 17 then 4 else asnLen) ≤ 4 := by
    split_ifs <;> omega
  rw [Wire.index_value_attrRecord, Wire.attributeValue_path h, asnsOf, if_pos rfl]
  cases hp : Reader.collect (Wire.pathSegment (if a.code = 17 then 4 else asnLen)) a.data with
  | error e => rfl
  | ok path => exact congrArg some (flatAsns_segments (asn_lt hpos hw hp))

/-! ### The loop over the records -/

/-- A record with a path replaces the one of its name: the last one counts. -/
theorem attrStep_named {acc : AttrAcc} {record : Json} {name : String}
    (hname : record.index "name" = .str name) :
    (attrStep acc record).path
        = (if name = "AS_PATH" then ((record.index "value").asArray.map flatAsns).getD acc.path
          else acc.path) ∧
      (attrStep acc record).as4
        = if name = "AS4_PATH" then ((record.index "value").asArray.map flatAsns).getD acc.as4
          else acc.as4 := by
  unfold attrStep
  rw [hname, Json.asStr_str, Option.getD_some]
  cases (record.index "value").asArray with
  | none => simp
  | some values =>
    simp only
    -- the names that the loop looks for, and all others
    split
    · simp
    · simp
    · simp
    · simp
    · rename_i h₁ h₂ _ _
      exact ⟨(if_neg h₁).symm, (if_neg h₂).symm⟩

/-- The record of an attribute behind the pass over it. -/
abbrev recordOf (r : RawUpdate) (asnLen : ℕ) (a : RawAttr) : Json :=
  r.replaced Wire.replaceAttr (Wire.attrRecord asnLen a)

/-- A record has the name of its code, whatever becomes of its value. -/
theorem index_name_recordOf (r : RawUpdate) (asnLen : ℕ) (a : RawAttr) :
    (recordOf r asnLen a).index "name" = .str (Wire.attrName a.code) := by
  unfold recordOf RawUpdate.replaced
  split_ifs
  · exact Wire.index_name_attrRecord asnLen a
  · exact Wire.index_name_replaceAttr asnLen a _

/-- Only the extended communities are written again. -/
theorem recordOf_of_ne {r : RawUpdate} {asnLen : ℕ} {a : RawAttr} (h : a.code ≠ 16) :
    recordOf r asnLen a = Wire.attrRecord asnLen a := by
  unfold recordOf RawUpdate.replaced
  split_ifs
  · rfl
  · exact Wire.replaceAttr_of_ne h _

/-- What the loop takes from a record that it finds by its name. -/
theorem value_recordOf (r : RawUpdate) {asnLen : ℕ} (hasn : asnLen = 2 ∨ asnLen = 4) (a : RawAttr)
    {code : UInt8} (hcode : code = 2 ∨ code = 17) {name : String}
    (hname : ∀ c, Wire.attrName c = name ↔ c = code) (asns : List ℕ) :
    (if Wire.attrName a.code = name then
        (((recordOf r asnLen a).index "value").asArray.map flatAsns).getD asns else asns)
      = (asnsOf code asnLen a).getD asns := by
  by_cases h : a.code = code
  · -- the pass over the records is about extended communities only
    have hne : a.code ≠ 16 := by
      rw [h]
      rcases hcode with rfl | rfl <;> decide
    rw [if_pos ((hname _).mpr h), recordOf_of_ne hne, flatAsns_value (by rwa [h]) hasn, h]
  · rw [if_neg (mt (hname _).mp h), asnsOf, if_neg h, Option.getD_none]

/-- **One turn of the loop** takes the path of an attribute with one of the two codes. -/
theorem attrStep_recordOf (r : RawUpdate) {asnLen : ℕ} (hasn : asnLen = 2 ∨ asnLen = 4)
    (a : RawAttr) (acc : AttrAcc) :
    (attrStep acc (recordOf r asnLen a)).path = (asnsOf 2 asnLen a).getD acc.path ∧
      (attrStep acc (recordOf r asnLen a)).as4 = (asnsOf 17 asnLen a).getD acc.as4 := by
  obtain ⟨hpath, has4⟩ := @attrStep_named acc _ _ (index_name_recordOf r asnLen a)
  rw [hpath, has4]
  exact ⟨value_recordOf r hasn a (Or.inl rfl) (fun _ => attrName_path) acc.path,
    value_recordOf r hasn a (Or.inr rfl) (fun _ => attrName_as4Path) acc.as4⟩

/-- **The paths that an update is applied with.** -/
theorem attrAcc_path {r : RawUpdate} {asnLen : ℕ} (hasn : asnLen = 2 ∨ asnLen = 4) {u : Json}
    (h : r.Reports asnLen u) :
    (attrAcc u).path = lastAsns 2 asnLen r.attrs ∧
      (attrAcc u).as4 = lastAsns 17 asnLen r.attrs := by
  -- the two paths side by side, over any start of the loop
  have hfold : ∀ (attrs : List RawAttr) (acc : AttrAcc),
      ((attrs.map (recordOf r asnLen)).foldl attrStep acc).path
          = attrs.foldl (fun asns a => (asnsOf 2 asnLen a).getD asns) acc.path ∧
        ((attrs.map (recordOf r asnLen)).foldl attrStep acc).as4
          = attrs.foldl (fun asns a => (asnsOf 17 asnLen a).getD asns) acc.as4 := by
    intro attrs
    induction attrs with
    | nil => exact fun acc => ⟨rfl, rfl⟩
    | cons a attrs ih =>
      intro acc
      obtain ⟨hpath, has4⟩ := attrStep_recordOf r hasn a acc
      rw [List.map_cons, List.foldl_cons, List.foldl_cons, List.foldl_cons, ← hpath, ← has4]
      exact ih _
  unfold attrAcc
  rw [h.attributes, Json.asArray_arr, Option.getD_some]
  exact hfold r.attrs ⟨[], [], []⟩

/-! ### Merging -/

/-- The path that is to be stored: the received one, with its end replaced by the path with
four octets for each AS number, if that is not the longer one. -/
def reconstructed (path as4 : List ℕ) : List ℕ :=
  if as4 = [] ∨ path.length < as4.length then path
  else path.take (path.length - as4.length) ++ as4

/-- **When the stored path is the one to be stored.** -/
theorem mergePath_iff (path as4 : List ℕ) (communities : List String) :
    (mergePath ⟨path, as4, communities⟩ = reconstructed path as4 ∧
      (mergePath ⟨path, as4, communities⟩).length = path.length) ↔ as4.length ≤ path.length := by
  unfold mergePath reconstructed
  simp only
  by_cases hnil : as4 = []
  · subst hnil
    simp
  -- AS4_PATH comes last, and what is put before it is cut to what is left of the length
  rw [if_pos hnil]
  constructor
  · rintro ⟨-, hlen⟩
    rw [List.length_append, List.length_take] at hlen
    omega
  · intro hle
    refine ⟨(if_neg (not_or.mpr ⟨hnil, not_lt.mpr hle⟩)).symm, ?_⟩
    rw [List.length_append, List.length_take]
    omega

/-- The AS numbers of an attribute that there is at most one of, and that decodes to
AS_SEQUENCE segments. -/
def SequencePath (code : UInt8) (asnLen : ℕ) (r : RawUpdate) (asns : List ℕ) : Prop :=
  (r.attrs.filter (·.code = code) = [] ∧ asns = []) ∨
    ∃ a path, r.attrs.filter (·.code = code) = [a] ∧
      Reader.collect (Wire.pathSegment (if code = 17 then 4 else asnLen)) a.data = .ok path ∧
      (∀ segment ∈ path, segment.1 = 2) ∧ asns = path.flatMap Prod.snd

/-- Only the attributes of the code matter for its path. -/
theorem lastAsns_filter (code : UInt8) (asnLen : ℕ) (attrs : List RawAttr) :
    lastAsns code asnLen attrs = lastAsns code asnLen (attrs.filter (·.code = code)) := by
  unfold lastAsns
  generalize ([] : List ℕ) = asns
  -- an attribute with another code leaves the path of the loop as it is
  induction attrs generalizing asns with
  | nil => rfl
  | cons a attrs ih =>
    by_cases ha : a.code = code
    · rw [List.filter_cons_of_pos (by simpa using ha)]
      exact ih _
    · rw [List.filter_cons_of_neg (by simpa using ha), List.foldl_cons, asnsOf, if_neg ha]
      exact ih _

/-- A path that is one sequence gives its numbers. -/
theorem SequencePath.lastAsns_eq {code : UInt8} {asnLen : ℕ} {r : RawUpdate} {asns : List ℕ}
    (h : SequencePath code asnLen r asns) : lastAsns code asnLen r.attrs = asns := by
  rw [lastAsns_filter]
  rcases h with ⟨hnone, rfl⟩ | ⟨a, path, hone, hpath, -, rfl⟩
  · rw [hnone]
    rfl
  · have hcode : a.code = code := by
      have hmem : a ∈ r.attrs.filter (·.code = code) := by
        rw [hone]
        exact List.mem_singleton_self a
      exact of_decide_eq_true (List.mem_filter.mp hmem).2
    rw [hone, lastAsns, List.foldl_cons, List.foldl_nil, asnsOf, if_pos hcode, hpath]
    rfl

/-! ### The stored path -/

/-- A route has the path that its UPDATE has. -/
theorem entryOf_asPath (sh : Shared) (id receivedAt label : String) (route : Json) :
    (entryOf sh id receivedAt label route).asPath = sh.asPath := by
  unfold entryOf
  cases familyOf label <;> rfl

section

variable {digest : Bytes → Vector UInt8 20} {o : Outside} {u : Json} {peer : String}

/-- An announced id that is not withdrawn has a row with the path of the update. -/
theorem exists_row_asPath {d d' : Data} (h : Consistent d)
    (ha : applyUpdate digest o u peer d = some d') {id : String}
    (hid : id ∈ idsOf digest u peer .announce) (hw : id ∉ idsOf digest u peer .withdraw) :
    ∃ row, d'.byId id = some row ∧ row.asPath = mergePath (attrAcc u) := by
  obtain ⟨e, -, -, receivedAt, hrow⟩ := applyUpdate_kept h ha hid hw
  exact ⟨_, hrow, entryOf_asPath _ _ _ _ _⟩

/-- Any row of an announced id has it. -/
theorem announced_asPath {d d' : Data} (h : Consistent d)
    (ha : applyUpdate digest o u peer d = some d') {id : String}
    (hid : id ∈ idsOf digest u peer .announce) {row : Route} (hrow : d'.byId id = some row) :
    row.asPath = mergePath (attrAcc u) := by
  by_cases hw : id ∈ idsOf digest u peer .withdraw
  · rw [applyUpdate_withdrawn h ha hw] at hrow
    exact absurd hrow (by simp)
  · obtain ⟨row', hrow', hpath⟩ := exists_row_asPath h ha hid hw
    rw [hrow] at hrow'
    rw [Option.some.inj hrow', hpath]

/-- **When the stored path is the one that RFC 6793 asks for**: when the path with four
octets for each AS number is not the longer one. -/
theorem asPath_reconstructed_iff {d : Data} (h : sections.Reachable d) {body : Bytes}
    (hu : Wire.update body 2 = .ok u) (o : Outside) (peer : String) :
    ∃ r : RawUpdate, r.Enc body ∧ ∀ path as4, SequencePath 2 2 r path →
      SequencePath 17 2 r as4 → ∃ d', applyUpdate digest o u peer d = some d' ∧
        ∀ id ∈ idsOf digest u peer .announce,
          (id ∉ idsOf digest u peer .withdraw → ∃ row, d'.byId id = some row) ∧
          ∀ row, d'.byId id = some row →
            ((row.asPath = reconstructed path as4 ∧ row.asPath.length = path.length) ↔
              as4.length ≤ path.length) := by
  obtain ⟨r, henc, hreports⟩ := Wire.update_attributes hu
  refine ⟨r, henc, fun path as4 hpath has4 => ?_⟩
  have hc := sections_consistent h
  obtain ⟨d', -, ha, -⟩ := applyUpdate_run digest o u peer hc
  obtain ⟨hacc, hacc4⟩ := attrAcc_path (Or.inl rfl) hreports
  refine ⟨d', ha, fun id hid => ?_⟩
  refine ⟨fun hw => ?_, fun row hr => ?_⟩
  · obtain ⟨row, hr, -⟩ := exists_row_asPath hc ha hid hw
    exact ⟨row, hr⟩
  -- the path of the row is the merged one
  · have hmerge := mergePath_iff path as4 (attrAcc u).communities
    rw [← hpath.lastAsns_eq, ← has4.lastAsns_eq, ← hacc, ← hacc4] at hmerge ⊢
    rw [announced_asPath hc ha hid hr]
    exact hmerge

end

/-- An UPDATE that announces 10.2.0.0/16 with an AS_PATH of one AS number, and with the given
AS4_PATH. -/
def as4Update (as4 : Bytes) : RawUpdate where
  withdrawn := []
  attrs := [⟨0x40, 2, [2, 1, 0xFD, 0xE9]⟩, ⟨0xC0, 17, as4⟩]
  nlri := [16, 10, 2]

/-- It holds of an UPDATE with one AS number in both. -/
theorem asPath_reconstructed_iff_single :
    ∃ u, Wire.update (as4Update [2, 1, 0, 1, 0x11, 0x70]).octets 2 = .ok u ∧
      ∃ r : RawUpdate, r.Enc (as4Update [2, 1, 0, 1, 0x11, 0x70]).octets ∧
        ∀ path as4, SequencePath 2 2 r path → SequencePath 17 2 r as4 →
          ∃ d', applyUpdate cancelDigest sampleOutside u samplePeer (Data.new none) = some d' ∧
            ∀ id ∈ idsOf cancelDigest u samplePeer .announce,
              (id ∉ idsOf cancelDigest u samplePeer .withdraw → ∃ row, d'.byId id = some row) ∧
              ∀ row, d'.byId id = some row →
                ((row.asPath = reconstructed path as4 ∧ row.asPath.length = path.length) ↔
                  as4.length ≤ path.length) := by
  have hu := @updateOf_ok (as4Update [2, 1, 0, 1, 0x11, 0x70]).octets 2 (by decide)
  exact ⟨_, hu, asPath_reconstructed_iff (.init ⟨none, rfl⟩) hu sampleOutside samplePeer⟩

/-- An UPDATE with one AS number in AS_PATH and two in AS4_PATH. -/
def longAs4Update : RawUpdate := as4Update [2, 2, 0, 1, 0x11, 0x70, 0, 1, 0x11, 0x71]

/-- The two are stored. -/
theorem longAs4Update_not_reconstructed :
    ∃ u d' row, Wire.update longAs4Update.octets 2 = .ok u ∧
      longAs4Update.Enc longAs4Update.octets ∧ SequencePath 2 2 longAs4Update [65001] ∧
      SequencePath 17 2 longAs4Update [70000, 70001] ∧
      applyUpdate cancelDigest sampleOutside u samplePeer (Data.new none) = some d' ∧
      (∃ id ∈ idsOf cancelDigest u samplePeer .announce, d'.byId id = some row) ∧
      row.asPath ≠ reconstructed [65001] [70000, 70001] := by
  have hu := @updateOf_ok longAs4Update.octets 2 (by decide)
  have hpath : SequencePath 2 2 longAs4Update [65001] :=
    Or.inr ⟨_, [(2, [65001])], rfl, by decide, by simp, rfl⟩
  have has4 : SequencePath 17 2 longAs4Update [70000, 70001] :=
    Or.inr ⟨_, [(2, [70000, 70001])], rfl, by decide, by simp, rfl⟩
  have hid : "2f9e027fa204" ∈ idsOf cancelDigest (updateOf longAs4Update.octets 2) samplePeer
      .announce := by
    decide
  have hw : "2f9e027fa204" ∉ idsOf cancelDigest (updateOf longAs4Update.octets 2) samplePeer
      .withdraw := by
    decide
  -- an AS4_PATH that is longer takes the place of the path
  have hmerge : mergePath (attrAcc (updateOf longAs4Update.octets 2)) = [70000, 70001] := by
    decide
  have hc : Consistent (Data.new none) := new_consistent none
  obtain ⟨d', -, hd', -⟩ := applyUpdate_run cancelDigest sampleOutside
    (updateOf longAs4Update.octets 2) samplePeer hc
  obtain ⟨row, hrow, hasns⟩ := exists_row_asPath hc hd' hid hw
  refine ⟨_, d', row, hu, Wire.RawUpdate.enc_octets (by decide), hpath, has4, hd',
    ⟨_, hid, hrow⟩, ?_⟩
  rw [hasns, hmerge]
  decide

end Rib
