import BgpReceiver.Wire.Attributes
import BgpReceiver.Wire.Rendering

/-!
# AS paths and their encoding

An AS path is a list of segments. A segment has a type octet, an octet that says how many
AS numbers there are, and the AS numbers, each of them in two or in four octets
(`segmentOctets`).

The decoder takes a segment off its input exactly when there is one (`pathSegment_exact`),
so it takes an attribute exactly when that is a concatenation of segments, and returns them
in order (`attributeValue_path_iff`). What it returns tells the octets apart
(`attributeValue_path_inj`).
-/

namespace Wire

/-! ### Chunks -/

/-- The first chunk, and those of what follows it. -/
theorem chunksExact_append {size : ℕ} (hsize : 0 < size) {chunk : Bytes} (h : chunk.length = size)
    (data : Bytes) : chunksExact size (chunk ++ data) = chunk :: chunksExact size data := by
  have hcount : (chunk ++ data).length / size = data.length / size + 1 := by
    rw [List.length_append, h, Nat.add_comm, Nat.add_div_right _ hsize]
  unfold chunksExact
  rw [hcount, List.range_succ_eq_map, List.map_cons, List.map_map, Nat.zero_mul, List.drop_zero,
    List.take_left' h]
  congr 1
  refine List.map_congr_left fun i _ => ?_
  -- every later chunk starts one chunk further on
  rw [Function.comp_apply, Nat.succ_mul, Nat.add_comm, ← List.drop_drop, List.drop_left' h]

theorem chunksExact_nil {size : ℕ} : chunksExact size [] = [] := by
  rw [chunksExact, List.length_nil, Nat.zero_div]
  rfl

/-- The chunks of a concatenation of chunks. -/
theorem chunksExact_flatMap {α : Type} {size : ℕ} (hsize : 0 < size) {f : α → Bytes}
    (hf : ∀ x, (f x).length = size) (xs : List α) :
    chunksExact size (xs.flatMap f) = xs.map f := by
  induction xs with
  | nil => exact chunksExact_nil
  | cons x xs ih => rw [List.flatMap_cons, chunksExact_append hsize (hf x), ih, List.map_cons]

/-- Data without an incomplete chunk at its end is the concatenation of its chunks. -/
theorem flatten_chunksExact {size : ℕ} (hsize : 0 < size) {n : ℕ} {data : Bytes}
    (h : data.length = n * size) : (chunksExact size data).flatten = data := by
  induction n generalizing data with
  | zero =>
    rw [Nat.zero_mul, List.length_eq_zero_iff] at h
    rw [h, chunksExact_nil, List.flatten_nil]
  | succ n ih =>
    have hle : size ≤ data.length := by
      rw [h, Nat.succ_mul]
      exact Nat.le_add_left _ _
    -- the rest is one chunk shorter
    have hdrop : (data.drop size).length = n * size := by
      rw [List.length_drop, h, Nat.succ_mul, Nat.add_sub_cancel]
    calc (chunksExact size data).flatten
        = (chunksExact size (data.take size ++ data.drop size)).flatten := by
          rw [List.take_append_drop]
      _ = data.take size ++ data.drop size := by
          rw [chunksExact_append hsize (List.length_take_of_le hle), List.flatten_cons, ih hdrop]
      _ = data := List.take_append_drop size data

/-! ### Segments -/

/-- The octets of a segment. -/
def segmentOctets (width : ℕ) (segment : UInt8 × List ℕ) : Bytes :=
  segment.1 :: UInt8.ofNat segment.2.length :: segment.2.flatMap (toBeBytes width)

/-- The segment can be encoded: there are not too many AS numbers, and none is too large. -/
def FitsWidth (width : ℕ) (segment : UInt8 × List ℕ) : Prop :=
  segment.2.length ≤ 255 ∧ ∀ asn ∈ segment.2, asn < 256 ^ width

/-- A segment is its type, the number of its ASNs and these, each of one width. -/
def SegmentEnc (width : ℕ) (segment : UInt8 × List ℕ) (octets : Bytes) : Prop :=
  FitsWidth width segment ∧ octets = segmentOctets width segment

theorem SegmentEnc.ne_nil {width : ℕ} (segment : UInt8 × List ℕ) (octets : Bytes)
    (h : SegmentEnc width segment octets) : octets ≠ [] := by
  rw [h.2]
  exact List.cons_ne_nil _ _

theorem length_flatMap_toBeBytes (width : ℕ) (asns : List ℕ) :
    (asns.flatMap (toBeBytes width)).length = asns.length * width := by
  induction asns with
  | nil => simp
  | cons asn asns ih =>
    rw [List.flatMap_cons, List.length_append, length_toBeBytes, ih, List.length_cons, Nat.succ_mul,
      Nat.add_comm]

variable {width : ℕ}

/-- The AS numbers of a segment are read back from their octets. -/
theorem chunks_asns (hpos : 0 < width) (hle : width ≤ 8) {asns : List ℕ}
    (h : ∀ asn ∈ asns, asn < 256 ^ width) :
    (chunksExact width (asns.flatMap (toBeBytes width))).map readBeInt = asns := by
  rw [chunksExact_flatMap hpos (length_toBeBytes width), List.map_map]
  calc asns.map (readBeInt ∘ toBeBytes width) = asns.map id := by
        refine List.map_congr_left fun asn hasn => ?_
        rw [Function.comp_apply, readBeInt_of_length_le (by rwa [length_toBeBytes]),
          fromBeBytes_toBeBytes (h asn hasn), id]
    _ = asns := List.map_id asns

/-- Octets for whole AS numbers are those of the AS numbers that are read from them. -/
theorem asns_chunks (hpos : 0 < width) (hle : width ≤ 8) {n : ℕ} {octets : Bytes}
    (h : octets.length = n * width) :
    ((chunksExact width octets).map readBeInt).flatMap (toBeBytes width) = octets := by
  rw [List.flatMap_map]
  calc (chunksExact width octets).flatMap (fun chunk => toBeBytes width (readBeInt chunk))
      = (chunksExact width octets).flatMap id := by
        refine List.flatMap_congr fun chunk hchunk => ?_
        have hlen : chunk.length = width := length_of_mem_chunksExact hchunk
        have hback := toBeBytes_fromBeBytes chunk
        rw [hlen] at hback
        rw [readBeInt_of_length_le (by omega), hback, id]
    _ = (chunksExact width octets).flatten := List.flatMap_id
    _ = octets := flatten_chunksExact hpos h

/-- **The decoder takes a segment off its input exactly when there is one.** -/
theorem pathSegment_exact (hpos : 0 < width) (hle : width ≤ 8) :
    Reader.Exact (pathSegment width) (SegmentEnc width) := by
  rintro data ⟨kind, asns⟩ rest
  unfold pathSegment
  simp only [Reader.bind_eq_ok_iff]
  constructor
  · rintro ⟨⟨head, data₁⟩, h₁, ⟨octets, data₂⟩, h₂, h⟩
    obtain ⟨rfl, hhead⟩ := take_ok_iff.mp h₁
    obtain ⟨k, n, rfl⟩ := List.length_eq_two.mp hhead
    obtain ⟨rfl, hlen⟩ := take_ok_iff.mp h₂
    obtain ⟨he, rfl⟩ := Prod.mk.inj (Except.ok.inj h)
    obtain ⟨rfl, rfl⟩ := Prod.mk.inj he
    change octets.length = n.toNat * width at hlen
    -- as many AS numbers as the count says, each in an octet string of the width
    have hcount : ((chunksExact width octets).map readBeInt).length = n.toNat := by
      rw [List.length_map, chunksExact, List.length_map, List.length_range, hlen,
        Nat.mul_div_cancel _ hpos]
    refine ⟨_, ⟨⟨?_, ?_⟩, rfl⟩, ?_⟩
    · change ((chunksExact width octets).map readBeInt).length ≤ 255
      have := n.toNat_lt
      omega
    · intro asn hasn
      obtain ⟨chunk, hchunk, rfl⟩ := List.mem_map.mp hasn
      have hchunk : chunk.length = width := length_of_mem_chunksExact hchunk
      rw [readBeInt_of_length_le (by omega), ← hchunk]
      exact fromBeBytes_lt chunk
    · simp only [segmentOctets, hcount, UInt8.ofNat_toNat, asns_chunks hpos hle hlen]
      rfl
  · rintro ⟨_, ⟨⟨hcount, hasns⟩, rfl⟩, rfl⟩
    change asns.length ≤ 255 at hcount
    refine ⟨([kind, UInt8.ofNat asns.length], asns.flatMap (toBeBytes width) ++ rest),
      take_ok_iff.mpr ⟨rfl, rfl⟩, (asns.flatMap (toBeBytes width), rest),
      take_ok_iff.mpr ⟨rfl, ?_⟩, ?_⟩
    · -- the count fits in its octet
      change _ = (UInt8.ofNat asns.length).toNat * width
      rw [length_flatMap_toBeBytes, UInt8.toNat_ofNat', Nat.mod_eq_of_lt (by omega)]
    · simp only [chunks_asns hpos hle hasns]
      rfl

theorem pathSegment_consumes (hpos : 0 < width) (hle : width ≤ 8) :
    Reader.Consumes (pathSegment width) :=
  (pathSegment_exact hpos hle).consumes SegmentEnc.ne_nil

/-- **A path is read from exactly the concatenations of segments.** -/
theorem collect_pathSegment_iff (hpos : 0 < width) (hle : width ≤ 8) {data : Bytes}
    {path : List (UInt8 × List ℕ)} :
    Reader.collect (pathSegment width) data = .ok path ↔
      (∀ segment ∈ path, FitsWidth width segment) ∧ data = path.flatMap (segmentOctets width) := by
  rw [Reader.collect_ok_iff (pathSegment_consumes hpos hle),
    (pathSegment_exact hpos hle).items_iff SegmentEnc.ne_nil]
  exact Reader.encAll_iff

/-! ### The attributes -/

/-- The value of a path is its segments; AS4_PATH has a width of its own. -/
theorem attributeValue_path {a : RawAttr} (h : a.code = 2 ∨ a.code = 17) (asnLen : ℕ) :
    attributeValue a.code a.data asnLen
      = (Reader.collect (pathSegment (if a.code = 17 then 4 else asnLen)) a.data).map
          fun path => .arr (path.map segmentJson) := by
  have hbind : ∀ x : Except String (List (UInt8 × List ℕ)),
      (do let path ← x; return Json.arr (path.map segmentJson))
        = x.map fun path => .arr (path.map segmentJson) := by
    intro x
    cases x <;> rfl
  rcases h with h | h
  · rw [h]
    exact hbind _
  · rw [h]
    exact hbind _

/-- **The value of a path attribute.** AS4_PATH has four octets for each AS number, and
AS_PATH as many as the session has negotiated. -/
theorem attributeValue_path_iff {a : RawAttr} {asnLen : ℕ}
    (h : a.code = 2 ∧ width = asnLen ∨ a.code = 17 ∧ width = 4) (hpos : 0 < width)
    (hle : width ≤ 8) {v : Json} :
    attributeValue a.code a.data asnLen = .ok v ↔
      ∃ path : List (UInt8 × List ℕ), (∀ segment ∈ path, FitsWidth width segment) ∧
        a.data = path.flatMap (segmentOctets width) ∧ v = .arr (path.map segmentJson) := by
  have hcode : a.code = 2 ∨ a.code = 17 := h.imp And.left And.left
  -- an AS4_PATH always has four octets a number
  have hwidth : (if a.code = 17 then 4 else asnLen) = width := by
    rcases h with ⟨h, rfl⟩ | ⟨h, rfl⟩ <;> rw [h] <;> rfl
  rw [attributeValue_path hcode, hwidth]
  cases hp : Reader.collect (pathSegment width) a.data with
  | error e =>
    refine iff_of_false nofun fun hex => ?_
    obtain ⟨path, hpath, hdata, -⟩ := hex
    rw [(collect_pathSegment_iff hpos hle).mpr ⟨hpath, hdata⟩] at hp
    cases hp
  | ok path =>
    obtain ⟨hpath, hdata⟩ := (collect_pathSegment_iff hpos hle).mp hp
    refine ⟨fun hv => ⟨path, hpath, hdata, (Except.ok.inj hv).symm⟩, fun hex => ?_⟩
    obtain ⟨path', hpath', hdata', rfl⟩ := hex
    rw [(collect_pathSegment_iff hpos hle).mpr ⟨hpath', hdata'⟩] at hp
    rw [Except.ok.inj hp]
    rfl

/-- The names of the segment types are different. -/
theorem segmentName_injective : Function.Injective segmentName := by
  intro k k' h
  unfold segmentName at h
  split at h <;> split at h <;> first | rfl | exact absurd h (by decide) | skip
  -- what is left has the name of an unknown type in it, and that ends in its number
  all_goals
    have hlist := congrArg String.toList h
    first
    | rw [String.toList_append, String.toList_append] at hlist
      exact UInt8.toNat_inj.mp
        (Nat.repr_inj.mp (String.toList_inj.mp (List.append_cancel_left hlist)))
    | simp at hlist

/-- The segments are determined by how they are shown. -/
theorem segmentJson_injective : Function.Injective segmentJson := by
  rintro ⟨kind, asns⟩ ⟨kind', asns'⟩ h
  have htype : segmentName kind = segmentName kind' := by
    simpa [segmentJson, Json.index, Entries.find_cons] using congrArg (fun v => v.index "type") h
  have hasns : asns.map Json.num = asns'.map Json.num := by
    simpa [segmentJson, Json.index, Entries.find_cons] using congrArg (fun v => v.index "asns") h
  rw [segmentName_injective htype,
    List.map_injective_iff.mpr (fun _ _ hn => Json.num.inj hn) hasns]

/-- **A path attribute can be had back** from what it is shown as. -/
theorem attributeValue_path_inj {a a' : RawAttr} {asnLen : ℕ} (hcode : a'.code = a.code)
    (h : a.code = 2 ∧ width = asnLen ∨ a.code = 17 ∧ width = 4) (hpos : 0 < width)
    (hle : width ≤ 8) {v : Json} (hv : attributeValue a.code a.data asnLen = .ok v)
    (hv' : attributeValue a'.code a'.data asnLen = .ok v) : a.data = a'.data := by
  have h' : a'.code = 2 ∧ width = asnLen ∨ a'.code = 17 ∧ width = 4 := by rwa [hcode]
  obtain ⟨path, -, hdata, rfl⟩ := (attributeValue_path_iff h hpos hle).mp hv
  obtain ⟨path', -, hdata', heq⟩ := (attributeValue_path_iff h' hpos hle).mp hv'
  have hpath : path = path' :=
    List.map_injective_iff.mpr segmentJson_injective (Json.arr.inj heq)
  rw [hdata, hdata', hpath]

end Wire
