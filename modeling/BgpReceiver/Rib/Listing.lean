import BgpReceiver.Framework.Paging
import BgpReceiver.Rib.Search

/-!
# The listing of the routes

The handler `routes`: the rows of a family, sorted by a column and reversed unless the order
is ascending, cut to a page.

The rows come in the order of their sequence numbers, and the sort is stable. The default
column and names that are no column skip it. Whatever the page is, the offset is a product
that saturates, so that no page wraps around. The pages of a listing are the listing again
(`routes_partition`).

The lower-casing of the keys is a parameter: nothing here rests on what it does.
-/

namespace Rib

open Paging (StableSort sortByKey)

/-! ### The request -/

/-- The query of a listing. The numbers are `i64`. -/
structure Page where
  family : Option String
  page : Option ℤ
  pageSize : Option ℤ
  sort : Option String
  order : Option String

/-- `family`. -/
def family (query : Page) : Except ApiError String :=
  let f := query.family.getD "total"
  if f ∈ ["total", "unicast", "flowspec"] then .ok f else .error (bad "invalid family")

/-- `usize::saturating_mul`. -/
def saturatingMul (a b : ℕ) : ℕ := min (a * b) (2 ^ 64 - 1)

namespace Page

/-- The number of the page. -/
def number (q : Page) : ℕ := (max (q.page.getD 1) 1).toNat

/-- The effective size of a page. -/
def size (q : Page) : ℕ := (min (max (q.pageSize.getD 50) 1) 500).toNat

/-- The columns that can be sorted by. -/
def columns : List String :=
  ["id", "family", "afi", "prefix", "next_hop", "peer", "received_at"]

/-- The column that is sorted by. -/
def column (q : Page) : String := (q.sort.filter (· ∈ columns)).getD "received_at"

end Page

/-- The text that a row is sorted by. -/
def sortKey (sort : String) (r : Route) : String :=
  match sort with
  | "id" => r.id
  | "family" => r.family.text
  | "afi" => r.afi
  | "prefix" => r.pfx.getD ""
  | "next_hop" => r.nextHop.getD ""
  | "peer" => r.peer
  | _ => ""

section

variable (lower : String → String) (d : Data)

/-- The rows of a family, in the order of their sequence numbers. -/
def selected (family : String) : List Route :=
  d.routes.values.filter fun r => family = "total" ∨ r.family.text = family

/-- The rows of a listing before they are cut to a page; `lower` is `str::to_lowercase`. -/
def listing (q : Page) (family : String) : List Route :=
  let rows := selected d family
  let rows := if q.column ≠ "received_at" then
      sortByKey (fun r => lower (sortKey q.column r)) rows
    else rows
  if q.order ≠ some "asc" then rows.reverse else rows

/-- The rows of one page. -/
def pageRows (rows : List Route) (page size : ℕ) : List Route :=
  (rows.drop (saturatingMul (page - 1) size)).take size

/-- The response with a page of the rows. -/
def pageResponse (q : Page) (rows : List Route) : Json :=
  .object [("page", .num q.number), ("page_size", .num q.size), ("count", .num rows.length),
    ("routes", .arr ((pageRows rows q.number q.size).map Route.toJson)), ("stats", d.stats)]

/-- `routes`. -/
def routes (q : Page) : Except ApiError Json := do
  let family ← family q
  return pageResponse d q (listing lower d q family)

end

variable {lower : String → String} {d : Data} {q : Page} {f : String}

/-! ### Numbers -/

/-- A page has at least one row and at most 500, whatever was asked for. -/
theorem Page.size_bounds (q : Page) : 1 ≤ q.size ∧ q.size ≤ 500 := by
  unfold Page.size
  omega

/-- How many pages there are. -/
def pageCount (count size : ℕ) : ℕ := (count + size - 1) / size

/-- The pages are those that begin in front of the end. -/
theorem lt_pageCount_iff {count size i : ℕ} (hsize : 1 ≤ size) :
    i < pageCount count size ↔ i * size < count := by
  rw [pageCount, Nat.lt_div_iff_mul_lt hsize]
  omega

/-- The pages of a listing, one after the other. -/
theorem flatMap_pageRows {rows : List Route} {size : ℕ} (hsize : 1 ≤ size)
    (hfit : rows.length < 2 ^ 64) :
    (List.range (pageCount rows.length size)).flatMap (fun i => pageRows rows (i + 1) size)
      = rows := by
  have hpages : (List.range (pageCount rows.length size)).flatMap
      (fun i => pageRows rows (i + 1) size)
        = (List.range (pageCount rows.length size)).flatMap
          fun i => (rows.drop (i * size)).take size := by
    refine List.flatMap_congr fun i hi => ?_
    have hlt := (lt_pageCount_iff hsize).mp (List.mem_range.mp hi)
    -- the page starts inside of the listing, so the product does not saturate
    have hmul : saturatingMul (i + 1 - 1) size = i * size := by
      rw [saturatingMul, Nat.add_sub_cancel]
      exact min_eq_left (by omega)
    rw [pageRows, hmul]
  have hall : rows.length ≤ pageCount rows.length size * size :=
    not_lt.mp fun hlt => lt_irrefl _ ((lt_pageCount_iff hsize).mpr hlt)
  rw [hpages, Paging.flatMap_pages, List.take_of_length_le hall]

/-- Behind the last page there is nothing. -/
theorem pageRows_of_lt {rows : List Route} {size page : ℕ} (hsize : 1 ≤ size)
    (hfit : rows.length < 2 ^ 64) (h : pageCount rows.length size < page) :
    pageRows rows page size = [] := by
  have hle : rows.length ≤ (page - 1) * size := by
    have hnot : ¬ page - 1 < pageCount rows.length size := by omega
    exact not_lt.mp (mt (lt_pageCount_iff hsize).mpr hnot)
  -- a product that saturates is behind the last row, too
  have hstart : rows.length ≤ saturatingMul (page - 1) size := le_min hle (by omega)
  rw [pageRows, List.drop_of_length_le hstart, List.take_nil]

/-! ### The order -/

/-- The listing in ascending order. -/
theorem listing_asc (h : q.order = some "asc") :
    (q.column = "received_at" → listing lower d q f = selected d f) ∧
      (q.column ≠ "received_at" →
        StableSort (fun r => lower (sortKey q.column r)) (selected d f) (listing lower d q f)) := by
  unfold listing
  rw [if_neg (not_not.mpr h)]
  refine ⟨fun hc => if_neg (not_not.mpr hc), fun hc => ?_⟩
  rw [if_pos hc]
  exact Paging.stableSort_sortByKey

/-- Any other order is the reverse of it. -/
theorem listing_desc (h : q.order ≠ some "asc") :
    listing lower d q f = (listing lower d { q with order := some "asc" } f).reverse := by
  unfold listing
  rw [if_pos h, if_neg (not_not.mpr rfl)]
  rfl

/-- A listing is the selected rows in another order. -/
theorem listing_perm : (listing lower d q f).Perm (selected d f) := by
  -- ascending: the order of the store, or a sort by a key
  have hasc : ∀ {q : Page}, q.order = some "asc" → (listing lower d q f).Perm (selected d f) := by
    intro q h
    by_cases hc : q.column = "received_at"
    · rw [(listing_asc h).1 hc]
    · unfold listing
      rw [if_neg (not_not.mpr h), if_pos hc]
      exact Paging.sortByKey_perm
  -- descending is the ascending list read from behind
  by_cases h : q.order = some "asc"
  · exact hasc h
  · rw [listing_desc h]
    exact (List.reverse_perm _).trans (hasc rfl)

/-! ### The response -/

/-- The rows that a response shows. -/
def Shows (v : Json) (rows : List Route) : Prop := v.index "routes" = .arr (rows.map Route.toJson)

/-- The response shows the rows of its page, and their number. -/
theorem shows_pageResponse (d : Data) (q : Page) (rows : List Route) :
    Shows (pageResponse d q rows) (pageRows rows q.number q.size) := by
  simp [Shows, pageResponse, Json.index, Entries.find_cons]

/-- A family that is known has a listing, whatever the page. -/
theorem routes_eq (hf : family q = .ok f) (n : Option ℤ) :
    routes lower d { q with page := n }
      = .ok (pageResponse d { q with page := n } (listing lower d q f)) := by
  have hfamily : family { q with page := n } = .ok f := hf
  unfold routes
  rw [hfamily]
  rfl

/-- The rows of a page by its number in the query. -/
def pageOf (lower : String → String) (d : Data) (q : Page) (f : String) (n : ℤ) : List Route :=
  pageRows (listing lower d q f) (max n 1).toNat q.size

/-- **The pages partition the listing.** For every size of a page, the pages up to the last
one are the rows of the family, each of them once, in the order of the listing; every later
page is empty, and every page before the first is the first. In ascending order the keys are
sorted and ties are in the order of the sequence numbers, which is the order altogether
where no column is sorted by; any other order is the reverse. The rows are counted in a
`usize`. -/
theorem routes_partition (lower : String → String) (hf : family q = .ok f)
    (hfit : d.routes.values.length < 2 ^ 64) :
    (∀ n : ℤ, ∃ v, routes lower d { q with page := some n } = .ok v ∧
        Shows v (pageOf lower d q f n)) ∧
      (List.range (pageCount (selected d f).length q.size)).flatMap
          (fun i : ℕ => pageOf lower d q f (i + 1)) = listing lower d q f ∧
      (listing lower d q f).Perm (selected d f) ∧
      (∀ n : ℤ, pageCount (selected d f).length q.size < n → pageOf lower d q f n = []) ∧
      (∀ n < 1, pageOf lower d q f n = pageOf lower d q f 1) ∧
      (q.order = some "asc" → q.column = "received_at" →
        listing lower d q f = selected d f) ∧
      (q.order = some "asc" → q.column ≠ "received_at" →
        StableSort (fun r => lower (sortKey q.column r)) (selected d f) (listing lower d q f)) ∧
      (q.order ≠ some "asc" →
        listing lower d q f = (listing lower d { q with order := some "asc" } f).reverse) := by
  have hlen : (listing lower d q f).length = (selected d f).length := listing_perm.length_eq
  -- the number of the rows fits into the counter of the response
  have hrows : (listing lower d q f).length < 2 ^ 64 := by
    rw [hlen]
    exact (List.length_filter_le _ _).trans_lt hfit
  have hsize := q.size_bounds.1
  refine ⟨fun n => ?_, ?_, listing_perm, fun n hn => ?_, fun n hn => ?_,
    fun ho => (listing_asc ho).1, fun ho => (listing_asc ho).2, listing_desc⟩
  · exact ⟨_, routes_eq hf (some n), shows_pageResponse d _ _⟩
  · rw [← hlen]
    refine Eq.trans (List.flatMap_congr fun i _ => ?_) (flatMap_pageRows hsize hrows)
    have hnumber : (max ((i : ℤ) + 1) 1).toNat = i + 1 := by omega
    rw [pageOf, hnumber]
  · exact pageRows_of_lt hsize hrows (by rw [hlen]; omega)
  · have hfirst : max n 1 = max 1 1 := by omega
    rw [pageOf, pageOf, hfirst]

/-- A row to list. -/
def listedRow (id : String) : Route where
  id := id
  family := .unicast
  afi := "ipv4"
  peer := "p"
  receivedAt := "t"
  pfx := none
  nextHop := none
  asPath := []
  communities := []
  match_ := none
  actions := []

/-- Three rows. -/
def threeRows : Data :=
  { Data.new none with
    routes := ((OrdMap.empty.insert 1 (listedRow "B")).insert 2 (listedRow "a")).insert 3
      (listedRow "C") }

/-- Two pages of two rows have them all. -/
theorem routes_partition_three :
    (pageOf String.toLower threeRows ⟨none, none, some 2, some "id", some "asc"⟩ "total" 1 ++
        pageOf String.toLower threeRows ⟨none, none, some 2, some "id", some "asc"⟩ "total" 2).Perm
      [listedRow "B", listedRow "a", listedRow "C"] := by
  obtain ⟨-, hpages, hperm, -⟩ := @routes_partition threeRows
    ⟨none, none, some 2, some "id", some "asc"⟩ "total" String.toLower rfl (by decide)
  have hrange : List.range (pageCount (selected threeRows "total").length
      (Page.size ⟨none, none, some 2, some "id", some "asc"⟩)) = [0, 1] := by decide
  have hrows : selected threeRows "total" = [listedRow "B", listedRow "a", listedRow "C"] := rfl
  rw [hrange] at hpages
  rw [← hpages, hrows] at hperm
  simpa using hperm

end Rib
