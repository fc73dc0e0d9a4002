import BgpReceiver.Framework.Tally
import BgpReceiver.Json
import BgpReceiver.Session.Config

/-!
# The routing information base

`Route`, `Pool` and `Data` of `app.rs`, with the operations of `Data`.

A row is found in two steps: `ids` takes the id of a route to a sequence number, and
`routes` takes the number to the row. The counters of `counts` and `analytics` are
never computed from the rows; an insertion raises them and a removal lowers them.

An operation that can panic returns an `Option`: a counter below zero, a table that
is missing, an index entry without its row, an event taken off an empty history.
`sequence` is a natural number, so it does not wrap.
-/

namespace Rib

open Session (Config)

/-! ### Rows -/

/-- The two families of `family`, by the label of the group. -/
inductive Family where
  | unicast
  | flowspec
  deriving DecidableEq

/-- The text under which a family is counted. -/
def Family.text : Family → String
  | unicast => "unicast"
  | flowspec => "flowspec"

/-- The labels that `data.state` takes. -/
inductive SessionState where
  | idle
  | connect
  | openSent
  | openConfirmed
  | established
  deriving DecidableEq

/-- The text of a state, as it is reported and stored. -/
def SessionState.text : SessionState → String
  | idle => "IDLE"
  | connect => "CONNECT"
  | openSent => "OPEN_SENT"
  | openConfirmed => "OPEN_CONFIRMED"
  | established => "ESTABLISHED"

/-- A row of the table. -/
structure Route where
  id : String
  family : Family
  afi : String
  peer : String
  receivedAt : String
  pfx : Option String
  nextHop : Option String
  asPath : List ℕ
  communities : List String
  match_ : Option Json
  actions : List String
  deriving DecidableEq

/-- The members of a serialized row, in the order of the declaration; what is empty is
skipped. -/
def Route.fields (r : Route) : List (String × Json) :=
  let optional := fun (key : String) (v : Option Json) => v.toList.map fun v => (key, v)
  let nonempty := fun (key : String) (vs : List Json) => if vs = [] then [] else [(key, .arr vs)]
  [("id", .str r.id), ("family", .str r.family.text), ("afi", .str r.afi), ("peer", .str r.peer),
    ("received_at", .str r.receivedAt)]
    ++ optional "prefix" (r.pfx.map .str) ++ optional "next_hop" (r.nextHop.map .str)
    ++ nonempty "as_path" (r.asPath.map .num) ++ nonempty "communities" (r.communities.map .str)
    ++ optional "match" r.match_ ++ nonempty "actions" (r.actions.map .str)

/-- `serde_json::to_value` of a row. -/
def Route.toJson (r : Route) : Json := .object r.fields

/-- `serde_json::to_writer` of a row. -/
def Route.text (r : Route) : String :=
  "\x7b" ++ String.intercalate "," (Json.fieldTexts r.fields) ++ "\x7d"

/-! ### The intern pool -/

/-- The pooled values. -/
structure Pool where
  asPath : List (List ℕ)
  communities : List (List String)
  strings : List String

/-- Look a value up in a set and add it when it is not there. -/
def intern {α : Type} [DecidableEq α] (v : α) (pooled : List α) : List α :=
  -- a value that is pooled is not pooled a second time
  if v ∈ pooled then pooled else pooled ++ [v]

/-- A pool of nothing. -/
def Pool.empty : Pool := ⟨[], [], []⟩

/-- `collect`: keep the values that are held outside of the pool, by the rows or by
someone else. -/
def Pool.collect (pool : Pool) (rows : List Route) (held : Pool) : Pool where
  asPath := pool.asPath.filter fun v => v ∈ rows.map Route.asPath ∨ v ∈ held.asPath
  communities := pool.communities.filter fun v =>
    v ∈ rows.map Route.communities ∨ v ∈ held.communities
  strings := pool.strings.filter fun v =>
    v ∈ rows.map Route.afi ∨ v ∈ rows.map Route.peer ∨ v ∈ held.strings

/-! ### Data -/

/-- What the one mutex of the program guards. -/
structure Data where
  config : Option Config
  running : Bool
  capturing : Bool
  state : SessionState
  peerInfo : Json
  history : List String
  historyBytes : ℕ
  routes : OrdMap ℕ Route
  ids : OrdMap String ℕ
  sequence : ℕ
  counts : OrdMap String ℕ
  analytics : OrdMap String (OrdMap String ℕ)
  pool : Pool
  output : Option String
  dirty : Option ℕ

/-- The names of the analytics tables. -/
def analyticsTables : List String :=
  ["communities", "origin_as", "next_hops", "prefix_lengths", "actions", "protocols", "ports"]

namespace Data

/-- The state that `App::new` builds. -/
def new (output : Option String) : Data where
  config := none
  running := false
  capturing := false
  state := .idle
  peerInfo := .object []
  history := []
  historyBytes := 0
  routes := .empty
  ids := .empty
  sequence := 0
  counts := .empty
  analytics := analyticsTables.foldl (fun t name => t.insert name .empty) .empty
  pool := .empty
  output := output
  dirty := none

/-! ### Counting -/

/-- The tables that the match of a FlowSpec route is counted in. -/
def matchTables : List (String × String) :=
  [("protocols", "ip-proto"), ("ports", "port"), ("ports", "src-port"), ("ports", "dst-port")]

/-- `metrics`: the analytics entries of a row. -/
def metrics (route : Route) : List (String × String) :=
  match route.family with
  | .unicast =>
    route.communities.map (fun c => ("communities", c))
      -- the origin is the last AS of the path
      ++ (route.asPath.getLast?.toList.map fun asn => ("origin_as", Nat.repr asn))
      ++ ((route.nextHop.filter fun s => s ≠ "").toList.map fun nh => ("next_hops", nh))
      ++ (((route.pfx.bind fun s => Text.splitOnce s '/').toList).map fun p =>
        ("prefix_lengths", "/" ++ p.2))
  | .flowspec =>
    route.actions.map (fun a => ("actions", a))
      -- a rule is counted for each term of the four components
      ++ matchTables.flatMap fun t =>
        (((route.match_.bind fun m => m.get t.2).bind Json.asArray).getD []).map fun v =>
          (t.1, v.asStr.getD "")

/-- The address family that a row is counted under. -/
def addressFamily (route : Route) : String :=
  if Text.startsWith route.afi "ipv6" then "ipv6" else "ipv4"

/-- `count`. -/
def count (d : Data) (route : Route) (add : Bool) : Option Data := do
  -- `bump` fails where the subtraction of a counter would wrap
  let counts ← [route.family.text, addressFamily route].foldlM (Tally.bump add) d.counts
  let analytics ← (metrics route).foldlM (Tally.bumpIn add) d.analytics
  return { d with counts := counts, analytics := analytics }

/-! ### Rows in and out -/

/-- `insert`. -/
def insert (d : Data) (id : String) (route : Route) (instant : ℕ) : Option Data := do
  let d ← d.count route true
  -- numbers are never used again, so the newest row has the highest
  let sequence := d.sequence + 1
  return { d with
    sequence := sequence
    ids := d.ids.insert id sequence
    routes := d.routes.insert sequence route
    dirty := some instant }

/-- `remove`: the data without the row, and whether there was one. -/
def remove (d : Data) (id : String) (instant : ℕ) : Option (Data × Bool) :=
  match d.ids.find id with
  | some seq => do
    let d := { d with ids := d.ids.erase id }
    -- a number of the index without a row would panic
    let route ← d.routes.find seq
    let d := { d with routes := d.routes.erase seq }
    let d ← d.count route false
    return ({ d with dirty := some instant }, true)
  | none => some (d, false)

/-- `clear`. -/
def clear (d : Data) (instant : ℕ) : Data :=
  { d with
    -- a table that was empty is not marked as changed
    dirty := if d.routes.entries = [] then d.dirty else some instant
    routes := .empty
    ids := .empty
    counts := .empty
    pool := .empty
    analytics := d.analytics.mapValues fun _ => .empty }

/-! ### Statistics -/

/-- The order of an analytics list: by descending count, then by name. -/
def statsBefore (a b : String × ℕ) : Bool := a.2 > b.2 || (a.2 = b.2 && a.1 ≤ b.1)

/-- One analytics list. -/
def topFive (counts : OrdMap String ℕ) : List (String × ℕ) :=
  (counts.entries.mergeSort statsBefore).take 5

/-- One analytics list as it is reported. -/
def statsList (counts : OrdMap String ℕ) : Json :=
  .arr ((topFive counts).map fun row => .arr [.str row.1, .num row.2])

/-- `stats`. -/
def stats (d : Data) : Json :=
  let counter := fun name => Json.num ((d.counts.find name).getD 0)
  .object [("total", .num d.routes.entries.length), ("unicast", counter "unicast"),
    ("flowspec", counter "flowspec"), ("ipv4", counter "ipv4"), ("ipv6", counter "ipv6"),
    ("analytics", .object (d.analytics.entries.map fun e => (e.1, statsList e.2)))]

/-! ### The history -/

/-- The limit of the texts of the history, in octets. -/
def historyBytesLimit : ℕ := 8 * 1024 * 1024

/-- The limit of its events. -/
def historyEventsLimit : ℕ := 2000

/-- Take events off the front until one of the given length fits. -/
def evict (len : ℕ) : List String → ℕ → Option (List String × ℕ)
  | [], bytes =>
    if 0 ≥ historyEventsLimit ∨ bytes + len > historyBytesLimit then none else some ([], bytes)
  | oldest :: history, bytes =>
    if history.length + 1 ≥ historyEventsLimit ∨ bytes + len > historyBytesLimit then
      -- the count of the octets would wrap
      if bytes < oldest.utf8ByteSize then none
      else evict len history (bytes - oldest.utf8ByteSize)
    else some (oldest :: history, bytes)

/-- What `emit` does to the history. -/
def record (d : Data) (event : String) : Option Data :=
  -- an event above the limit is sent, and not kept
  if event.utf8ByteSize ≤ historyBytesLimit then do
    let (history, bytes) ← evict event.utf8ByteSize d.history d.historyBytes
    return { d with history := history ++ [event], historyBytes := bytes + event.utf8ByteSize }
  else some d

/-- `clear_history`. -/
def clearHistory (d : Data) : Data := { d with history := [], historyBytes := 0 }

/-- What `reclaim_memory` does to the data; the values in `held` are those that an
update in progress or a snapshot of the rows still refers to. -/
def reclaimMemory (d : Data) (held : Pool) : Data :=
  { d with pool := d.pool.collect d.routes.values held }

end Data

/-- A route as it is stored. -/
def sampleRow : Route :=
  ⟨"98d8d25ae319", .unicast, "ipv4-unicast", "192.0.2.1", "2026-06-25T12:00:00.000000Z",
    some "192.0.2.0/24", some "192.0.2.1", [65000, 64496], ["65000:100"], none, []⟩

end Rib
