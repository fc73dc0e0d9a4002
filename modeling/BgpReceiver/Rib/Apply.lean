import BgpReceiver.Rib.Data
import BgpReceiver.Wire.Helpers

/-!
# Applying an update

`App::apply_update`. It reads the attributes that all routes of the update share,
turns every announced and withdrawn route into a row with an id, and takes each row
through the store in a critical section of its own: the row with the id is removed,
and for an announcement the new row is inserted.

What a route is identified by is its `Key`: the label it is reported under together
with its prefix, or for FlowSpec with the decoded rule. The id is the beginning of
the SHA-1 digest of the key's canonical text (`routeId`); the digest is a parameter.

`Section` lists the critical sections of the whole program that write to the data.
The sections of an update are interleaved with those of other tasks; applied alone
they make up `applyUpdate`.
-/

namespace Rib

/-! ### The attributes of an update -/

/-- What the loop over the attributes keeps. -/
structure AttrAcc where
  path : List ℕ
  as4 : List ℕ
  communities : List String

/-- The ASNs of all segments. -/
def flatAsns (values : List Json) : List ℕ :=
  ((values.flatMap fun s => (s.index "asns").asArray.getD []).filterMap Json.asU64).map
    fun n => n % 2 ^ 32

/-- One turn of the loop over the attributes. -/
def attrStep (acc : AttrAcc) (attr : Json) : AttrAcc :=
  match (attr.index "value").asArray with
  -- an attribute that did not decode has no value, and is passed over
  | none => acc
  | some values =>
    match (attr.index "name").asStr.getD "" with
    | "AS_PATH" => { acc with path := flatAsns values }
    | "AS4_PATH" => { acc with as4 := flatAsns values }
    | "COMMUNITIES" | "LARGE_COMMUNITIES" =>
      -- communities of both kinds are one list, in the order of the attributes
      { acc with communities := acc.communities ++ values.filterMap Json.asStr }
    | _ => acc

/-- What the first loop of `apply_update` gathers from the path attributes. -/
def attrAcc (update : Json) : AttrAcc :=
  ((update.index "path_attributes").asArray.getD []).foldl attrStep ⟨[], [], []⟩

/-- The tail of the path replaced by the four-octet path. -/
def mergePath (acc : AttrAcc) : List ℕ :=
  -- `saturating_sub`: a longer AS4_PATH takes the place of all, and the ASN width is not looked at
  if acc.as4 ≠ [] then acc.path.take (acc.path.length - acc.as4.length) ++ acc.as4 else acc.path

/-- What the rows of an update share. -/
structure Shared where
  asPath : List ℕ
  communities : List String
  actions : List String
  peer : String

/-- What the routes of an UPDATE share. -/
def shared (update : Json) (peer : String) : Shared where
  asPath := mergePath (attrAcc update)
  communities := (attrAcc update).communities
  actions := ((update.index "actions").asArray.getD []).filterMap Json.asStr
  peer := peer

/-! ### Keys and ids -/

/-- What a route is identified by. -/
inductive Key where
  | unicast (label : String) (pfx : Json)
  | flowspec (label : String) (rule : Json)
  deriving DecidableEq

/-- The family that a label stands for. -/
def familyOf (label : String) : Family :=
  if Text.endsWith label "-unicast" then .unicast else .flowspec

/-- The key of a route under a label. -/
def keyOf (label : String) (route : Json) : Key :=
  match familyOf label with
  | .unicast => .unicast label (route.index "prefix")
  | .flowspec => .flowspec label route

namespace Key

/-- Whether the key is one of a prefix or of a rule. -/
def family : Key → Family
  | unicast _ _ => .unicast
  | flowspec _ _ => .flowspec

/-- The label of its group in the UPDATE. -/
def label : Key → String
  | unicast l _ => l
  | flowspec l _ => l

/-- `identity`. -/
def identity : Key → Json
  | unicast _ p => .object [("prefix", p)]
  | flowspec _ rule => rule

/-- `canonical`. -/
def canonical (peer : String) (k : Key) : Bytes :=
  (Json.arr [.str k.family.text, .str k.label, .str peer, k.identity]).text.toUTF8.data.toList

end Key

/-- The first twelve digits of a digest. -/
def shortId (digest : Bytes → Vector UInt8 20) (data : Bytes) : String :=
  String.ofList ((Wire.hexEncode (digest data).toList).toList.take 12)

/-- `id`. -/
def routeId (digest : Bytes → Vector UInt8 20) (peer : String) (k : Key) : String :=
  shortId digest (k.canonical peer)

/-! ### Rows -/

/-- The two passes of `apply_update`, the announced routes first. -/
inductive UpdateKind where
  | announce
  | withdraw
  deriving DecidableEq

/-- The key of the pass in the UPDATE. -/
def UpdateKind.text : UpdateKind → String
  | announce => "announce"
  | withdraw => "withdraw"

/-- The row of a route. -/
def entryOf (sh : Shared) (id receivedAt label : String) (route : Json) : Route :=
  -- the members of both families
  let entry : Route := ⟨id, familyOf label, label, sh.peer, receivedAt, none, none, sh.asPath,
    sh.communities, none, []⟩
  match familyOf label with
  | .unicast =>
    { entry with
      pfx := (route.index "prefix").asStr
      -- an empty next hop is none
      nextHop := ((route.get "next_hop").bind Json.asStr).filter fun s => s ≠ "" }
  | .flowspec => { entry with match_ := some route, actions := sh.actions }

/-- A route of an update that is about to be applied. -/
structure RouteOp where
  kind : UpdateKind
  entry : Route

/-- One of the groups that an update lists its routes in. -/
def groups (update : Json) (kind : UpdateKind) : List (String × List Json) :=
  -- the groups are in the order of their labels, as a JSON object keeps them
  ((update.index kind.text).asObject.getD []).map fun e => (e.1, e.2.asArray.getD [])

/-- A step of the loops over the groups: a group is entered, or one of its routes is
applied. -/
inductive UpdateStep where
  | group (label : String)
  | route (kind : UpdateKind) (label : String) (route : Json)

/-- The steps of the loops, in order. -/
def updateSteps (update : Json) : List UpdateStep :=
  -- all announcements come before the first withdrawal
  [UpdateKind.announce, .withdraw].flatMap fun kind =>
    (groups update kind).flatMap fun g => .group g.1 :: g.2.map (.route kind g.1)

namespace Data

/-- The critical section of one route: the row that is there goes, and an announced row
comes in its place. -/
def applyRoute (d : Data) (op : RouteOp) (instant : ℕ) : Option (Data × Bool) := do
  -- the row of the id is removed in either case
  let (d, existed) ← d.remove op.entry.id instant
  match op.kind with
  | .announce => return (← d.insert op.entry.id op.entry instant, existed)
  | .withdraw => return (d, existed)

/-- The critical section that interns what the rows of an update share. -/
def internShared (d : Data) (sh : Shared) : Data :=
  { d with pool := { d.pool with
      asPath := intern sh.asPath d.pool.asPath
      communities := intern sh.communities d.pool.communities
      strings := intern sh.peer d.pool.strings } }

/-- The critical section that interns the label of a group. -/
def internLabel (d : Data) (label : String) : Data :=
  { d with pool := { d.pool with strings := intern label d.pool.strings } }

end Data

/-! ### Critical sections -/

/-- The critical sections that write to the data. An instant is what the clock shows
when the data is marked as changed. -/
inductive Section where
  /-- `emit`, with the text of the event -/
  | record (event : String)
  /-- `reclaim_memory` -/
  | reclaimMemory (held : Pool)
  /-- `apply_update`: the shared attributes -/
  | internShared (sh : Shared)
  /-- `apply_update`: the label of a group -/
  | internLabel (label : String)
  /-- `apply_update`: one route -/
  | route (op : RouteOp) (instant : ℕ)
  /-- `set_state` -/
  | setState (state : SessionState)
  /-- the end of `flush` -/
  | flushed
  /-- `App::stop` -/
  | stop (instant : ℕ)
  /-- `App::start` -/
  | start (config : Session.Config) (instant : ℕ)
  /-- `session::run`, behind a connection -/
  | disconnected (instant : ℕ)
  /-- `session::run`, at its end -/
  | runEnded (instant : ℕ)
  /-- `connected`, behind an OPEN -/
  | peerInfo (info : Json)
  /-- the handler of `DELETE /log` -/
  | clearHistory
  /-- `capture::start` and the end of a capture -/
  | capturing (on : Bool)

/-- What a section does. -/
def Section.run (d : Data) : Section → Option Data
  | .record event => d.record event
  | .reclaimMemory held => some (d.reclaimMemory held)
  | .internShared sh => some (d.internShared sh)
  | .internLabel label => some (d.internLabel label)
  | .route op instant => (d.applyRoute op instant).map Prod.fst
  | .setState state => some { d with state := state }
  | .flushed => some { d with dirty := none }
  | .stop instant =>
    some ({ d.clearHistory with running := false, state := .idle, peerInfo := .object [] }.clear
      instant)
  | .start config instant =>
    -- the table is cleared, and the dirty mark is that of the clear
    some { d.clear instant with
      output := config.jsonOutput, config := some config, running := true, peerInfo := .object [] }
  | .disconnected instant => some { d.clear instant with peerInfo := .object [] }
  | .runEnded instant =>
    some { ({ d with running := false, state := .idle }.clear instant) with
      peerInfo := .object [] }
  | .peerInfo info => some { d with peerInfo := info }
  | .clearHistory => some d.clearHistory
  | .capturing on => some { d with capturing := on }

/-! ### The whole update -/

/-- The rows that an update reports, by kind. -/
structure Batches where
  announce : List Json
  withdraw : List Json

/-- A row goes to the batch of its kind. -/
def Batches.push (b : Batches) (kind : UpdateKind) (row : Json) : Batches :=
  match kind with
  | .announce => { b with announce := b.announce ++ [row] }
  | .withdraw => { b with withdraw := b.withdraw ++ [row] }

/-- The rows of a batch. -/
def Batches.rows (b : Batches) : UpdateKind → List Json
  | .announce => b.announce
  | .withdraw => b.withdraw

/-- The text of an event. -/
def eventText (ts kind level message : String) (extra : List (String × Json)) : String :=
  (Json.object ([("ts", .str ts), ("type", .str kind), ("level", .str level),
    ("message", .str message)] ++ extra)).text

/-- What an update takes from outside: what the clocks show at each of its routes and
at each report, and the order of the two reports. -/
structure Outside where
  now : ℕ → String
  instant : ℕ → ℕ
  reportedAt : UpdateKind → String
  announceFirst : Bool

/-- The data on the way through an update, the rows to report, and how many routes
have been applied. -/
structure Progress where
  data : Data
  batches : Batches
  applied : ℕ

/-- The event of a batch. -/
def batchEvent (update : Json) (ts : String) (kind : UpdateKind) (rows : List Json) : String :=
  eventText ts kind.text "update" (kind.text.toUpper ++ " x" ++ Nat.repr rows.length)
    [("count", .num rows.length), ("routes", .arr rows),
      ("path_attributes", update.index "path_attributes")]

section ApplyUpdate

variable (digest : Bytes → Vector UInt8 20) (o : Outside) (update : Json) (peer : String)

/-- The operation of one route. -/
def routeOp (kind : UpdateKind) (label : String) (route : Json) (receivedAt : String) : RouteOp :=
  ⟨kind, entryOf (shared update peer) (routeId digest peer (keyOf label route)) receivedAt label
    route⟩

/-- One step of the loops. -/
def updateStep (p : Progress) : UpdateStep → Option Progress
  | .group label => some { p with data := p.data.internLabel label }
  | .route kind label route => do
    let op := routeOp digest update peer kind label route (o.now p.applied)
    let (d, existed) ← p.data.applyRoute op (o.instant p.applied)
    -- a withdrawal of what was not there is reported with no id
    let reported := if kind = .announce ∨ existed then Json.str op.entry.id else .null
    return ⟨d, p.batches.push kind (op.entry.toJson.set "route_id" reported), p.applied + 1⟩

/-- Report a batch that has a row. -/
def reportBatch (b : Batches) (d : Data) (kind : UpdateKind) : Option Data :=
  if b.rows kind = [] then some d
  else d.record (batchEvent update (o.reportedAt kind) kind (b.rows kind))

/-- `apply_update`, with no other task in between. -/
def applyUpdate (d : Data) : Option Data := do
  let p ← (updateSteps update).foldlM (updateStep digest o update peer)
    ⟨d.internShared (shared update peer), ⟨[], []⟩, 0⟩
  -- the batches are a `HashMap`, whose order is not fixed
  (if o.announceFirst then [UpdateKind.announce, .withdraw] else [.withdraw, .announce]).foldlM
    (reportBatch o update p.batches) p.data

end ApplyUpdate

end Rib
