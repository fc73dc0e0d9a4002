import BgpReceiver.Framework.Interning
import BgpReceiver.Rib.Arrival

/-!
# The intern pool and what refers to it

The rows share their AS paths, their communities, and the texts of their peers and labels.
The store says which values are pooled (`Data.pool`), and leaves open which of them are held
from outside when memory is reclaimed. Here the values are arcs with addresses: an arc is
held by the pool, by the rows, by the snapshots of rows that exports and flushes have taken,
and by the locals of the call of `apply_update` that is in progress, and `reclaim_memory`
decides by their number.

A call looks its values up in one critical section and refers to them in later ones, with
`reclaim_memory` in between, and snapshots may outlive the rows, and the whole pool. What
saves the call is that its locals are holders: the arcs of the rows and of the locals are in
the pool at any moment (`PoolInv`). So a row never has a value that is not pooled, and what
is left behind a `reclaim_memory` with no snapshots and no call is the values of the rows
(`pool_exact`).

`clear` drops the pool, and comes between calls only.
-/

namespace Rib

open Interning (Arc ArcPool Sound)

/-! ### Arcs -/

/-- The pool, with arcs. -/
structure Pools where
  asPath : ArcPool (List ℕ)
  communities : ArcPool (List String)
  strings : ArcPool String

/-- Three pools of nothing. -/
def Pools.empty : Pools := ⟨.empty, .empty, .empty⟩

/-- All three are thrown away, and the handles stay with their holders. -/
def Pools.reset (p : Pools) : Pools := ⟨p.asPath.reset, p.communities.reset, p.strings.reset⟩

/-- The pool, with the values only. -/
def Pools.values (p : Pools) : Pool := ⟨p.asPath.values, p.communities.values, p.strings.values⟩

/-- The arcs of a row. -/
structure Shares where
  asPath : Arc (List ℕ)
  communities : Arc (List String)
  afi : Arc String
  peer : Arc String

/-- They are the arcs of this row. -/
structure Agree (s : Shares) (r : Route) : Prop where
  asPath : s.asPath.value = r.asPath
  communities : s.communities.value = r.communities
  afi : s.afi.value = r.afi
  peer : s.peer.value = r.peer

/-- The arcs that a call of `apply_update` holds. The one of the label goes at the end of
the group. -/
structure Locals where
  asPath : Arc (List ℕ)
  communities : Arc (List String)
  peer : Arc String
  afi : Option (Arc String)

/-- The arcs of a row that the call makes. -/
def Locals.shares (l : Locals) (afi : Arc String) : Shares :=
  ⟨l.asPath, l.communities, afi, l.peer⟩

/-- The part of the pool that has one kind of values. -/
structure Kind (α : Type) where
  pool : Pools → ArcPool α
  ofShares : Shares → List (Arc α)
  ofLocals : Locals → List (Arc α)
  ofRoute : Route → List α
  /-- A row has arcs of the call that makes it. -/
  ofShares_shares : ∀ l afi, l.afi = some afi → ofShares (l.shares afi) ⊆ ofLocals l
  ofLocals_leave : ∀ l : Locals, ofLocals { l with afi := none } ⊆ ofLocals l
  ofRoute_eq : ∀ s r, Agree s r → ofRoute r = (ofShares s).map Arc.value

namespace Kind

/-- The paths of the routes. -/
def asPath : Kind (List ℕ) where
  pool := Pools.asPath
  ofShares s := [s.asPath]
  ofLocals l := [l.asPath]
  ofRoute r := [r.asPath]
  ofShares_shares _ _ _ := List.Subset.refl _
  ofLocals_leave _ := List.Subset.refl _
  ofRoute_eq _ _ h := by rw [← h.asPath, List.map_singleton]

/-- Their communities. -/
def communities : Kind (List String) where
  pool := Pools.communities
  ofShares s := [s.communities]
  ofLocals l := [l.communities]
  ofRoute r := [r.communities]
  ofShares_shares _ _ _ := List.Subset.refl _
  ofLocals_leave _ := List.Subset.refl _
  ofRoute_eq _ _ h := by rw [← h.communities, List.map_singleton]

/-- Their labels and peers. -/
def strings : Kind String where
  pool := Pools.strings
  ofShares s := [s.afi, s.peer]
  ofLocals l := l.peer :: l.afi.toList
  ofRoute r := [r.afi, r.peer]
  ofShares_shares l afi h := by simp [Locals.shares, h]
  ofLocals_leave l := by simp
  ofRoute_eq _ _ h := by rw [← h.afi, ← h.peer, List.map_cons, List.map_singleton]

end Kind

/-! ### The heap -/

/-- The data with the shares of every row, the shares that a call or a download holds, and the
pools. -/
structure Heap where
  feed : Feed
  pools : Pools
  /-- The arcs of the rows, by sequence number. -/
  shares : ℕ → Shares
  locals : Option Locals
  snapshots : List (List Shares)

namespace Heap

variable {α : Type}

/-- The arcs of the rows. -/
def rows (h : Heap) : List Shares := h.feed.data.routes.entries.map fun e => h.shares e.1

/-- The arcs that the rows and the call hold. -/
def live (h : Heap) (k : Kind α) : List (Arc α) :=
  h.rows.flatMap k.ofShares ++ h.locals.toList.flatMap k.ofLocals

/-- The arcs that the snapshots hold. -/
def outside (h : Heap) (k : Kind α) : List (Arc α) := h.snapshots.flatten.flatMap k.ofShares

/-- All that is held outside of the pool. -/
def holders (h : Heap) (k : Kind α) : List (Arc α) := h.live k ++ h.outside k

/-- The pooled values that the call or a snapshot holds. -/
def held (h : Heap) [DecidableEq α] (k : Kind α) : List α :=
  ((h.locals.toList.flatMap k.ofLocals ++ h.outside k).filter
    (· ∈ (k.pool h.pools).arcs)).map Arc.value

/-! ### Steps -/

/-- `apply_update` interns what its rows share. -/
def internShared (h : Heap) (sh : Shared) : Heap :=
  let path := h.pools.asPath.intern sh.asPath
  let communities := h.pools.communities.intern sh.communities
  let peer := h.pools.strings.intern sh.peer
  { h with
    pools := ⟨path.2, communities.2, peer.2⟩
    locals := some ⟨path.1, communities.1, peer.1, none⟩ }

/-- It interns the label of a group. -/
def internLabel (h : Heap) (l : Locals) (label : String) : Heap :=
  let afi := h.pools.strings.intern label
  { h with
    pools := { h.pools with strings := afi.2 }, locals := some { l with afi := some afi.1 } }

/-- What the next section of a call does to the arcs. -/
def turn (h : Heap) (c : Call) (peer : String) (w : Underway) : Heap :=
  match w.phase, h.locals with
  | .entering, _ => h.internShared (shared c.update peer)
  | .looping (.group label :: _), some l => h.internLabel l label
  | .looping (.route .announce _ _ :: _), some ⟨path, communities, peer, some afi⟩ =>
    { h with
      shares := Function.update h.shares (w.data.sequence + 1) ⟨path, communities, afi, peer⟩ }
  | _, _ => h

/-- `reclaim_memory`. -/
def reclaim (h : Heap) : Heap :=
  let held : Pool := ⟨h.held .asPath, h.held .communities, h.held .strings⟩
  { h with
    feed := match h.feed with
      | .idle d => .idle (d.reclaimMemory held)
      | .applying c peer w => .applying c peer { w with data := w.data.reclaimMemory held }
    pools := ⟨h.pools.asPath.collect (h.holders .asPath),
      h.pools.communities.collect (h.holders .communities),
      h.pools.strings.collect (h.holders .strings)⟩ }

/-- What can happen: `apply_update` is called, takes its turns, leaves the lock and is done; a
download takes its rows or drops them; the table is cleared; the memory is reclaimed. -/
inductive Event where
  | call
  | turn
  | leave
  | done
  | take
  | drop
  | clear
  | reclaim

variable (digest : Bytes → Vector UInt8 20)

/-- One section of the program, or a step of who holds shares outside of the lock. -/
inductive Step (h : Heap) : Event → Heap → Prop
  /-- `apply_update` is called -/
  | call {d : Data} (c : Call) (peer : String) : h.feed = .idle d →
      Step h .call { h with feed := .applying c peer ⟨d, ⟨[], []⟩, 0, .entering⟩ }
  /-- its next section -/
  | turn {c : Call} {peer : String} {w w' : Underway} : h.feed = .applying c peer w →
      w.next digest c.outside c.update peer = some w' →
      Step h .turn { h.turn c peer w with feed := .applying c peer w' }
  /-- the end of a group, or what comes behind it -/
  | leave {c : Call} {peer : String} {w : Underway} {l : Locals} : h.feed = .applying c peer w →
      h.locals = some l →
      (∀ kind label route todo, w.phase ≠ .looping (.route kind label route :: todo)) →
      Step h .leave { h with locals := some { l with afi := none } }
  /-- it returns -/
  | done {c : Call} {peer : String} {w : Underway} : h.feed = .applying c peer w →
      w.phase = .reporting [] → Step h .done { h with feed := .idle w.data, locals := none }
  /-- a snapshot of the rows is taken -/
  | take : Step h .take { h with snapshots := h.rows :: h.snapshots }
  /-- a snapshot is dropped -/
  | drop {before after : List (List Shares)} {snapshot : List Shares} :
      h.snapshots = before ++ snapshot :: after →
      Step h .drop { h with snapshots := before ++ after }
  /-- `clear`, with no call in progress -/
  | clear {d : Data} (instant : ℕ) : h.feed = .idle d →
      Step h .clear { h with feed := .idle (d.clear instant), pools := h.pools.reset }
  | reclaim : Step h .reclaim h.reclaim

/-- The arcs of the whole program. -/
def system : System Heap Event where
  init := fun h => ∃ output shares, h = ⟨.idle (Data.new output), .empty, shares, none, []⟩
  step := Step digest

end Heap

/-! ### Groups -/

/-- The routes that are left to be applied are those of the label that the call holds. -/
def Grouped : Option String → List UpdateStep → Prop
  | _, [] => True
  | _, .group label :: todo => Grouped (some label) todo
  | current, .route _ label _ :: todo => current = some label ∧ Grouped current todo

/-- The steps start with a group. -/
def Fresh (todo : List UpdateStep) : Prop := ∀ current, Grouped current todo

/-- Steps with their own labels are fresh one after the other. -/
theorem Fresh.flatMap {β : Type} {f : β → List UpdateStep}
    (hf : ∀ b rest, Fresh rest → Fresh (f b ++ rest)) {rest : List UpdateStep} (h : Fresh rest)
    (l : List β) : Fresh (l.flatMap f ++ rest) := by
  induction l with
  | nil => exact h
  | cons b l ih =>
    rw [List.flatMap_cons, List.append_assoc]
    exact hf b _ ih

/-- A group interns its label before its routes use it. -/
theorem fresh_group (kind : UpdateKind) (g : String × List Json) {rest : List UpdateStep}
    (h : Fresh rest) : Fresh (.group g.1 :: g.2.map (.route kind g.1) ++ rest) := by
  -- behind the label come its own routes only, and then the next group
  have hroutes : ∀ rs : List Json, Grouped (some g.1) (rs.map (.route kind g.1) ++ rest) := by
    intro rs
    induction rs with
    | nil => exact h (some g.1)
    | cons r rs ih => exact ⟨rfl, ih⟩
  exact fun _ => hroutes g.2

theorem fresh_updateSteps (update : Json) : Fresh (updateSteps update) := by
  have hnil : Fresh [] := fun _ => trivial
  have hkind : ∀ kind rest, Fresh rest → Fresh ((groups update kind).flatMap
      (fun g => .group g.1 :: g.2.map (.route kind g.1)) ++ rest) := fun kind rest hrest =>
    hrest.flatMap (fun g _ => fresh_group kind g) (groups update kind)
  have h := hnil.flatMap hkind [UpdateKind.announce, .withdraw]
  rwa [List.append_nil] at h

/-! ### What holds at any moment -/

namespace Heap

/-- What the call holds, in each of its phases. -/
def Fits (c : Call) (peer : String) : Phase → Option Locals → Prop
  | .entering, locals => locals = none
  | .looping todo, locals => ∃ l, locals = some l ∧
      l.asPath.value = (shared c.update peer).asPath ∧
      l.communities.value = (shared c.update peer).communities ∧ l.peer.value = peer ∧
      Grouped (l.afi.map Arc.value) todo
  | .reporting _, _ => True

/-- The arc of the label may go when the group has ended. -/
theorem Fits.leave {c : Call} {peer : String} {phase : Phase} {locals : Option Locals}
    {l : Locals} (hf : Fits c peer phase locals) (hl : locals = some l)
    (hphase : ∀ kind label route todo, phase ≠ .looping (.route kind label route :: todo)) :
    Fits c peer phase (some { l with afi := none }) := by
  cases phase with
  | entering => exact absurd (hl.symm.trans hf) (by simp)
  | looping todo =>
    obtain ⟨l', hl', hpath, hcomm, hpeer, hgroup⟩ := hf
    obtain rfl := Option.some.inj (hl.symm.trans hl')
    refine ⟨_, rfl, hpath, hcomm, hpeer, ?_⟩
    -- the next step is not a route, so the label is not needed
    cases todo with
    | nil => trivial
    | cons st todo =>
      cases st with
      | group label => exact hgroup
      | route kind label route => exact absurd rfl (hphase kind label route todo)
  | reporting kinds => trivial

/-- The rows and their shares say the same. -/
def Fit (h : Heap) : Prop :=
  match h.feed with
  | .idle _ => h.locals = none
  | .applying c peer w => Fits c peer w.phase h.locals

/-- The arcs of the rows and of the call are in the pool. -/
structure PoolInv {α : Type} (h : Heap) (k : Kind α) : Prop where
  sound : Sound (k.pool h.pools) (h.holders k)
  live : h.live k ⊆ (k.pool h.pools).arcs

/-- **The invariant of the heap.** -/
structure Inv (h : Heap) : Prop where
  consistent : Consistent h.feed.data
  /-- The values are those of the store. -/
  pool : h.feed.data.pool = h.pools.values
  fit : h.Fit
  agree : ∀ e ∈ h.feed.data.routes.entries, Agree (h.shares e.1) e.2
  asPath : h.PoolInv .asPath
  communities : h.PoolInv .communities
  strings : h.PoolInv .strings

section

variable {α : Type} {h h' : Heap} {k : Kind α}

/-- The rows with their shares are those of the store and of the shares. -/
theorem rows_congr (he : h'.feed.data.routes.entries = h.feed.data.routes.entries)
    (hs : h'.shares = h.shares) : h'.rows = h.rows := by
  rw [rows, rows, he, hs]

/-- What is alive is held by a row or by the call that is under way. -/
theorem live_congr (hr : h'.rows = h.rows) (hl : h'.locals = h.locals) :
    h'.live k = h.live k := by
  rw [live, live, hr, hl]

theorem ofLocals_subset_live {l : Locals} (hl : h.locals = some l) : k.ofLocals l ⊆ h.live k := by
  rw [live, hl, Option.toList_some, List.flatMap_singleton]
  exact List.subset_append_right _ _

/-- With the same rows, what is live is told by the locals. -/
theorem live_subset {arcs : List (Arc α)} (hr : h'.rows = h.rows) (hlive : h.live k ⊆ arcs)
    (hl : ∀ l, h'.locals = some l → k.ofLocals l ⊆ arcs) : h'.live k ⊆ arcs := by
  rw [live, hr]
  refine List.append_subset.mpr ⟨fun a ha => hlive (List.mem_append_left _ ha), fun a ha => ?_⟩
  obtain ⟨l, hmem, ha⟩ := List.mem_flatMap.mp ha
  exact hl l (Option.mem_toList.mp hmem) ha

/-- Arcs are let go, or held once more. -/
theorem PoolInv.of_subset (hi : h.PoolInv k) (hpool : k.pool h'.pools = k.pool h.pools)
    (hlive : h'.live k ⊆ h.live k) (hout : h'.outside k ⊆ h.holders k) : h'.PoolInv k := by
  refine ⟨?_, ?_⟩
  · rw [hpool]
    exact hi.sound.mono
      (List.append_subset.mpr ⟨List.Subset.trans hlive (List.subset_append_left _ _), hout⟩)
  · rw [hpool]
    exact List.Subset.trans hlive hi.live

/-- A value is interned, and its arc is held. -/
theorem PoolInv.intern [DecidableEq α] (hi : h.PoolInv k) {v : α}
    (hpool : k.pool h'.pools = ((k.pool h.pools).intern v).2)
    (hlive : h'.live k ⊆ ((k.pool h.pools).intern v).1 :: h.live k)
    (hout : h'.outside k = h.outside k) : h'.PoolInv k := by
  refine ⟨?_, ?_⟩
  · rw [hpool]
    refine (hi.sound.intern v).mono ?_
    rw [holders, hout]
    refine List.append_subset.mpr ⟨List.Subset.trans hlive ?_, ?_⟩
    · exact List.cons_subset_cons _ (List.subset_append_left _ _)
    · exact List.subset_cons_of_subset _ (List.subset_append_right _ _)
  · rw [hpool]
    refine List.Subset.trans hlive (List.cons_subset.mpr ⟨(Interning.intern_spec _ v).2, ?_⟩)
    -- whatever was live before is in the larger pool
    exact List.Subset.trans hi.live (Interning.subset_intern _ v)

/-- The pool is dropped when nothing is live. -/
theorem PoolInv.reset (hi : h.PoolInv k) (hpool : k.pool h'.pools = (k.pool h.pools).reset)
    (hlive : h'.live k = []) (hout : h'.outside k = h.outside k) : h'.PoolInv k := by
  refine ⟨?_, by rw [hlive]; exact List.nil_subset _⟩
  rw [hpool, holders, hlive, List.nil_append, hout]
  exact (hi.sound.mono (List.subset_append_right _ _)).reset

/-- **Collecting keeps what is live.** -/
theorem PoolInv.collect [DecidableEq α] (hi : h.PoolInv k)
    (hpool : k.pool h'.pools = (k.pool h.pools).collect (h.holders k))
    (hlive : h'.live k = h.live k) (hout : h'.outside k = h.outside k) : h'.PoolInv k := by
  refine ⟨?_, fun a ha => ?_⟩
  · have hholders : h'.holders k = h.holders k := by rw [holders, holders, hlive, hout]
    rw [hpool, hholders]
    exact hi.sound.collect
  · rw [hpool, Interning.mem_collect_iff hi.sound]
    rw [hlive] at ha
    exact ⟨hi.live ha, List.mem_append_left _ ha⟩

end

/-! ### The sections of a call -/

/-- A route that is applied leaves the pool of the data alone. -/
theorem applyRoute_pool {d d' : Data} (hc : Consistent d) {op : RouteOp} {instant : ℕ}
    {existed : Bool} (hr : d.applyRoute op instant = some (d', existed)) : d'.pool = d.pool := by
  obtain ⟨d₁, hrem, hop⟩ := applyRoute_eq_some_iff.mp hr
  obtain ⟨hcases, hi, hc'⟩ := remove_cases hc.indexed hc.counted hrem
  -- neither the removal nor the insertion of a row interns anything
  have hremoved : d₁.pool = d.pool := by
    rcases hcases with ⟨-, rfl⟩ | ⟨c, a, s, -, rfl⟩ <;> rfl
  cases hk : op.kind with
  | withdraw =>
    simp only [hk] at hop
    rw [hop, hremoved]
  | announce =>
    simp only [hk] at hop
    obtain ⟨c, a, hins, -⟩ := insert_spec hi hc' op.entry instant
    rw [hop] at hins
    rw [Option.some.inj hins, ← hremoved]
    rfl

theorem reportBatch_frame {o : Outside} {update : Json} {b : Batches} {d d' : Data}
    {kind : UpdateKind} (hr : reportBatch o update b d kind = some d') :
    d'.pool = d.pool ∧ d'.routes = d.routes := by
  unfold reportBatch at hr
  split_ifs at hr
  · rw [Option.some.inj hr]
    exact ⟨rfl, rfl⟩
  · obtain ⟨history, bytes, rfl⟩ := record_frame hr
    exact ⟨rfl, rfl⟩

/-- Who holds a share outside of the store is a holder. -/
theorem outside_subset_holders {α : Type} (h : Heap) (k : Kind α) : h.outside k ⊆ h.holders k :=
  List.subset_append_right (h.live k) _

/-- **The pools stay**, and what is held is what was held before, or less. -/
theorem Inv.of_subset {h h' : Heap} (hi : h.Inv) (hpools : h'.pools = h.pools)
    (hc : Consistent h'.feed.data) (hp : h'.feed.data.pool = h.feed.data.pool) (hfit : h'.Fit)
    (ha : ∀ e ∈ h'.feed.data.routes.entries, Agree (h'.shares e.1) e.2)
    (hlive : ∀ {α : Type} (k : Kind α), h'.live k ⊆ h.live k)
    (hout : ∀ {α : Type} (k : Kind α), h'.outside k ⊆ h.holders k) : h'.Inv where
  consistent := hc
  pool := by rw [hp, hi.pool, hpools]
  fit := hfit
  agree := ha
  asPath := hi.asPath.of_subset (by rw [hpools]) (hlive _) (hout _)
  communities := hi.communities.of_subset (by rw [hpools]) (hlive _) (hout _)
  strings := hi.strings.of_subset (by rw [hpools]) (hlive _) (hout _)

/-- Data with the same rows and pooled values. -/
theorem Inv.of_feed {h : Heap} (hi : h.Inv) {feed : Feed} (hc : Consistent feed.data)
    (hp : feed.data.pool = h.feed.data.pool)
    (he : feed.data.routes.entries = h.feed.data.routes.entries)
    (hfit : Fit { h with feed := feed }) : Inv { h with feed := feed } := by
  refine hi.of_subset rfl hc hp hfit (fun e hmem => hi.agree e (he ▸ hmem)) (fun k => ?_)
    (outside_subset_holders h)
  have hsame : live { h with feed := feed } k = h.live k := live_congr (rows_congr he rfl) rfl
  rw [hsame]
  exact List.Subset.refl _

/-- The pools of the heap have the values of those of the data. -/
theorem values_intern {α : Type} [DecidableEq α] (p : ArcPool α) (v : α) :
    (p.intern v).2.values = Rib.intern v p.values :=
  Interning.values_intern p v

/-- **The first section of a call.** -/
theorem Inv.internShared {h : Heap} (hi : h.Inv) {c : Call} {peer : String} {w w' : Underway}
    (hw : h.feed = .applying c peer w)
    (hw' : w' = { w with
      data := w.data.internShared (shared c.update peer)
      phase := .looping (updateSteps c.update) }) :
    Inv { h.internShared (shared c.update peer) with feed := .applying c peer w' } := by
  obtain ⟨hc, hp, -, ha, hpaths, hcomm, hstr⟩ := hi
  rw [hw, Feed.data] at hc hp ha
  subst hw'
  -- no row changes, so the rows hold what they held
  have hrows : ∀ feed : Feed, feed.data.routes = w.data.routes →
      rows { h.internShared (shared c.update peer) with feed := feed } = h.rows := by
    intro feed hfeed
    exact rows_congr (by rw [hw, Feed.data, ← hfeed]) rfl
  refine ⟨hc.of_eq rfl rfl, ?_, ?_, ha, ?_, ?_, ?_⟩
  · -- the store has interned the same three values
    show (w.data.internShared _).pool = Pools.values ⟨_, _, _⟩
    rw [Pools.values, values_intern, values_intern, values_intern, Data.internShared, hp]
    rfl
  · exact ⟨_, rfl, (Interning.intern_spec _ _).1, (Interning.intern_spec _ _).1,
      (Interning.intern_spec _ _).1, fresh_updateSteps _ _⟩
  · refine hpaths.intern (v := (shared c.update peer).asPath) rfl
      (live_subset (hrows _ rfl) (List.subset_cons_self _ _) ?_) rfl
    rintro l hl
    obtain rfl := Option.some.inj hl
    exact List.subset_append_left [_] _
  · refine hcomm.intern (v := (shared c.update peer).communities) rfl
      (live_subset (hrows _ rfl) (List.subset_cons_self _ _) ?_) rfl
    rintro l hl
    obtain rfl := Option.some.inj hl
    exact List.subset_append_left [_] _
  · refine hstr.intern (v := (shared c.update peer).peer) rfl
      (live_subset (hrows _ rfl) (List.subset_cons_self _ _) ?_) rfl
    rintro l hl
    obtain rfl := Option.some.inj hl
    exact List.subset_append_left [_] _

/-- **The section of a group.** -/
theorem Inv.internLabel {h : Heap} (hi : h.Inv) {c : Call} {peer label : String} {w w' : Underway}
    {l : Locals} {todo : List UpdateStep} (hw : h.feed = .applying c peer w)
    (hphase : w.phase = .looping (.group label :: todo)) (hl : h.locals = some l)
    (hw' : w' = { w with data := w.data.internLabel label, phase := .looping todo }) :
    Inv { h.internLabel l label with feed := .applying c peer w' } := by
  obtain ⟨hc, hp, hfit, ha, hpaths, hcomm, hstr⟩ := hi
  rw [hw, Feed.data] at hc hp ha
  subst hw'
  rw [Fit, hw] at hfit
  simp only [hphase, Fits, hl] at hfit
  obtain ⟨l', hl', hpath, hcommunities, hpeer, hgroup⟩ := hfit
  obtain rfl := Option.some.inj hl'
  have hrows : rows { h.internLabel l label with
      feed := .applying c peer { w with
        data := w.data.internLabel label, phase := .looping todo } } = h.rows :=
    rows_congr (by rw [hw]; rfl) rfl
  refine ⟨hc.of_eq rfl rfl, ?_, ?_, ha, ?_, ?_, ?_⟩
  · show (w.data.internLabel label).pool = Pools.values ⟨_, _, _⟩
    rw [Pools.values, values_intern, Data.internLabel, hp]
    rfl
  · refine ⟨_, rfl, hpath, hcommunities, hpeer, ?_⟩
    show Grouped (some (h.pools.strings.intern label).1.value) todo
    rw [(Interning.intern_spec _ _).1]
    exact hgroup
  · -- of these two pools the call holds what it held before
    refine hpaths.of_subset rfl (live_subset hrows (List.Subset.refl _) ?_)
      (List.subset_append_right (h.live _) _)
    rintro l' hl'
    obtain rfl := Option.some.inj hl'
    have hmine : Kind.asPath.ofLocals l ⊆ h.live .asPath := ofLocals_subset_live hl
    exact hmine
  · refine hcomm.of_subset rfl (live_subset hrows (List.Subset.refl _) ?_)
      (List.subset_append_right (h.live _) _)
    rintro l' hl'
    obtain rfl := Option.some.inj hl'
    have hmine : Kind.communities.ofLocals l ⊆ h.live .communities := ofLocals_subset_live hl
    exact hmine
  · refine hstr.intern (v := label) rfl
      (live_subset hrows (List.subset_cons_self _ _) ?_) rfl
    rintro l' hl'
    obtain rfl := Option.some.inj hl'
    have hpeer := ofLocals_subset_live (k := .strings) hl List.mem_cons_self
    simpa [Kind.strings] using Or.inr hpeer

/-- A call keeps what it holds while it takes a route through the store, and an announced
row gets its arcs from there. -/
theorem turn_route {h : Heap} {c : Call} {peer : String} {w : Underway} {kind : UpdateKind}
    {label : String} {route : Json} {todo : List UpdateStep} {l : Locals} {afi : Arc String}
    (hphase : w.phase = .looping (.route kind label route :: todo)) (hl : h.locals = some l)
    (hafi : l.afi = some afi) :
    h.turn c peer w = { h with
      shares := if kind = .announce
        then Function.update h.shares (w.data.sequence + 1) (l.shares afi) else h.shares } := by
  obtain ⟨path, communities, p, _⟩ := l
  obtain rfl : _ = some afi := hafi
  -- only an announced route moves the arcs of the call to a row
  cases kind with
  | announce =>
    unfold turn
    rw [hphase, hl]
    rfl
  | withdraw =>
    rw [if_neg (by simp)]
    show _ = h
    unfold turn
    rw [hphase, hl]

theorem agree_entryOf {s : Shares} {sh : Shared} {label : String}
    (hpath : s.asPath.value = sh.asPath) (hcomm : s.communities.value = sh.communities)
    (hafi : s.afi.value = label) (hpeer : s.peer.value = sh.peer) (id receivedAt : String)
    (route : Json) : Agree s (entryOf sh id receivedAt label route) := by
  unfold entryOf
  cases familyOf label <;> exact ⟨hpath, hcomm, hafi, hpeer⟩

/-- **The section of a route.** -/
theorem Inv.route {h : Heap} (hi : h.Inv) {c : Call} {peer : String} {w w' : Underway}
    {kind : UpdateKind} {label : String} {route : Json} {todo : List UpdateStep} {existed : Bool}
    (hw : h.feed = .applying c peer w)
    (hphase : w.phase = .looping (.route kind label route :: todo))
    (hroute : w.data.applyRoute (routeOp digest c.update peer kind label route
      (c.outside.now w.applied)) (c.outside.instant w.applied) = some (w'.data, existed))
    (hc' : Consistent w'.data) (hphase' : w'.phase = .looping todo) :
    Inv { h.turn c peer w with feed := .applying c peer w' } := by
  have hc := hi.consistent
  have ha := hi.agree
  have hfit := hi.fit
  have hrows : h.rows = w.data.routes.entries.map fun e => h.shares e.1 := by
    rw [rows, hw, Feed.data]
  rw [hw, Feed.data] at hc ha
  rw [Fit, hw] at hfit
  simp only [hphase, Fits] at hfit
  obtain ⟨l, hl, hpath, hcommunities, hpeer, hlabel, hrest⟩ := hfit
  obtain ⟨afi, hafi, hvalue⟩ := Option.map_eq_some_iff.mp hlabel
  rw [turn_route hphase hl hafi]
  set shares := if kind = .announce
    then Function.update h.shares (w.data.sequence + 1) (l.shares afi) else h.shares with hshares
  -- a row is an old one with its arcs, or the new one with those of the call
  have hcases : ∀ e ∈ w'.data.routes.entries,
      (e ∈ w.data.routes.entries ∧ shares e.1 = h.shares e.1) ∨
        Agree (l.shares afi) e.2 ∧ shares e.1 = l.shares afi := by
    intro e he
    rw [applyRoute_entries hc hroute] at he
    rcases List.mem_append.mp he with he | he
    · have hmem := (List.mem_filter.mp he).1
      refine Or.inl ⟨hmem, ?_⟩
      -- its number is not the next one
      have hbound := hc.indexed.bound e.1 e.2 (w.data.routes.mem_entries_iff.mp hmem)
      rw [hshares]
      split_ifs
      · exact Function.update_of_ne (by omega) _ _
      · rfl
    · -- the row under the next number is that of an announced route
      split_ifs at he with hk
      · obtain rfl := List.mem_singleton.mp he
        refine Or.inr ⟨agree_entryOf hpath hcommunities hvalue hpeer _ _ _, ?_⟩
        rw [hshares, if_pos (show kind = .announce from hk)]
        exact Function.update_self _ _ _
      · exact absurd he List.not_mem_nil
  -- the rows and the call hold no arc that they did not hold before
  have hlive : ∀ {α : Type} (k : Kind α),
      live { h with shares := shares, feed := .applying c peer w' } k ⊆ h.live k := by
    intro α k
    rw [live]
    refine List.append_subset.mpr ⟨fun a ha => ?_, List.subset_append_right _ _⟩
    obtain ⟨s, hs, ha⟩ := List.mem_flatMap.mp ha
    obtain ⟨e, he, rfl⟩ := List.mem_map.mp hs
    rcases hcases e he with ⟨hmem, hsame⟩ | ⟨-, hnew⟩
    · refine List.mem_append_left _ (List.mem_flatMap.mpr ⟨h.shares e.1, ?_, hsame ▸ ha⟩)
      rw [hrows]
      exact List.mem_map.mpr ⟨e, hmem, rfl⟩
    · exact ofLocals_subset_live hl (k.ofShares_shares l afi hafi (hnew ▸ ha))
  refine hi.of_subset rfl hc' ?_ ?_ (fun e he => ?_) hlive (outside_subset_holders h)
  · rw [hw]
    exact applyRoute_pool hc hroute
  · show Fits c peer w'.phase h.locals
    rw [hphase']
    exact ⟨l, hl, hpath, hcommunities, hpeer, hrest⟩
  · show Agree (shares e.1) e.2
    rcases hcases e he with ⟨hmem, hsame⟩ | ⟨hagree, hnew⟩
    · rw [hsame]
      exact ha e hmem
    · rwa [hnew]

/-- A section that is no step of the loop has no arcs of its own. -/
theorem turn_of_not_step {h : Heap} {c : Call} {peer : String} {w : Underway}
    (hentering : w.phase ≠ .entering) (hstep : ∀ st todo, w.phase ≠ .looping (st :: todo)) :
    h.turn c peer w = h := by
  unfold turn
  split
  next _ hphase => exact absurd hphase hentering
  next hphase _ => exact absurd hphase (hstep _ _)
  next hphase _ => exact absurd hphase (hstep _ _)
  next => rfl

/-- **The next section of a call.** -/
theorem Inv.turn {h : Heap} (hi : h.Inv) {c : Call} {peer : String} {w w' : Underway}
    (hw : h.feed = .applying c peer w) (hn : w.next digest c.outside c.update peer = some w') :
    Inv { h.turn c peer w with feed := .applying c peer w' } := by
  have hc := hi.consistent
  rw [hw, Feed.data] at hc
  have hfit : Fits c peer w.phase h.locals := by
    have hfit := hi.fit
    rwa [Fit, hw] at hfit
  -- by phase of the call: entering, looping or reporting
  cases next_cases hc hn with
  | entering hphase =>
    have hturn : h.turn c peer w = h.internShared (shared c.update peer) := by
      unfold Heap.turn
      rw [hphase]
    rw [hturn]
    exact hi.internShared hw rfl
  | looped hphase =>
    rw [turn_of_not_step (by simp [hphase]) (by simp [hphase])]
    exact hi.of_feed hc (by rw [hw]; rfl) (by rw [hw]; rfl) trivial
  | @group label todo hphase =>
    rw [hphase] at hfit
    obtain ⟨l, hl, -⟩ := hfit
    have hturn : h.turn c peer w = h.internLabel l label := by
      unfold Heap.turn
      rw [hphase, hl]
    rw [hturn]
    exact hi.internLabel hw hphase hl rfl
  | route hphase hroute hc' => exact hi.route hw hphase hroute hc' rfl
  | report hphase hr hc' _ =>
    rw [turn_of_not_step (by simp [hphase]) (by simp [hphase])]
    -- a report touches neither the rows nor the pool
    obtain ⟨hpool, hroutes⟩ := reportBatch_frame hr
    refine hi.of_feed hc' ?_ ?_ trivial
    · rw [hw]
      exact hpool
    · rw [hw]
      exact congrArg OrdMap.entries hroutes

/-! ### Reclaiming -/

/-- **Who holds an arc of the pool, by its value**: a row has it, or it is held besides. -/
theorem mem_holders_iff {α : Type} [DecidableEq α] {h : Heap} {k : Kind α} (hi : h.PoolInv k)
    (ha : ∀ e ∈ h.feed.data.routes.entries, Agree (h.shares e.1) e.2) {a : Arc α}
    (hmem : a ∈ (k.pool h.pools).arcs) :
    ((∃ r ∈ h.feed.data.routes.values, a.value ∈ k.ofRoute r) ∨ a.value ∈ h.held k) ↔
      a ∈ h.holders k := by
  -- two arcs of the pool with one value are one
  have hone : ∀ b ∈ (k.pool h.pools).arcs, b.value = a.value → b = a :=
    fun b hb hv => hi.sound.eq_of_value hb hmem hv
  constructor
  · rintro (⟨r, hr, hv⟩ | hv)
    · obtain ⟨e, he, rfl⟩ := List.mem_map.mp hr
      rw [k.ofRoute_eq _ _ (ha e he)] at hv
      obtain ⟨b, hb, hv⟩ := List.mem_map.mp hv
      have hlive : b ∈ h.live k := List.mem_append_left _
        (List.mem_flatMap.mpr ⟨h.shares e.1, List.mem_map.mpr ⟨e, he, rfl⟩, hb⟩)
      rw [← hone b (hi.live hlive) hv]
      exact List.mem_append_left _ hlive
    · obtain ⟨b, hb, hv⟩ := List.mem_map.mp hv
      obtain ⟨hb, hpool⟩ := List.mem_filter.mp hb
      rw [← hone b (of_decide_eq_true hpool) hv]
      rcases List.mem_append.mp hb with hb | hb
      · exact List.mem_append_left _ (List.mem_append_right _ hb)
      · exact List.mem_append_right _ hb
  · -- conversely a holder is a row, the call under way or a clone
    intro hholds
    have hheld : a ∈ h.locals.toList.flatMap k.ofLocals ++ h.outside k → a.value ∈ h.held k :=
      fun hb => List.mem_map.mpr ⟨a, List.mem_filter.mpr ⟨hb, decide_eq_true hmem⟩, rfl⟩
    rcases List.mem_append.mp hholds with hlive | hout
    · rcases List.mem_append.mp hlive with hrow | hlocal
      · obtain ⟨s, hs, hb⟩ := List.mem_flatMap.mp hrow
        obtain ⟨e, he, rfl⟩ := List.mem_map.mp hs
        refine Or.inl ⟨e.2, List.mem_map.mpr ⟨e, he, rfl⟩, ?_⟩
        rw [k.ofRoute_eq _ _ (ha e he)]
        exact List.mem_map.mpr ⟨a, hb, rfl⟩
      · exact Or.inr (hheld (List.mem_append_left _ hlocal))
    · exact Or.inr (hheld (List.mem_append_right _ hout))

/-- The store is told by `held` which values stay. -/
theorem reclaim_data (h : Heap) : h.reclaim.feed.data
    = h.feed.data.reclaimMemory ⟨h.held .asPath, h.held .communities, h.held .strings⟩ := by
  unfold reclaim
  cases h.feed <;> rfl

/-- **Reclaiming by the strong counts** is reclaiming by the values. -/
theorem Inv.reclaim {h : Heap} (hi : h.Inv) : h.reclaim.Inv := by
  obtain ⟨hc, hp, hfit, ha, hpaths, hcomm, hstr⟩ := hi
  -- reclaiming drops pool entries only
  have hrows : h.reclaim.rows = h.rows := rows_congr (by rw [reclaim_data]; rfl) rfl
  refine ⟨?_, ?_, ?_, ?_, ?_, ?_, ?_⟩
  · rw [reclaim_data]
    exact hc.of_eq rfl rfl
  · -- what the counts keep in each of the pools is what the store keeps
    have hpath : (h.pools.asPath.collect (h.holders .asPath)).values
        = h.pools.asPath.values.filter fun v =>
          v ∈ h.feed.data.routes.values.map Route.asPath ∨ v ∈ h.held .asPath := by
      refine Interning.values_collect hpaths.sound fun a hmem => ?_
      rw [← mem_holders_iff hpaths ha hmem, List.mem_map]
      simp only [Kind.asPath, List.mem_singleton, eq_comm]
    have hcommunities : (h.pools.communities.collect (h.holders .communities)).values
        = h.pools.communities.values.filter fun v =>
          v ∈ h.feed.data.routes.values.map Route.communities ∨ v ∈ h.held .communities := by
      refine Interning.values_collect hcomm.sound fun a hmem => ?_
      rw [← mem_holders_iff hcomm ha hmem, List.mem_map]
      simp only [Kind.communities, List.mem_singleton, eq_comm]
    have hstrings : (h.pools.strings.collect (h.holders .strings)).values
        = h.pools.strings.values.filter fun v => v ∈ h.feed.data.routes.values.map Route.afi ∨
          v ∈ h.feed.data.routes.values.map Route.peer ∨ v ∈ h.held .strings := by
      refine Interning.values_collect hstr.sound fun a hmem => ?_
      rw [← mem_holders_iff hstr ha hmem, List.mem_map, List.mem_map, ← or_assoc]
      simp only [Kind.strings, List.mem_cons, List.not_mem_nil, or_false, and_or_left,
        exists_or, eq_comm]
    rw [reclaim_data]
    show Pool.collect _ _ _ = Pools.values ⟨_, _, _⟩
    rw [Pool.collect, hp, Pools.values, Pools.values, hpath, hcommunities, hstrings]
  · unfold Fit at hfit ⊢
    unfold Heap.reclaim
    cases hfeed : h.feed with
    | idle d =>
      rw [hfeed] at hfit
      exact hfit
    | applying c peer w =>
      rw [hfeed] at hfit
      exact hfit
  · rw [reclaim_data]
    exact ha
  · exact hpaths.collect rfl (live_congr hrows rfl) rfl
  · exact hcomm.collect rfl (live_congr hrows rfl) rfl
  · exact hstr.collect rfl (live_congr hrows rfl) rfl

/-! ### Whole runs -/

/-- **The end of a group**: the arc of its label is let go. -/
theorem Inv.leave {h : Heap} (hi : h.Inv) {c : Call} {peer : String} {w : Underway} {l : Locals}
    (hw : h.feed = .applying c peer w) (hl : h.locals = some l)
    (hphase : ∀ kind label route todo, w.phase ≠ .looping (.route kind label route :: todo)) :
    Inv { h with locals := some { l with afi := none } } := by
  refine hi.of_subset rfl hi.consistent rfl ?_ hi.agree (fun k => ?_) (outside_subset_holders h)
  · have hfit := hi.fit
    rw [Fit, hw] at hfit
    show match h.feed with
      | .idle _ => some { l with afi := none } = none
      | .applying c peer w => Fits c peer w.phase (some { l with afi := none })
    rw [hw]
    exact hfit.leave hl hphase
  · refine live_subset (h := h) rfl (List.Subset.refl _) ?_
    rintro l' hl'
    -- the arc of the address family is the only one that goes
    obtain rfl := Option.some.inj hl'
    exact List.Subset.trans (k.ofLocals_leave l) (ofLocals_subset_live hl)

/-- **A call returns**, and lets go of what it holds. -/
theorem Inv.done {h : Heap} (hi : h.Inv) {c : Call} {peer : String} {w : Underway}
    (hw : h.feed = .applying c peer w) : Inv { h with feed := .idle w.data, locals := none } := by
  have hc := hi.consistent
  have ha := hi.agree
  rw [hw] at hc ha
  exact hi.of_subset rfl hc (by rw [hw]; rfl) rfl ha
    (fun k => live_subset (h := h) (rows_congr (by rw [hw]; rfl) rfl) (List.Subset.refl _)
      (by simp)) (outside_subset_holders h)

/-- **A snapshot** holds what the rows hold. -/
theorem Inv.take {h : Heap} (hi : h.Inv) : Inv { h with snapshots := h.rows :: h.snapshots } := by
  refine hi.of_subset rfl hi.consistent rfl hi.fit hi.agree (fun k => List.Subset.refl _)
    (fun k => ?_)
  rw [outside, List.flatten_cons, List.flatMap_append]
  exact List.append_subset.mpr
    ⟨fun a ha => List.mem_append_left _ (List.mem_append_left _ ha), outside_subset_holders h k⟩

/-- A download that ends lets go of its shares. -/
theorem Inv.drop {h : Heap} (hi : h.Inv) {before after : List (List Shares)}
    {snapshot : List Shares} (hsnap : h.snapshots = before ++ snapshot :: after) :
    Inv { h with snapshots := before ++ after } := by
  refine hi.of_subset rfl hi.consistent rfl hi.fit hi.agree (fun k => List.Subset.refl _)
    (fun k => List.Subset.trans ?_ (outside_subset_holders h k))
  rw [outside, outside, hsnap]
  simp

/-- **The pool is dropped** with the rows, and no call is in progress. -/
theorem Inv.clear {h : Heap} (hi : h.Inv) {d : Data} (hd : h.feed = .idle d) (instant : ℕ) :
    Inv { h with feed := .idle (d.clear instant), pools := h.pools.reset } := by
  obtain ⟨hc, -, hfit, -, hpaths, hcomm, hstr⟩ := hi
  rw [hd] at hc
  rw [Fit, hd] at hfit
  -- after a clear nothing is live: no row, and no call under way
  have hlive : ∀ {α : Type} (k : Kind α),
      live { h with feed := .idle (d.clear instant), pools := h.pools.reset } k = [] := by
    intro α k
    rw [live, show h.locals = none from hfit]
    rfl
  exact ⟨clear_consistent hc instant, rfl, hfit, fun e he => absurd he List.not_mem_nil,
    hpaths.reset rfl (hlive _) rfl, hcomm.reset rfl (hlive _) rfl, hstr.reset rfl (hlive _) rfl⟩

/-- **One step keeps the invariant.** -/
theorem Inv.step {h h' : Heap} {e : Event} (hi : h.Inv) (hs : Step digest h e h') : h'.Inv := by
  -- by step: only the turns of a call and the reclaim touch the pools
  cases hs with
  | call c peer hd =>
    have hfit := hi.fit
    have hc := hi.consistent
    rw [Fit, hd] at hfit
    rw [hd] at hc
    exact hi.of_feed hc (by rw [hd]; rfl) (by rw [hd]; rfl) hfit
  | turn hw hn => exact hi.turn hw hn
  | leave hw hl hphase => exact hi.leave hw hl hphase
  | done hw _ => exact hi.done hw
  | take => exact hi.take
  | drop hsnap => exact hi.drop hsnap
  | clear instant hd => exact hi.clear hd instant
  | reclaim => exact hi.reclaim

/-- The invariant holds of every reachable heap. -/
theorem reachable_inv {h : Heap} (hr : (system digest).Reachable h) : h.Inv := by
  refine System.Invariant.reachable ⟨?_, fun _ _ _ hi hs => hi.step hs⟩ hr
  rintro h ⟨output, shares, rfl⟩
  have hnil : ∀ {α : Type} (k : Kind α), Sound (ArcPool.empty : ArcPool α)
      (holders ⟨.idle (Data.new output), .empty, shares, none, []⟩ k) := fun _ =>
    Interning.sound_empty
  exact ⟨new_consistent output, rfl, rfl, fun e he => absurd he List.not_mem_nil,
    ⟨hnil _, List.nil_subset _⟩, ⟨hnil _, List.nil_subset _⟩, ⟨hnil _, List.nil_subset _⟩⟩

/-- The next sections of a call. -/
theorem turns_run {c : Call} {peer : String} {d₀ : Data} {w w' : Underway} {ts : List Turn}
    (hts : ∀ t ∈ ts, t = .update)
    (hr : (underway digest c.outside c.update peer d₀).Run w ts w') {h : Heap}
    (hw : h.feed = .applying c peer w) :
    ∃ h' es, (system digest).Run h es h' ∧ h'.feed = .applying c peer w' ∧
      h'.snapshots = h.snapshots := by
  -- by induction on the turns of the call
  induction hr with
  | nil => exact ⟨h, [], .nil, hw, rfl⟩
  | @snoc ts w' w'' t hr hs ih =>
    obtain ⟨h', es, hrun, hw', hsnap⟩ := ih fun t ht => hts t (List.mem_append_left _ ht)
    obtain rfl := hts t (List.mem_append_right _ (List.mem_singleton_self t))
    obtain ⟨hnext⟩ := hs
    -- a turn takes no snapshot
    have hkeep : (h'.turn c peer w').snapshots = h'.snapshots := by
      unfold Heap.turn
      split <;> rfl
    exact ⟨_, _, hrun.snoc (.turn hw' hnext), rfl, hkeep.trans hsnap⟩

/-- **A call that returns** is a run of the heap. -/
theorem call_run {h : Heap} {c : Call} {peer : String} {d d' : Data} (hd : h.feed = .idle d)
    (ha : applyUpdate digest c.outside c.update peer d = some d') :
    ∃ h' es, (system digest).Run h es h' ∧ h'.feed = .idle d' ∧ h'.snapshots = h.snapshots := by
  obtain ⟨ts, b, applied, hts, hr⟩ := applyUpdate_underway digest c.outside c.update peer ha
  have hcall : (system digest).step h .call
      { h with feed := .applying c peer ⟨d, ⟨[], []⟩, 0, .entering⟩ } := Step.call c peer hd
  obtain ⟨h', es, hrun, hw, hsnap⟩ := turns_run hts hr
    (h := { h with feed := .applying c peer ⟨d, ⟨[], []⟩, 0, .entering⟩ }) rfl
  exact ⟨_, _, ((System.Run.single hcall).append hrun).snoc (.done hw rfl), rfl, hsnap⟩

end Heap

/-- Every value of a row is pooled. -/
def Pooled (pool : Pool) (rows : List Route) : Prop :=
  ∀ r ∈ rows, r.asPath ∈ pool.asPath ∧ r.communities ∈ pool.communities ∧
    r.peer ∈ pool.strings ∧ r.afi ∈ pool.strings

/-- What is pooled is the values of the rows. -/
structure ExactPool (pool : Pool) (rows : List Route) : Prop where
  asPath : ∀ v, v ∈ pool.asPath ↔ ∃ r ∈ rows, r.asPath = v
  communities : ∀ v, v ∈ pool.communities ↔ ∃ r ∈ rows, r.communities = v
  strings : ∀ v, v ∈ pool.strings ↔ ∃ r ∈ rows, r.peer = v ∨ r.afi = v

/-- A row's values are pooled, whatever their kind. -/
theorem Heap.PoolInv.values {α : Type} {h : Heap} {k : Kind α} (hi : h.PoolInv k)
    (ha : ∀ e ∈ h.feed.data.routes.entries, Agree (h.shares e.1) e.2) {r : Route}
    (hr : r ∈ h.feed.data.routes.values) {v : α} (hv : v ∈ k.ofRoute r) :
    v ∈ (k.pool h.pools).values := by
  obtain ⟨e, he, rfl⟩ := List.mem_map.mp hr
  rw [k.ofRoute_eq _ _ (ha e he)] at hv
  obtain ⟨a, hmem, rfl⟩ := List.mem_map.mp hv
  refine List.mem_map.mpr ⟨a, hi.live (List.mem_append_left _ ?_), rfl⟩
  exact List.mem_flatMap.mpr ⟨h.shares e.1, List.mem_map.mpr ⟨e, he, rfl⟩, hmem⟩

/-- Behind a `reclaim_memory` with no other holders, what is pooled is of a row. -/
theorem Heap.PoolInv.of_collect {α : Type} [DecidableEq α] {h : Heap} {k : Kind α}
    (hi : h.PoolInv k) (ha : ∀ e ∈ h.feed.data.routes.entries, Agree (h.shares e.1) e.2)
    (hl : h.locals = none) (hs : h.snapshots = []) {v : α}
    (hv : v ∈ ((k.pool h.pools).collect (h.holders k)).values) :
    ∃ r ∈ h.feed.data.routes.values, v ∈ k.ofRoute r := by
  obtain ⟨a, hmem, rfl⟩ := List.mem_map.mp hv
  obtain ⟨hmem, hholds⟩ := (Interning.mem_collect_iff hi.sound).mp hmem
  refine ((Heap.mem_holders_iff hi ha hmem).mpr hholds).resolve_right fun hheld => ?_
  rw [Heap.held, Heap.outside, hl, hs] at hheld
  exact absurd hheld List.not_mem_nil

/-- **The pool has the values of the rows**, and behind a `reclaim_memory` with no snapshot
and no call in progress it has no others. Reference counts decide what is collected, and
`reclaim_memory` may come between any two sections. -/
theorem pool_exact {digest : Bytes → Vector UInt8 20} {h : Heap}
    (hr : (Heap.system digest).Reachable h) :
    h.feed.data.pool = h.pools.values ∧ Pooled h.feed.data.pool h.feed.data.routes.values ∧
      (h.snapshots = [] → (∃ d, h.feed = .idle d) → ∀ h', Heap.Step digest h .reclaim h' →
        ExactPool h'.feed.data.pool h'.feed.data.routes.values) := by
  -- every value of a row is in its pool
  have hpooled : ∀ {h : Heap}, h.Inv → Pooled h.feed.data.pool h.feed.data.routes.values := by
    intro h hi r hr
    rw [hi.pool]
    exact ⟨hi.asPath.values hi.agree hr (List.mem_singleton_self _),
      hi.communities.values hi.agree hr (List.mem_singleton_self _),
      hi.strings.values hi.agree hr (List.mem_cons_of_mem _ (List.mem_singleton_self _)),
      hi.strings.values hi.agree hr List.mem_cons_self⟩
  have hi := Heap.reachable_inv hr
  refine ⟨hi.pool, hpooled hi, ?_⟩
  rintro hs ⟨d, hd⟩ h' ⟨⟩
  -- between two calls nothing but the rows holds an arc
  have hl : h.locals = none := by
    have hfit := hi.fit
    rwa [Heap.Fit, hd] at hfit
  have hi' := hi.reclaim
  have hrows := hpooled hi'
  -- reclaiming leaves the rows as they are
  have hsame : h.reclaim.feed.data.routes = h.feed.data.routes := by rw [Heap.reclaim_data]; rfl
  refine ⟨fun v => ⟨fun hv => ?_, ?_⟩, fun v => ⟨fun hv => ?_, ?_⟩, fun v => ⟨fun hv => ?_, ?_⟩⟩
  · rw [hi'.pool] at hv
    rw [hsame]
    obtain ⟨r, hr, hv⟩ := hi.asPath.of_collect hi.agree hl hs hv
    exact ⟨r, hr, (List.mem_singleton.mp hv).symm⟩
  · rintro ⟨r, hr, rfl⟩
    exact (hrows r hr).1
  · rw [hi'.pool] at hv
    rw [hsame]
    obtain ⟨r, hr, hv⟩ := hi.communities.of_collect hi.agree hl hs hv
    exact ⟨r, hr, (List.mem_singleton.mp hv).symm⟩
  · rintro ⟨r, hr, rfl⟩
    exact (hrows r hr).2.1
  · rw [hi'.pool] at hv
    rw [hsame]
    obtain ⟨r, hr, hv⟩ := hi.strings.of_collect hi.agree hl hs hv
    rcases List.mem_cons.mp hv with hv | hv
    · exact ⟨r, hr, Or.inr hv.symm⟩
    · exact ⟨r, hr, Or.inl (List.mem_singleton.mp hv).symm⟩
  · rintro ⟨r, hr, rfl | rfl⟩
    · exact (hrows r hr).2.2.1
    · exact (hrows r hr).2.2.2

/-- A call, and `reclaim_memory` behind it. -/
theorem pool_exact_call : ∃ (h : Heap) (d : Data), h.feed = .idle d ∧
    applyUpdate sampleDigest firstCall.outside firstCall.update samplePeer (Data.new none)
      = some d ∧ ExactPool h.reclaim.feed.data.pool h.reclaim.feed.data.routes.values := by
  obtain ⟨d, -, ha, -, -⟩ := applyUpdate_run sampleDigest firstCall.outside firstCall.update
    samplePeer (new_consistent none)
  let h₀ : Heap := ⟨.idle (Data.new none), .empty, fun _ => ⟨⟨0, []⟩, ⟨0, []⟩, ⟨0, ""⟩, ⟨0, ""⟩⟩,
    none, []⟩
  have h₀r : (Heap.system sampleDigest).Reachable h₀ := .init ⟨none, _, rfl⟩
  obtain ⟨h, es, hrun, hd, hs⟩ := Heap.call_run (h := h₀) (c := firstCall) rfl ha
  exact ⟨h, d, hd, ha, (pool_exact (h₀r.run hrun)).2.2 hs ⟨d, hd⟩ _ .reclaim⟩

end Rib
