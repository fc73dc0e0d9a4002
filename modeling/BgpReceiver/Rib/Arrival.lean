import BgpReceiver.Rib.Listing
import BgpReceiver.Rib.Visibility

/-!
# Rows in the order of their arrival

A listing by `received_at` is not sorted. It is the rows in the order of their sequence
numbers, which is the order of the time stamps as long as the clock does not go back.

The calls of `apply_update` come one after the other, with `clear` at any moment between
their critical sections (`feed`). The label of a step is the time stamp that it takes, so
that the stamps of a run are the successive values of `now()`. A route's section removes
the row with its id and appends the new one (`applyRoute_values`): the stamps of the rows
are a part of the stamps of the run, in the same order (`feed_stamps`). Neither `clear`
nor a gap in the sequence numbers matters for that.

With a clock that does not go back the rows are therefore sorted, in every state of every
run, and the listing is what a stable sort returns (`arrival_sorted`).
-/

namespace Rib

open Paging (sortByKey)

/-! ### Calls and their sections -/

/-- The task that applies updates: between two calls, or in one. -/
inductive Feed where
  | idle (d : Data)
  | applying (c : Call) (peer : String) (w : Underway)

/-- The data, whatever is under way. -/
def Feed.data : Feed → Data
  | idle d => d
  | applying _ _ w => w.data

/-- The time stamp that the next section of an update takes. -/
def Underway.stamp (o : Outside) (w : Underway) : Option String :=
  match w.phase with
  | .looping (.route _ _ _ :: _) => some (o.now w.applied)
  | _ => none

section

variable (digest : Bytes → Vector UInt8 20)

/-- A call of `apply_update` comes, and is worked off section by section, with a new stamp for each
route. -/
inductive Feed.Step : Feed → Option String → Feed → Prop
  /-- `apply_update` is called -/
  | call (d : Data) (c : Call) (peer : String) :
      Step (.idle d) none (.applying c peer ⟨d, ⟨[], []⟩, 0, .entering⟩)
  /-- its next section -/
  | turn {c : Call} {peer : String} {w w' : Underway} :
      w.next digest c.outside c.update peer = some w' →
        Step (.applying c peer w) (w.stamp c.outside) (.applying c peer w')
  /-- it returns -/
  | done {c : Call} {peer : String} {w : Underway} :
      w.phase = .reporting [] → Step (.applying c peer w) none (.idle w.data)
  /-- `clear`, between two calls -/
  | clear (d : Data) (instant : ℕ) : Step (.idle d) none (.idle (d.clear instant))
  /-- `clear`, between two sections -/
  | clearWithin (c : Call) (peer : String) (w : Underway) (instant : ℕ) :
      Step (.applying c peer w) none (.applying c peer { w with data := w.data.clear instant })

/-- Any sequence of calls and `clear`s. -/
def feed : System Feed (Option String) where
  init := fun s => ∃ output, s = .idle (Data.new output)
  step := Feed.Step digest

end

variable {digest : Bytes → Vector UInt8 20} {o : Outside} {update : Json} {peer : String}

/-! ### A call is a run -/

/-- A section leaves the store alone, or it takes a route through it, and a time stamp. -/
theorem Underway.Next.stamp_cases {w w' : Underway} (h : w.Next digest o update peer w') :
    (w.stamp o = none ∧ w'.data.store = w.data.store ∧ w'.applied = w.applied) ∨
      ∃ kind label route todo existed, w.phase = .looping (.route kind label route :: todo) ∧
        w.stamp o = some (o.now w.applied) ∧ w'.applied = w.applied + 1 ∧
        w.data.applyRoute (routeOp digest update peer kind label route (o.now w.applied))
          (o.instant w.applied) = some (w'.data, existed) := by
  unfold Underway.stamp
  -- only the section that applies a route takes a stamp
  cases h with
  | entering hphase | looped hphase | group hphase =>
    rw [hphase]
    exact Or.inl ⟨rfl, rfl, rfl⟩
  | route hphase hroute _ =>
    rw [hphase]
    exact Or.inr ⟨_, _, _, _, _, rfl, rfl, rfl, hroute⟩
  | report hphase _ _ hs =>
    rw [hphase]
    exact Or.inl ⟨rfl, hs, rfl⟩

/-- The sections of a call, with the time stamps that they take in turn. -/
theorem feed_turns {c : Call} {d₀ : Data} {w w' : Underway} {ts : List Turn}
    (hts : ∀ t ∈ ts, t = .update)
    (hr : (underway digest c.outside c.update peer d₀).Run w ts w') (hc : Consistent w.data) :
    Consistent w'.data ∧ ∃ ls n, (feed digest).Run (.applying c peer w) ls (.applying c peer w') ∧
      w'.applied = w.applied + n ∧
      ls.reduceOption = (List.range' w.applied n).map c.outside.now := by
  induction hr with
  | nil => exact ⟨hc, [], 0, .nil, rfl, rfl⟩
  | @snoc ts w' w'' t hr hs ih =>
    obtain ⟨hc', ls, n, hrun, happlied, hstamps⟩ := ih fun t ht => hts t (List.mem_append_left _ ht)
    obtain rfl := hts t (List.mem_append_right _ (List.mem_singleton_self t))
    obtain ⟨hnext⟩ := hs
    have hsection := next_cases hc' hnext
    have hc'' := hsection.consistent hc'
    have hrun' := hrun.snoc (.turn hnext)
    -- a stamp is taken exactly when the count of the routes goes up
    rcases hsection.stamp_cases with ⟨hstamp, -, hn⟩ | ⟨-, -, -, -, -, -, hstamp, hn, -⟩
    · refine ⟨hc'', _, n, hrun', hn.trans happlied, ?_⟩
      rw [hstamp, List.reduceOption_append, hstamps, List.reduceOption_singleton,
        Option.toList_none, List.append_nil]
    · refine ⟨hc'', _, n + 1, hrun', by rw [hn, happlied, Nat.add_assoc], ?_⟩
      rw [hstamp, List.reduceOption_append, hstamps, List.reduceOption_singleton,
        Option.toList_some, List.range'_1_concat, List.map_append, happlied, List.map_singleton]

/-- **A call that returns is a run**, and its time stamps are the values of its clock, from
the first on. -/
theorem feed_call {c : Call} {d d' : Data} (hc : Consistent d)
    (h : applyUpdate digest c.outside c.update peer d = some d') :
    ∃ ls n, (feed digest).Run (.idle d) ls (.idle d') ∧
      ls.reduceOption = (List.range n).map c.outside.now := by
  obtain ⟨ts, b, applied, hts, hr⟩ := applyUpdate_underway digest c.outside c.update peer h
  obtain ⟨-, ls, n, hrun, -, hstamps⟩ := feed_turns hts hr hc
  have hcall : (feed digest).step (.idle d) none (.applying c peer ⟨d, ⟨[], []⟩, 0, .entering⟩) :=
    Feed.Step.call d c peer
  refine ⟨([none] ++ ls) ++ [none], n, ?_, ?_⟩
  · exact ((System.Run.single hcall).append hrun).snoc (.done rfl)
  · rw [List.reduceOption_append, List.reduceOption_append, hstamps, List.range_eq_range']
    simp

/-! ### The rows behind a section -/

/-- A row that is removed goes from the list of the rows. -/
theorem dropped_entries {d : Data} (hi : Indexed d) {counts : OrdMap String ℕ}
    {analytics : OrdMap String (OrdMap String ℕ)} {instant s : ℕ} {id : String}
    (hid : d.ids.find id = some s) :
    (d.dropped counts analytics instant id s).routes.entries
      = d.routes.entries.filter fun e => e.2.id ≠ id := by
  refine List.filter_congr fun e he => decide_eq_decide.mpr (not_congr ?_)
  -- the index leads both ways between the id and the number
  have hfind := d.routes.mem_entries_iff.mp he
  constructor
  · rintro rfl
    obtain ⟨r, hr, hrid⟩ := hi.row id _ hid
    rw [hfind] at hr
    rw [Option.some.inj hr]
    exact hrid
  · rintro rfl
    have hindex := hi.index _ _ hfind
    rw [hid] at hindex
    exact (Option.some.inj hindex).symm

/-- A removal takes the entry of its id out of the store, and leaves the sequence. -/
theorem remove_entries {d d₁ : Data} (h : Consistent d) {id : String} {instant : ℕ} {existed : Bool}
    (hr : d.remove id instant = some (d₁, existed)) :
    d₁.routes.entries = (d.routes.entries.filter fun e => e.2.id ≠ id) ∧
      d₁.sequence = d.sequence := by
  obtain ⟨⟨hid, rfl⟩ | ⟨c, a, s, hid, rfl⟩, -, -⟩ := remove_cases h.indexed h.counted hr
  · -- without the id in the index no row has it
    refine ⟨(List.filter_eq_self.mpr fun e he => decide_eq_true ?_).symm, rfl⟩
    rintro rfl
    rw [h.indexed.index e.1 e.2 (d₁.routes.mem_entries_iff.mp he)] at hid
    exact absurd hid (by simp)
  · exact ⟨dropped_entries h.indexed hid, rfl⟩

/-- **The section of a route, on the list of the rows**: the row with its id goes, and an
announced row comes last, under the next number. -/
theorem applyRoute_entries {d d' : Data} (h : Consistent d) {op : RouteOp} {instant : ℕ}
    {existed : Bool} (hr : d.applyRoute op instant = some (d', existed)) :
    d'.routes.entries = (d.routes.entries.filter fun e => e.2.id ≠ op.entry.id) ++
      if op.kind = .announce then [(d.sequence + 1, op.entry)] else [] := by
  -- a route is removed first, and then inserted if it is announced
  obtain ⟨d₁, hrem, hop⟩ := applyRoute_eq_some_iff.mp hr
  obtain ⟨hentries, hseq⟩ := remove_entries h hrem
  obtain ⟨-, hi, hc⟩ := remove_cases h.indexed h.counted hrem
  cases hk : op.kind with
  | withdraw =>
    simp only [hk] at hop
    rw [hop, hentries, if_neg (by simp), List.append_nil]
  | announce =>
    simp only [hk] at hop
    obtain ⟨c, a, hins, -⟩ := insert_spec hi hc op.entry instant
    rw [hop] at hins
    rw [Option.some.inj hins, if_pos rfl, ← hentries, ← hseq]
    exact d₁.routes.entries_insert_fresh fun s r hs => Nat.lt_succ_of_le (hi.bound s r hs)

/-- A route that is applied leaves its place, and an announced one goes to the end. -/
theorem applyRoute_values {d d' : Data} (h : Consistent d) {op : RouteOp} {instant : ℕ}
    {existed : Bool} (hr : d.applyRoute op instant = some (d', existed)) :
    d'.routes.values = (d.routes.values.filter fun r => r.id ≠ op.entry.id) ++
      if op.kind = .announce then [op.entry] else [] := by
  rw [OrdMap.values, applyRoute_entries h hr, List.map_append, OrdMap.values, List.filter_map]
  congr 1
  split_ifs <;> rfl

/-! ### Time stamps -/

/-- The time stamps of the rows, in the order of the sequence numbers. -/
def Data.stamps (d : Data) : List String := d.routes.values.map Route.receivedAt

theorem stamps_of_store_eq {d d' : Data} (h : d'.store = d.store) : d'.stamps = d.stamps := by
  simp only [Data.store, Prod.mk.injEq] at h
  rw [Data.stamps, h.1, Data.stamps]

/-- The stamps that are left are in the order of before, with a new one at the end. -/
theorem applyRoute_stamps {d d' : Data} (h : Consistent d) {op : RouteOp} {instant : ℕ}
    {existed : Bool} (hr : d.applyRoute op instant = some (d', existed)) :
    d'.stamps.Sublist (d.stamps ++ [op.entry.receivedAt]) := by
  rw [Data.stamps, applyRoute_values h hr, List.map_append]
  refine List.Sublist.append (List.filter_sublist.map _) ?_
  split_ifs
  · exact List.Sublist.refl _
  · exact List.nil_sublist _

/-- A route keeps the stamp that it was given. -/
theorem entryOf_receivedAt (sh : Shared) (id receivedAt label : String) (route : Json) :
    (entryOf sh id receivedAt label route).receivedAt = receivedAt := by
  unfold entryOf
  cases familyOf label <;> rfl

/-- **The stamps of the rows are stamps of the run, in its order.** -/
theorem feed_stamps {output : Option String} {ls : List (Option String)} {s : Feed}
    (hr : (feed digest).Run (.idle (Data.new output)) ls s) :
    Consistent s.data ∧ s.data.stamps.Sublist ls.reduceOption := by
  induction hr with
  | nil => exact ⟨new_consistent output, List.nil_sublist _⟩
  | @snoc ls s s' l hr hs ih =>
    obtain ⟨hc, hsub⟩ := ih
    rw [List.reduceOption_append]
    cases hs with
    | call d c peer => exact ⟨hc, hsub.trans (List.sublist_append_left _ _)⟩
    | turn hnext =>
      have hsection := next_cases hc hnext
      refine ⟨hsection.consistent hc, ?_⟩
      rcases hsection.stamp_cases
        with ⟨-, hstore, -⟩ | ⟨kind, label, route, todo, existed, -, hstamp, -, hroute⟩
      · -- the store is the old one, and no stamp is taken
        refine List.Sublist.trans ?_ (List.sublist_append_left _ _)
        rw [Feed.data, stamps_of_store_eq hstore]
        exact hsub
      · -- the new row is the last one, and so is its stamp
        have hstamps := applyRoute_stamps hc hroute
        rw [routeOp, entryOf_receivedAt] at hstamps
        rw [hstamp, List.reduceOption_singleton]
        exact hstamps.trans (hsub.append (List.Sublist.refl _))
    | done => exact ⟨hc, hsub.trans (List.sublist_append_left _ _)⟩
    | clear d instant => exact ⟨clear_consistent hc instant, List.nil_sublist _⟩
    | clearWithin c peer w instant => exact ⟨clear_consistent hc instant, List.nil_sublist _⟩

/-! ### The listing -/

/-- What the order of the rows is good for. -/
structure ArrivalFacts (digest : Bytes → Vector UInt8 20) (s : Feed) : Prop where
  /-- The rows are in the order of their time stamps. -/
  ordered : s.data.routes.values.Pairwise fun r r' => r.receivedAt ≤ r'.receivedAt
  /-- A route that is announced again moves to the end, with a new time stamp. -/
  last : ∀ c peer w label route todo w', s = .applying c peer w →
    w.phase = .looping (.route .announce label route :: todo) →
    w.next digest c.outside c.update peer = some w' →
    ∃ row, row.id = routeId digest peer (keyOf label route) ∧
      row.receivedAt = c.outside.now w.applied ∧
      w'.data.routes.values = (w.data.routes.values.filter fun r => r.id ≠ row.id) ++ [row]
  /-- The listing that is not sorted is the sorted one. -/
  listing : ∀ lower q f, q.column = "received_at" → q.order = some "asc" →
    listing lower s.data q f = sortByKey Route.receivedAt (selected s.data f) ∧
      (family q = .ok f → routes lower s.data q
        = .ok (pageResponse s.data q (sortByKey Route.receivedAt (selected s.data f))))

/-- **A listing by `received_at` needs no sorting.** When the successive values of `now()`
never decrease, the rows of every state are in the order of their time stamps, and the
listing by `received_at` is the stable sort by it. -/
theorem arrival_sorted {output : Option String} {ls : List (Option String)} {s : Feed}
    (hr : (feed digest).Run (.idle (Data.new output)) ls s)
    (hclock : ls.reduceOption.Pairwise (· ≤ ·)) : ArrivalFacts digest s := by
  obtain ⟨hc, hsub⟩ := feed_stamps hr
  have hordered : s.data.routes.values.Pairwise fun r r' => r.receivedAt ≤ r'.receivedAt :=
    List.pairwise_map.mp (hclock.sublist hsub)
  refine ⟨hordered, ?_, fun lower q f hcolumn horder => ?_⟩
  · rintro c peer w label route todo w' rfl hphase hnext
    rcases (next_cases hc hnext).stamp_cases
      with ⟨hstamp, -, -⟩ | ⟨kind, label', route', todo', existed, hphase', -, -, hroute⟩
    · rw [Underway.stamp, hphase] at hstamp
      exact absurd hstamp (by simp)
    · rw [hphase] at hphase'
      obtain ⟨⟨rfl, rfl, rfl⟩, rfl⟩ := by simpa using hphase'
      exact ⟨(routeOp digest c.update peer .announce label route (c.outside.now w.applied)).entry,
        entryOf_id _ _ _ _ _, entryOf_receivedAt _ _ _ _ _, applyRoute_values hc hroute⟩
  · -- a part of sorted rows is sorted, and a stable sort does nothing to it
    have hsorted : sortByKey Route.receivedAt (selected s.data f) = selected s.data f :=
      Paging.sortByKey_of_sorted (hordered.filter _)
    have hlisting : listing lower s.data q f = selected s.data f := (listing_asc horder).1 hcolumn
    rw [hsorted]
    exact ⟨hlisting, fun hf => hlisting ▸ routes_eq hf q.page⟩

/-- A call whose clock shows one time at first and another behind it. -/
def tickCall (first later : String) : Call :=
  ⟨{ sampleOutside with now := fun n => if n = 0 then first else later }, updateOf sampleBody 4⟩

/-- The time stamps of such a call do not decrease. -/
theorem tickCall_pairwise {first later : String} (h : first ≤ later) (n : ℕ) :
    ((List.range n).map (tickCall first later).outside.now).Pairwise (· ≤ ·) := by
  refine List.pairwise_map.mpr (List.pairwise_lt_range.imp ?_)
  intro i j hij
  change (if i = 0 then first else later) ≤ if j = 0 then first else later
  rw [if_neg (Nat.ne_of_gt (Nat.zero_lt_of_lt hij))]
  split_ifs
  · exact h
  · exact le_rfl

/-- Two routes, at two times. -/
def firstCall : Call := tickCall "12:00:00" "12:00:01"

/-- The same routes again, later. -/
def secondCall : Call := tickCall "12:00:02" "12:00:03"

/-- Two routes are announced, and announced again two seconds later. -/
theorem arrival_sorted_call : ∃ d₁ d₂,
    applyUpdate sampleDigest firstCall.outside firstCall.update samplePeer (Data.new none)
      = some d₁ ∧
    applyUpdate sampleDigest secondCall.outside secondCall.update samplePeer d₁ = some d₂ ∧
    d₂.stamps = ["12:00:02", "12:00:03"] ∧ ArrivalFacts sampleDigest (.idle d₂) := by
  have hnew := new_consistent none
  obtain ⟨d₁, -, h₁, -, hc₁⟩ := applyUpdate_run sampleDigest firstCall.outside firstCall.update
    samplePeer hnew
  obtain ⟨d₂, -, h₂, -, -⟩ := applyUpdate_run sampleDigest secondCall.outside secondCall.update
    samplePeer hc₁
  obtain ⟨ls₁, n₁, hrun₁, hstamps₁⟩ := feed_call hnew h₁
  obtain ⟨ls₂, n₂, hrun₂, hstamps₂⟩ := feed_call hc₁ h₂
  have hrows : (applyCalls sampleDigest samplePeer [firstCall, secondCall] (Data.new none)).map
      Data.stamps = some ["12:00:02", "12:00:03"] := by
    decide +kernel
  have hcalls : applyCalls sampleDigest samplePeer [firstCall, secondCall] (Data.new none)
      = some d₂ := by
    rw [applyCalls, List.foldlM_cons, h₁, Option.bind_eq_bind, Option.bind_some, List.foldlM_cons,
      h₂]
    rfl
  rw [hcalls] at hrows
  refine ⟨d₁, d₂, h₁, h₂, Option.some.inj hrows, arrival_sorted (hrun₁.append hrun₂) ?_⟩
  -- the second call is later than the first one
  rw [List.reduceOption_append, hstamps₁, hstamps₂]
  refine List.pairwise_append.mpr ⟨tickCall_pairwise (by decide) n₁,
    tickCall_pairwise (by decide) n₂, ?_⟩
  intro s hs s' hs'
  obtain ⟨i, -, rfl⟩ := List.mem_map.mp hs
  obtain ⟨j, -, rfl⟩ := List.mem_map.mp hs'
  change (if i = 0 then "12:00:00" else "12:00:01") ≤ if j = 0 then "12:00:02" else "12:00:03"
  split_ifs <;> decide

end Rib
