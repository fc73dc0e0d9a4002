import BgpReceiver.Rib.Refinement

/-!
# What readers see of an update in progress

`apply_update` takes the lock anew for every route, so that a reader may look at the store
at any moment in between: a listing, a search, an export or a flush, each of which copies
the rows in one critical section. Here an update takes turns with any number of readers,
and with other sections that leave the store alone (`underway`); what the readers saw is
kept in a history variable (`seen`).

A row is replaced inside of one section, and the new row has a new number. So an id that
the update does not withdraw is in every copy exactly once, under numbers that only grow:
the old row at first, and a row of the update from some moment on
(`seen_visible`).
-/

namespace Rib

/-! ### An update and its readers -/

/-- How far an update has come. -/
inductive Phase where
  | entering
  | looping (todo : List UpdateStep)
  | reporting (kinds : List UpdateKind)

/-- The data, as the other tasks see them while an update is applied, and what the update has still
to do. -/
structure Underway where
  data : Data
  batches : Batches
  applied : ℕ
  phase : Phase

/-- Whose turn it is: the next section of the update, a reader that copies the rows, or a section of
another task. -/
inductive Turn where
  /-- the next section of the update -/
  | update
  /-- a reader copies the rows -/
  | read
  /-- a section of another task -/
  | other (s : Section)

/-- What a reader copies: the rows with their numbers. -/
abbrev Copy : Type := List (ℕ × Route)

section

variable (digest : Bytes → Vector UInt8 20) (o : Outside) (update : Json) (peer : String)

/-- The next section of the update. -/
def Underway.next (w : Underway) : Option Underway :=
  match w.phase with
  | .entering =>
    some { w with
      data := w.data.internShared (shared update peer), phase := .looping (updateSteps update) }
  | .looping [] =>
    some { w with
      phase := .reporting
        (if o.announceFirst then [UpdateKind.announce, .withdraw] else [.withdraw, .announce]) }
  | .looping (st :: todo) =>
    (updateStep digest o update peer ⟨w.data, w.batches, w.applied⟩ st).map fun p =>
      ⟨p.data, p.batches, p.applied, .looping todo⟩
  | .reporting [] => none
  | .reporting (kind :: kinds) =>
    (reportBatch o update w.batches w.data kind).map fun d =>
      { w with data := d, phase := .reporting kinds }

/-- The steps of the tasks. -/
inductive Underway.Step (w : Underway) : Turn → Underway → Prop
  | update {w' : Underway} : w.next digest o update peer = some w' → Step w .update w'
  | read : Step w .read w
  | other {s : Section} {d' : Data} : s.run w.data = some d' → d'.store = w.data.store →
      Step w (.other s) { w with data := d' }

/-- An update that takes turns with readers. -/
def underway (d₀ : Data) : System Underway Turn where
  init := fun w => w = ⟨d₀, ⟨[], []⟩, 0, .entering⟩
  step := Underway.Step digest o update peer

/-- The update, and what its readers have seen, in order. -/
def seen (d₀ : Data) : System (Underway × List Copy) Turn :=
  (underway digest o update peer d₀).observe (fun _ copies => copies = [])
    fun copies w t _ =>
      match t with
      | .read => copies ++ [w.data.routes.entries]
      | _ => copies

/-- What the next section of an update is. -/
inductive Underway.Next (w : Underway) : Underway → Prop
  | entering : w.phase = .entering → Next w { w with
      data := w.data.internShared (shared update peer), phase := .looping (updateSteps update) }
  | looped {kinds : List UpdateKind} : w.phase = .looping [] →
      Next w { w with phase := .reporting kinds }
  | group {label : String} {todo : List UpdateStep} :
      w.phase = .looping (.group label :: todo) →
      Next w { w with data := w.data.internLabel label, phase := .looping todo }
  /-- a route is taken through the store -/
  | route {kind : UpdateKind} {label : String} {route : Json} {todo : List UpdateStep}
      {existed : Bool} {d' : Data} {b : Batches} :
      w.phase = .looping (.route kind label route :: todo) →
      w.data.applyRoute (routeOp digest update peer kind label route (o.now w.applied))
        (o.instant w.applied) = some (d', existed) →
      Consistent d' → Next w ⟨d', b, w.applied + 1, .looping todo⟩
  /-- the store is left alone -/
  | report {kind : UpdateKind} {kinds : List UpdateKind} {d' : Data} :
      w.phase = .reporting (kind :: kinds) →
      reportBatch o update w.batches w.data kind = some d' → Consistent d' →
      d'.store = w.data.store → Next w { w with data := d', phase := .reporting kinds }

variable {digest o update peer} in
/-- **Every section is one of these.** -/
theorem next_cases {w w' : Underway} (hc : Consistent w.data)
    (h : w.next digest o update peer = some w') : w.Next digest o update peer w' := by
  obtain ⟨d, b, n, phase⟩ := w
  -- by phase, each of which determines its next section
  cases phase with
  | entering =>
    obtain rfl := Option.some.inj h
    exact .entering rfl
  | looping todo =>
    cases todo with
    | nil =>
      obtain rfl := Option.some.inj h
      exact .looped rfl
    | cons st todo =>
      obtain ⟨p, hp, rfl⟩ := Option.map_eq_some_iff.mp h
      cases st with
      | group label =>
        obtain rfl := Option.some.inj hp
        exact .group rfl
      | route kind label route =>
        rw [updateStep, Option.bind_eq_bind, Option.bind_eq_some_iff] at hp
        obtain ⟨⟨d', existed⟩, hr, hp⟩ := hp
        obtain rfl := Option.some.inj hp
        -- a route is applied whatever the store, so the section does not fail
        obtain ⟨d'', existed', hr', hc'⟩ := applyRoute_consistent hc
          (routeOp digest update peer kind label route (o.now n)) (o.instant n)
        rw [hr] at hr'
        obtain ⟨rfl, -⟩ := Prod.mk.inj (Option.some.inj hr')
        exact .route rfl hr hc'
  | reporting kinds =>
    cases kinds with
    | nil => exact absurd h (by simp [Underway.next])
    | cons kind kinds =>
      obtain ⟨d', hd', rfl⟩ := Option.map_eq_some_iff.mp h
      -- a report is recorded whatever the history
      obtain ⟨d'', -, hr, -, hc', hs⟩ := reportBatch_run digest o update peer hc b kind
      rw [hd'] at hr
      obtain rfl := Option.some.inj hr
      exact .report rfl hd' hc' hs

variable {digest o update peer} in
/-- Every section keeps the data consistent. -/
theorem Underway.Next.consistent {w w' : Underway} (hc : Consistent w.data)
    (h : w.Next digest o update peer w') : Consistent w'.data := by
  cases h with
  | entering _ | group _ => exact hc.of_eq rfl rfl
  | looped _ => exact hc
  | route _ _ hc' | report _ _ hc' _ => exact hc'

/-! ### Alone, the turns are the update -/

/-- The loop of the call, section by section. -/
theorem loop_run (d₀ : Data) {steps : List UpdateStep} {p p' : Progress}
    (h : steps.foldlM (updateStep digest o update peer) p = some p') :
    ∃ ls, (∀ t ∈ ls, t = .update) ∧
      (underway digest o update peer d₀).Run ⟨p.data, p.batches, p.applied, .looping steps⟩ ls
        ⟨p'.data, p'.batches, p'.applied, .looping []⟩ := by
  -- step by step, with the progress general
  induction steps generalizing p with
  | nil =>
    obtain rfl := Option.some.inj h
    exact ⟨[], by simp, .nil⟩
  | cons st steps ih =>
    rw [List.foldlM_cons, Option.bind_eq_bind, Option.bind_eq_some_iff] at h
    obtain ⟨p₁, h₁, h⟩ := h
    obtain ⟨ls, hls, hr⟩ := ih h
    have hs : (underway digest o update peer d₀).step
        ⟨p.data, p.batches, p.applied, .looping (st :: steps)⟩ .update
        ⟨p₁.data, p₁.batches, p₁.applied, .looping steps⟩ := by
      refine .update ?_
      show (updateStep digest o update peer p st).map _ = _
      rw [h₁]
      rfl
    exact ⟨[.update] ++ ls, by simpa using hls, (System.Run.single hs).append hr⟩

theorem report_run (d₀ : Data) (b : Batches) (applied : ℕ) {kinds : List UpdateKind} {d d' : Data}
    (h : kinds.foldlM (reportBatch o update b) d = some d') :
    ∃ ls, (∀ t ∈ ls, t = .update) ∧
      (underway digest o update peer d₀).Run ⟨d, b, applied, .reporting kinds⟩ ls
        ⟨d', b, applied, .reporting []⟩ := by
  -- report by report, with the store general
  induction kinds generalizing d with
  | nil =>
    obtain rfl := Option.some.inj h
    exact ⟨[], by simp, .nil⟩
  | cons kind kinds ih =>
    rw [List.foldlM_cons, Option.bind_eq_bind, Option.bind_eq_some_iff] at h
    obtain ⟨d₁, h₁, h⟩ := h
    obtain ⟨ls, hls, hr⟩ := ih h
    have hs : (underway digest o update peer d₀).step ⟨d, b, applied, .reporting (kind :: kinds)⟩
        .update ⟨d₁, b, applied, .reporting kinds⟩ := by
      refine .update ?_
      show (reportBatch o update b d kind).map _ = _
      rw [h₁]
      rfl
    exact ⟨[.update] ++ ls, by simpa using hls, (System.Run.single hs).append hr⟩

/-- **`apply_update` is the run without readers.** -/
theorem applyUpdate_underway {d₀ d' : Data} (h : applyUpdate digest o update peer d₀ = some d') :
    ∃ ls b applied, (∀ t ∈ ls, t = .update) ∧
      (underway digest o update peer d₀).Run ⟨d₀, ⟨[], []⟩, 0, .entering⟩ ls
        ⟨d', b, applied, .reporting []⟩ := by
  unfold applyUpdate at h
  rw [Option.bind_eq_bind, Option.bind_eq_some_iff] at h
  obtain ⟨p, hp, hd'⟩ := h
  -- the loop and the reports are runs of the system
  obtain ⟨ls₁, hls₁, hr₁⟩ := loop_run digest o update peer d₀ hp
  obtain ⟨ls₂, hls₂, hr₂⟩ := report_run digest o update peer d₀ p.batches p.applied hd'
  -- two more sections: one before the loop, and one behind it
  have hs₁ : (underway digest o update peer d₀).step ⟨d₀, ⟨[], []⟩, 0, .entering⟩ .update
      ⟨d₀.internShared (shared update peer), ⟨[], []⟩, 0, .looping (updateSteps update)⟩ :=
    .update rfl
  have hs₂ : (underway digest o update peer d₀).step
      ⟨p.data, p.batches, p.applied, .looping []⟩ .update
      ⟨p.data, p.batches, p.applied, .reporting
        (if o.announceFirst then [UpdateKind.announce, .withdraw] else [.withdraw, .announce])⟩ :=
    .update rfl
  refine ⟨([.update] ++ ls₁) ++ ([.update] ++ ls₂), p.batches, p.applied, fun t ht => ?_,
    ((System.Run.single hs₁).append hr₁).append ((System.Run.single hs₂).append hr₂)⟩
  simp only [List.mem_append, List.mem_singleton] at ht
  rcases ht with (ht | ht) | (ht | ht)
  · exact ht
  · exact hls₁ t ht
  · exact ht
  · exact hls₂ t ht

end

/-! ### Numbered rows -/

/-- The row of an id, with its number. -/
def Data.rowAt (d : Data) (id : String) : Option (ℕ × Route) :=
  (d.ids.find id).bind fun s => (d.routes.find s).map fun r => (s, r)

/-- A row is at an id when the index says where it is and the store has it there. -/
theorem rowAt_eq_some_iff {d : Data} {id : String} {e : ℕ × Route} :
    d.rowAt id = some e ↔ d.ids.find id = some e.1 ∧ d.routes.find e.1 = some e.2 := by
  obtain ⟨s, r⟩ := e
  unfold Data.rowAt
  -- the id has a number or none, and the number a row or none
  cases d.ids.find id with
  | none => simp
  | some s' =>
    cases hr : d.routes.find s' with
    | none => simpa [hr] using fun h => by rw [← h, hr]; simp
    | some r' =>
      simp only [Option.bind_some, hr, Option.map_some, Option.some.injEq, Prod.mk.injEq]
      refine and_congr_right fun hs => ?_
      rw [← hs, hr, Option.some.injEq]

/-- What is at an id is a matter of the store. -/
theorem rowAt_of_store_eq {d d' : Data} (h : d'.store = d.store) : d'.rowAt = d.rowAt := by
  simp only [Data.store, Prod.mk.injEq] at h
  funext id
  unfold Data.rowAt
  rw [h.1, h.2.1]

theorem sequence_of_store_eq {d d' : Data} (h : d'.store = d.store) : d'.sequence = d.sequence := by
  simp only [Data.store, Prod.mk.injEq] at h
  exact h.2.2.1

/-- The rows of an id are the one that is there. -/
theorem Indexed.mem_entries_iff {d : Data} (h : Indexed d) {id : String} {e : ℕ × Route} :
    (e ∈ d.routes.entries ∧ e.2.id = id) ↔ d.rowAt id = some e := by
  rw [rowAt_eq_some_iff]
  constructor
  · rintro ⟨he, rfl⟩
    have hr := d.routes.mem_entries_iff.mp he
    exact ⟨h.index _ _ hr, hr⟩
  · -- the row under the number of an id has that id
    rintro ⟨hid, hr⟩
    obtain ⟨r, hr', hrid⟩ := h.row id e.1 hid
    rw [hr] at hr'
    exact ⟨d.routes.mem_entries_iff.mpr hr, by rw [Option.some.inj hr', hrid]⟩

/-- A copy has one row for an id that is there. -/
theorem Indexed.filter_entries {d : Data} (h : Indexed d) {id : String} {e : ℕ × Route}
    (he : d.rowAt id = some e) : (d.routes.entries.filter fun e => e.2.id = id) = [e] := by
  have hnodup : (d.routes.entries.filter fun e => e.2.id = id).Nodup :=
    (List.Nodup.of_map Prod.snd (List.Nodup.of_map Route.id h.nodup)).filter _
  refine List.perm_singleton.mp ((List.perm_ext_iff_of_nodup hnodup (List.nodup_singleton e)).mpr
    fun e' => ?_)
  rw [List.mem_filter, decide_eq_true_eq, h.mem_entries_iff, he, List.mem_singleton,
    Option.some.injEq, eq_comm]

section

variable {counts : OrdMap String ℕ} {analytics : OrdMap String (OrdMap String ℕ)} {instant : ℕ}

/-- Another id keeps its row when one is dropped. -/
theorem rowAt_dropped {d : Data} (h : Indexed d) {id id' : String} {s : ℕ}
    (hid : d.ids.find id = some s) (hne : id' ≠ id) :
    (d.dropped counts analytics instant id s).rowAt id' = d.rowAt id' := by
  show ((d.ids.erase id).find id').bind (fun s' => ((d.routes.erase s).find s').map _) = _
  rw [OrdMap.find_erase_of_ne _ hne, Data.rowAt]
  cases hid' : d.ids.find id' with
  | none => rfl
  | some s' =>
    -- the other id leads to another number, which is still there
    have hs : s' ≠ s := by
      rintro rfl
      obtain ⟨r, hr, hrid⟩ := h.row id s' hid
      obtain ⟨r', hr', hrid'⟩ := h.row id' s' hid'
      rw [hr] at hr'
      obtain rfl := Option.some.inj hr'
      exact hne (hrid'.symm.trans hrid)
    rw [Option.bind_some, Option.bind_some, OrdMap.find_erase_of_ne _ hs]

/-- A row that is stored is there, under the next number. -/
theorem rowAt_stored {d : Data} {r : Route} :
    (d.stored counts analytics instant r).rowAt r.id = some (d.sequence + 1, r) :=
  rowAt_eq_some_iff.mpr ⟨OrdMap.find_insert_self _ _ _, OrdMap.find_insert_self _ _ _⟩

/-- Another id keeps its row when one is stored. -/
theorem rowAt_stored_of_ne {d : Data} (h : Indexed d) {r : Route} {id : String} (hne : id ≠ r.id) :
    (d.stored counts analytics instant r).rowAt id = d.rowAt id := by
  show ((d.ids.insert r.id (d.sequence + 1)).find id).bind
    (fun s => ((d.routes.insert (d.sequence + 1) r).find s).map _) = _
  rw [OrdMap.find_insert_of_ne _ _ hne, Data.rowAt]
  cases hid : d.ids.find id with
  | none => rfl
  | some s =>
    -- the new number is above every number in use
    have hs : s ≠ d.sequence + 1 := by
      obtain ⟨r', hr', -⟩ := h.row id s hid
      have := h.bound s r' hr'
      omega
    rw [Option.bind_some, Option.bind_some, OrdMap.find_insert_of_ne _ _ hs]

end

/-- **The section of a route, by number**: other rows keep theirs, and an announced row gets
a new one. -/
theorem applyRoute_rowAt {d d' : Data} (h : Consistent d) {op : RouteOp} {instant : ℕ}
    {existed : Bool} (hr : d.applyRoute op instant = some (d', existed)) :
    d.sequence ≤ d'.sequence ∧ (∀ id ≠ op.entry.id, d'.rowAt id = d.rowAt id) ∧
      (op.kind = .announce → d'.rowAt op.entry.id = some (d.sequence + 1, op.entry)) := by
  obtain ⟨d₁, hrem, hop⟩ := applyRoute_eq_some_iff.mp hr
  obtain ⟨hcases, hi, hc⟩ := remove_cases h.indexed h.counted hrem
  -- removing the old row of this id moves no other row and no sequence number
  have hremoved : d₁.sequence = d.sequence ∧ ∀ id ≠ op.entry.id, d₁.rowAt id = d.rowAt id := by
    rcases hcases with ⟨-, rfl⟩ | ⟨c, a, s, hid, rfl⟩
    · exact ⟨rfl, fun _ _ => rfl⟩
    · exact ⟨rfl, fun _ hne => rowAt_dropped h.indexed hid hne⟩
  obtain ⟨hseq, hother⟩ := hremoved
  cases hk : op.kind with
  | withdraw =>
    simp only [hk] at hop
    rw [hop]
    exact ⟨hseq.ge, hother, nofun⟩
  | announce =>
    simp only [hk] at hop
    obtain ⟨c, a, hins, -⟩ := insert_spec hi hc op.entry instant
    rw [hop] at hins
    rw [Option.some.inj hins]
    refine ⟨?_, fun id hne => ?_, fun _ => ?_⟩
    · -- an announcement counts the sequence up by one
      show d.sequence ≤ d₁.sequence + 1
      rw [hseq]
      exact Nat.le_succ _
    · rw [rowAt_stored_of_ne hi hne, hother id hne]
    · rw [rowAt_stored, hseq]

/-! ### What the readers see -/

section

variable (digest : Bytes → Vector UInt8 20) (update : Json) (peer id : String) (d₀ : Data)

/-- A row that the update makes for an id. -/
def Made (r : Route) : Prop :=
  ∃ label route receivedAt, (label, route) ∈ routesOf update .announce ∧
    routeId digest peer (keyOf label route) = id ∧
    r = entryOf (shared update peer) id receivedAt label route

/-- A numbered row is of the update. -/
def New (e : ℕ × Route) : Prop := d₀.sequence < e.1 ∧ Made digest update peer id e.2

/-- What readers see of an id. -/
structure Visible (w : Underway) (copies : List Copy) : Prop where
  /-- A copy has exactly one row: the old one or one of the update. -/
  one : ∀ copy ∈ copies, ∃ e, (copy.filter fun e => e.2.id = id) = [e] ∧
    (d₀.rowAt id = some e ∨ New digest update peer id d₀ e)
  /-- Behind a row of the update nobody sees the old one. -/
  forward : copies.Pairwise fun earlier later => ∀ e ∈ earlier, ∀ e' ∈ later,
    e.2.id = id → e'.2.id = id → New digest update peer id d₀ e →
      New digest update peer id d₀ e' ∧ d₀.rowAt id ≠ some e'
  /-- Behind the loops an announced id has a row of the update. -/
  replaced : ∀ kinds, w.phase = .reporting kinds → id ∈ idsOf digest update peer .announce →
    ∃ e, w.data.rowAt id = some e ∧ New digest update peer id d₀ e

/-- The id has a row, of the given state or of the update. -/
def Present (d : Data) : Prop :=
  ∃ e, d.rowAt id = some e ∧ (d₀.rowAt id = some e ∨ New digest update peer id d₀ e)

/-- A row of the update is there. -/
def Renewed (d : Data) : Prop := ∃ e, d.rowAt id = some e ∧ New digest update peer id d₀ e

/-- The id is announced by one of the steps. -/
def AnnouncedIn (todo : List UpdateStep) : Prop :=
  ∃ label route, .route .announce label route ∈ todo ∧ routeId digest peer (keyOf label route) = id

/-- What is left to do says about the id. -/
def Pending (w : Underway) : Prop :=
  match w.phase with
  | .entering => True
  | .looping todo => (∀ st ∈ todo, st ∈ updateSteps update) ∧
      (id ∈ idsOf digest update peer .announce →
        AnnouncedIn digest peer id todo ∨ Renewed digest update peer id d₀ w.data)
  | .reporting _ => id ∈ idsOf digest update peer .announce →
      Renewed digest update peer id d₀ w.data

/-- What holds of an update that takes turns with readers. -/
structure Inv (w : Underway) (copies : List Copy) : Prop where
  consistent : Consistent w.data
  grown : d₀.sequence ≤ w.data.sequence
  present : Present digest update peer id d₀ w.data
  pending : Pending digest update peer id d₀ w
  one : ∀ copy ∈ copies, ∃ e, (copy.filter fun e => e.2.id = id) = [e] ∧
    (d₀.rowAt id = some e ∨ New digest update peer id d₀ e) ∧
    (New digest update peer id d₀ e → Renewed digest update peer id d₀ w.data)
  forward : copies.Pairwise fun earlier later => ∀ e ∈ earlier, ∀ e' ∈ later,
    e.2.id = id → e'.2.id = id → New digest update peer id d₀ e → New digest update peer id d₀ e'

variable {digest update peer id d₀}

/-- A step of the tasks that keeps the row, and keeps it new when it was, keeps what the
readers have seen. -/
theorem Inv.advance {w w' : Underway} {copies : List Copy}
    (hi : Inv digest update peer id d₀ w copies) (hc : Consistent w'.data)
    (hseq : w.data.sequence ≤ w'.data.sequence) (hpres : Present digest update peer id d₀ w'.data)
    (hnew : Renewed digest update peer id d₀ w.data → Renewed digest update peer id d₀ w'.data)
    (hpend : Pending digest update peer id d₀ w') : Inv digest update peer id d₀ w' copies where
  consistent := hc
  grown := hi.grown.trans hseq
  present := hpres
  pending := hpend
  one := by
    intro copy hcopy
    -- a copy stays as it is, and what was new stays new
    obtain ⟨e, he, hver, hren⟩ := hi.one copy hcopy
    exact ⟨e, he, hver, fun h => hnew (hren h)⟩
  forward := hi.forward

/-- A step that leaves the store alone. -/
theorem Inv.of_store_eq {w w' : Underway} {copies : List Copy}
    (hi : Inv digest update peer id d₀ w copies) (hc : Consistent w'.data)
    (hs : w'.data.store = w.data.store) (hpend : Pending digest update peer id d₀ w') :
    Inv digest update peer id d₀ w' copies := by
  refine hi.advance hc (sequence_of_store_eq hs).ge ?_ ?_ hpend
  · unfold Present
    rw [rowAt_of_store_eq hs]
    exact hi.present
  · unfold Renewed
    rw [rowAt_of_store_eq hs]
    exact fun h => h

/-- The row in the store is new as soon as it is not the old one. -/
theorem Inv.read {w : Underway} {copies : List Copy} (hi : Inv digest update peer id d₀ w copies) :
    Inv digest update peer id d₀ w (copies ++ [w.data.routes.entries]) := by
  obtain ⟨e, he, hver⟩ := hi.present
  -- a snapshot has exactly the row that is in the store under the id
  have hfilter := hi.consistent.indexed.filter_entries he
  refine { hi with one := ?_, forward := ?_ }
  · intro copy hcopy
    rcases List.mem_append.mp hcopy with hcopy | hcopy
    · exact hi.one copy hcopy
    · rw [List.mem_singleton.mp hcopy]
      exact ⟨e, hfilter, hver, fun hnew => ⟨e, he, hnew⟩⟩
  · rw [List.pairwise_append]
    refine ⟨hi.forward, List.pairwise_singleton _ _, ?_⟩
    intro copy hcopy last hlast e₁ he₁ e₂ he₂ hid₁ hid₂ hnew
    rw [List.mem_singleton.mp hlast] at he₂
    -- what the earlier reader saw is new, so the row in the store is
    obtain ⟨e', he', -, hren⟩ := hi.one copy hcopy
    have hmem : e₁ ∈ copy.filter fun e => e.2.id = id :=
      List.mem_filter.mpr ⟨he₁, decide_eq_true hid₁⟩
    rw [he', List.mem_singleton] at hmem
    obtain ⟨e'', he'', hnew''⟩ := hren (hmem ▸ hnew)
    have hsame := hi.consistent.indexed.mem_entries_iff.mp ⟨he₂, hid₂⟩
    rw [he''] at hsame
    rwa [← Option.some.inj hsame]

/-- A step of the loop is a route of the UPDATE. -/
theorem mem_routesOf_of_mem_updateSteps {kind : UpdateKind} {label : String} {route : Json}
    (h : .route kind label route ∈ updateSteps update) : (label, route) ∈ routesOf update kind := by
  rw [updateSteps_eq, List.mem_append, route_mem_kindSteps, route_mem_kindSteps] at h
  rcases h with ⟨rfl, h⟩ | ⟨rfl, h⟩ <;> exact h

/-- The section of a route on the rows of the id: the row is replaced, or it stays. -/
theorem rowAt_of_route {d d' : Data} (hc : Consistent d) (hgrown : d₀.sequence ≤ d.sequence)
    (hwd : id ∉ idsOf digest update peer .withdraw) {kind : UpdateKind}
    {label receivedAt : String} {route : Json} {instant : ℕ} {existed : Bool}
    (hst : .route kind label route ∈ updateSteps update)
    (hr : d.applyRoute (routeOp digest update peer kind label route receivedAt) instant
      = some (d', existed)) :
    (d'.rowAt id = d.rowAt id ∧ routeId digest peer (keyOf label route) ≠ id) ∨
      Renewed digest update peer id d₀ d' := by
  have hmem := mem_routesOf_of_mem_updateSteps hst
  obtain ⟨-, hother, hann⟩ := applyRoute_rowAt hc hr
  have hentry : (routeOp digest update peer kind label route receivedAt).entry.id
      = routeId digest peer (keyOf label route) := entryOf_id _ _ _ _ _
  by_cases hid : routeId digest peer (keyOf label route) = id
  · right
    cases kind with
    -- the id is not withdrawn by this UPDATE, so the step that has it announces
    | withdraw => exact absurd (mem_idsOf_iff.mpr ⟨label, route, hmem, hid⟩) hwd
    | announce =>
      have hrow := hann rfl
      rw [hentry, hid] at hrow
      refine ⟨_, hrow, Nat.lt_succ_of_le hgrown, label, route, receivedAt, hmem, hid, ?_⟩
      rw [← hid]
      rfl
  · left
    refine ⟨hother id ?_, hid⟩
    rw [hentry]
    exact Ne.symm hid

/-- **One section of the update.** -/
theorem Inv.next {o : Outside} {w w' : Underway} {copies : List Copy}
    (hi : Inv digest update peer id d₀ w copies)
    (hwd : id ∉ idsOf digest update peer .withdraw) (h : w.next digest o update peer = some w') :
    Inv digest update peer id d₀ w' copies := by
  have hpend := hi.pending
  unfold Pending at hpend
  -- by section: only that of a route touches the row, and only that of its own id
  cases next_cases hi.consistent h with
  | entering hphase =>
    refine hi.of_store_eq (hi.consistent.of_eq rfl rfl) rfl ⟨fun _ hst => hst, fun hid => Or.inl ?_⟩
    obtain ⟨label, route, hmem, hid⟩ := mem_idsOf_iff.mp hid
    refine ⟨label, route, ?_, hid⟩
    rw [updateSteps_eq]
    exact List.mem_append_left _ (route_mem_kindSteps.mpr ⟨rfl, hmem⟩)
  | looped hphase =>
    -- the loop is through, so a row that is announced has been renewed
    rw [hphase] at hpend
    refine hi.of_store_eq hi.consistent rfl fun hid => ?_
    rcases hpend.2 hid with ⟨label, route, hmem, -⟩ | hren
    · exact absurd hmem List.not_mem_nil
    · exact hren
  | group hphase =>
    -- a label is interned, and the route is still to come
    rw [hphase] at hpend
    obtain ⟨hsub, hann⟩ := hpend
    refine hi.of_store_eq (hi.consistent.of_eq rfl rfl) rfl
      ⟨fun st hst => hsub st (List.mem_cons_of_mem _ hst), fun hid => ?_⟩
    rcases hann hid with ⟨label', route, hmem, hid'⟩ | hren
    · rcases List.mem_cons.mp hmem with heq | hmem
      · exact absurd heq (by simp)
      · exact Or.inl ⟨label', route, hmem, hid'⟩
    · exact Or.inr hren
  | @route kind label route todo existed d' b hphase hr hc =>
    rw [hphase] at hpend
    obtain ⟨hsub, hann⟩ := hpend
    have hrest : ∀ st ∈ todo, st ∈ updateSteps update := fun st hst =>
      hsub st (List.mem_cons_of_mem _ hst)
    obtain ⟨hseq, -, -⟩ := applyRoute_rowAt hi.consistent hr
    rcases rowAt_of_route hi.consistent hi.grown hwd (hsub _ List.mem_cons_self) hr
      with ⟨hrow, hne⟩ | hren
    · -- the route is another one
      have hkeep : Renewed digest update peer id d₀ w.data →
          Renewed digest update peer id d₀ d' := by
        unfold Renewed
        rw [hrow]
        exact fun h => h
      refine hi.advance hc hseq ?_ hkeep ⟨hrest, fun hid => ?_⟩
      · show Present digest update peer id d₀ d'
        unfold Present
        rw [hrow]
        exact hi.present
      · rcases hann hid with ⟨label', route', hmem, hid'⟩ | hren
        · rcases List.mem_cons.mp hmem with heq | hmem
          · obtain ⟨-, rfl, rfl⟩ := UpdateStep.route.inj heq
            exact absurd hid' hne
          · exact Or.inl ⟨label', route', hmem, hid'⟩
        · exact Or.inr (hkeep hren)
    · -- the route is that of the id, and its row is there now
      obtain ⟨e, he, hnew⟩ := hren
      exact hi.advance hc hseq ⟨e, he, Or.inr hnew⟩ (fun _ => ⟨e, he, hnew⟩)
        ⟨hrest, fun _ => Or.inr ⟨e, he, hnew⟩⟩
  | @report kind kinds d' hphase _ hc hs =>
    rw [hphase] at hpend
    refine hi.of_store_eq hc hs fun hid => ?_
    show Renewed digest update peer id d₀ d'
    unfold Renewed
    rw [rowAt_of_store_eq hs]
    exact hpend hid

/-- **One turn.** -/
theorem Inv.step {o : Outside} {p p' : Underway × List Copy} {t : Turn}
    (hi : Inv digest update peer id d₀ p.1 p.2) (hwd : id ∉ idsOf digest update peer .withdraw)
    (hs : (seen digest o update peer d₀).step p t p') : Inv digest update peer id d₀ p'.1 p'.2 := by
  obtain ⟨w, copies⟩ := p
  obtain ⟨w', copies'⟩ := p'
  obtain ⟨hstep, hcopies⟩ := hs
  -- by step: of the update, of the reader, or of another task
  cases hstep with
  | update h =>
    obtain rfl : copies' = copies := hcopies
    exact hi.next hwd h
  | read =>
    obtain rfl : copies' = copies ++ [w.data.routes.entries] := hcopies
    exact hi.read
  | @other s d' h hstore =>
    obtain rfl : copies' = copies := hcopies
    obtain ⟨d'', hr, hc⟩ := s.run_consistent hi.consistent
    rw [h] at hr
    obtain rfl := Option.some.inj hr
    refine hi.of_store_eq hc hstore ?_
    -- what is pending is a matter of the phase and of the row
    have hpend := hi.pending
    have hren : Renewed digest update peer id d₀ w.data → Renewed digest update peer id d₀ d' := by
      unfold Renewed
      rw [rowAt_of_store_eq hstore]
      exact fun h => h
    unfold Pending at hpend ⊢
    cases hphase : w.phase with
    | entering => trivial
    | looping todo =>
      simp only [hphase] at hpend ⊢
      exact ⟨hpend.1, fun hid => (hpend.2 hid).imp_right hren⟩
    | reporting kinds =>
      simp only [hphase] at hpend ⊢
      exact fun hid => hren (hpend hid)

/-- **What readers see of an update.** An id that is there and is not withdrawn is in every
copy of the store once, first with its row and then with a row of the update. -/
theorem seen_visible {o : Outside} (h₀ : sections.Reachable d₀) {r₀ : Route}
    (hr₀ : d₀.byId id = some r₀) (hwd : id ∉ idsOf digest update peer .withdraw)
    {p : Underway × List Copy} (hp : (seen digest o update peer d₀).Reachable p) :
    Visible digest update peer id d₀ p.1 p.2 := by
  have hc₀ := sections_consistent h₀
  have hinv : Inv digest update peer id d₀ p.1 p.2 := by
    refine System.Reachable.induction (P := fun p => Inv digest update peer id d₀ p.1 p.2) ?_ ?_ hp
    · rintro ⟨w, copies⟩ ⟨hw, hcopies⟩
      obtain rfl : w = _ := hw
      obtain rfl : copies = [] := hcopies
      obtain ⟨⟨s, hs⟩, hid⟩ := hc₀.indexed.row_of_byId hr₀
      have hrow : d₀.rowAt id = some (s, r₀) :=
        hc₀.indexed.mem_entries_iff.mp ⟨d₀.routes.mem_entries_iff.mpr hs, hid⟩
      exact ⟨hc₀, le_rfl, ⟨_, hrow, Or.inl hrow⟩, trivial, fun _ h => absurd h List.not_mem_nil,
        List.Pairwise.nil⟩
    · intro p t p' _ hi hs
      exact hi.step hwd hs
  refine ⟨fun copy hcopy => ?_, hinv.forward.imp ?_, fun kinds hphase hid => ?_⟩
  · obtain ⟨e, he, hver, -⟩ := hinv.one copy hcopy
    exact ⟨e, he, hver⟩
  · intro earlier later h e he e' he' hid hid' hnew
    have hnew' := h e he e' he' hid hid' hnew
    refine ⟨hnew', fun hold => ?_⟩
    -- the old row has a number that was given out before the update
    have hbound := hc₀.indexed.bound _ _ (rowAt_eq_some_iff.mp hold).2
    exact absurd hnew'.1 (by omega)
  · have hpend := hinv.pending
    unfold Pending at hpend
    rw [hphase] at hpend
    exact hpend hid

end

/-! Two prefixes are announced a second time, and a reader comes at the end. -/

/-- Two prefixes announced in one body. -/
def sampleBody : Bytes := [0, 0, 0, 7, 0x40, 3, 4, 192, 0, 2, 1, 24, 192, 0, 2, 24, 198, 51, 100]

/-- The call for it, up to its end, as a reader sees it that copies the store at every moment. -/
theorem sampleBody_visible : ∃ (d₀ : Data) (w : Underway) (copies : List Copy),
    w.phase = .reporting [] ∧
      Visible sampleDigest (updateOf sampleBody 4) samplePeer "b1222ddc9dd2" d₀ w
        (copies ++ [w.data.routes.entries]) := by
  have h₀ : sections.Reachable (Data.new none) := .init ⟨none, rfl⟩
  obtain ⟨d₀, -, ha, -, hc⟩ := applyUpdate_run sampleDigest sampleOutside (updateOf sampleBody 4)
    samplePeer (new_consistent none)
  have hd₀ := applyUpdate_reachable sampleDigest sampleOutside (updateOf sampleBody 4) samplePeer
    h₀ ha
  obtain ⟨d', -, ha', -, -⟩ := applyUpdate_run sampleDigest sampleOutside (updateOf sampleBody 4)
    samplePeer hc
  -- the UPDATE announces the route, and does not withdraw it
  have hids : "b1222ddc9dd2" ∈ idsOf sampleDigest (updateOf sampleBody 4) samplePeer .announce ∧
      "b1222ddc9dd2" ∉ idsOf sampleDigest (updateOf sampleBody 4) samplePeer .withdraw := by
    decide
  obtain ⟨hann, hwd⟩ := hids
  obtain ⟨e, -, -, receivedAt, hr⟩ := applyUpdate_kept (new_consistent none) ha hann hwd
  obtain ⟨ls, b, n, -, hrun⟩ := applyUpdate_underway sampleDigest sampleOutside
    (updateOf sampleBody 4) samplePeer ha'
  -- it comes once more, and a reader copies the rows at the end
  have hobs : ∃ copies, (seen sampleDigest sampleOutside (updateOf sampleBody 4) samplePeer d₀).Run
      (⟨d₀, ⟨[], []⟩, 0, .entering⟩, []) ls (⟨d', b, n, .reporting []⟩, copies) :=
    hrun.observed []
  obtain ⟨copies, hobs⟩ := hobs
  have hp : (seen sampleDigest sampleOutside (updateOf sampleBody 4) samplePeer d₀).Reachable
      (⟨d', b, n, .reporting []⟩, copies ++ [d'.routes.entries]) :=
    ⟨(⟨d₀, ⟨[], []⟩, 0, .entering⟩, []), _, ⟨rfl, rfl⟩, hobs.snoc ⟨.read, rfl⟩⟩
  exact ⟨d₀, ⟨d', b, n, .reporting []⟩, copies, rfl, seen_visible hd₀ hr hwd hp⟩

end Rib
