import BgpReceiver.JsonText
import BgpReceiver.Rib.Statistics

/-!
# Writing the table to disk

`App::flush`, as the persistence worker calls it (`flush(false)`) and as `App::stop`,
`App::start` and the end of `session::run` do (`flush(true)`).

A flush has three phases. It takes the rows and the path under the lock (`snapshot`),
replaces the file at the path without the lock, and then takes the lock again to mark the
data as clean. The critical sections of all other tasks, and the phases of other flushes,
come in between. `flushes` is the transition system of the data, one output path and any
number of flushes in progress; file operations succeed here, and the replacement of the
file is one step.

A change of the rows marks the data as dirty, but a flush that took its rows before the
change marks it as clean all the same. The comment in the source says so, and leaves the
change to the flush that follows the next one. So the file is up to date whenever the data
is clean, except for a change that landed while a flush was in progress
(`reachable_current`); what is to be said about the past is in a history variable
(`Race`). `raced_stale` is a run that ends with a clean table and an old file.
-/

namespace Persist

open Rib (Data Route Section)

/-! ### The document -/

/-- What is written to the file, piece by piece. -/
def pieces (rows : List Route) : List String :=
  ("\x7b\"count\":" ++ Nat.repr rows.length ++ ",\"routes\":[")
    :: (rows.zipIdx.flatMap fun e => (if e.2 > 0 then [","] else []) ++ [e.1.text]) ++ ["]\x7d"]

/-- The content of the file. -/
def document (rows : List Route) : Bytes := (String.join (pieces rows)).toUTF8.data.toList

/-- The value that the document is a text of. -/
def documentJson (rows : List Route) : Json :=
  .obj [("count", .num rows.length), ("routes", .arr (rows.map fun r => .obj r.fields))]

theorem join_append (l l' : List String) :
    String.join (l ++ l') = String.join l ++ String.join l' := by
  apply String.toList_inj.mp
  simp [String.toList_join]

/-- The rows come with a comma between them. -/
theorem join_rows (rows : List Route) :
    String.join (rows.zipIdx.flatMap fun e => (if e.2 > 0 then [","] else []) ++ [e.1.text])
      = String.intercalate "," (rows.map Route.text) := by
  -- behind the first row every index is positive
  have htail : ∀ (rows : List Route) (n : ℕ), (String.join ((rows.zipIdx (n + 1)).flatMap fun e =>
      (if e.2 > 0 then [","] else []) ++ [e.1.text])).toList
        = Json.commaTail (rows.map Route.text) := by
    intro rows
    induction rows with
    | nil => intro n; rfl
    | cons r rows ih =>
      intro n
      rw [List.zipIdx_cons, List.flatMap_cons, join_append, String.toList_append, ih,
        if_pos (Nat.succ_pos n), List.map_cons]
      simp [Json.commaTail]
  cases rows with
  | nil => rfl
  | cons r rows =>
    apply String.toList_inj.mp
    rw [List.zipIdx_cons, List.flatMap_cons, join_append, String.toList_append, htail,
      List.map_cons, Json.toList_intercalate_cons]
    simp

/-- **The document is a JSON text**, with the number of rows and the rows in order. -/
theorem join_pieces (rows : List Route) :
    String.join (pieces rows) = (documentJson rows).text := by
  have hrows : Json.elemTexts (rows.map fun r => .obj r.fields) = rows.map Route.text := by
    rw [Json.elemTexts_eq, List.map_map]
    exact List.map_congr_left fun r _ => by rw [Function.comp_apply, Json.text, Route.text]
  have hcount : Json.quote "count" = "\"count\"" := by decide
  have hroutes : Json.quote "routes" = "\"routes\"" := by decide
  apply String.toList_inj.mp
  unfold pieces documentJson
  rw [join_append, String.toList_append, String.join_cons, String.toList_append, join_rows]
  simp [Json.text, Json.fieldTexts, hrows, hcount, hroutes]

/-- Two snapshots with one document have as many rows, with the same members. -/
theorem document_injective {rows rows' : List Route} (h : document rows = document rows') :
    rows.map Route.fields = rows'.map Route.fields := by
  have htext : (documentJson rows).text = (documentJson rows').text := by
    rw [← join_pieces, ← join_pieces]
    apply String.toByteArray_inj.mp
    exact ByteArray.ext (Array.toList_inj.mp h)
  have hjson := Json.text_injective htext
  unfold documentJson at hjson
  simp only [Json.obj.injEq, List.cons.injEq, Prod.mk.injEq, Json.arr.injEq, true_and,
    and_true] at hjson
  obtain ⟨-, hrows⟩ := hjson
  have hinj : Function.Injective Json.obj := fun _ _ => Json.obj.inj
  apply List.map_injective_iff.mpr hinj
  rwa [List.map_map, List.map_map]

/-! ### Flushes -/

/-- Who has called `flush`: the persistence worker, or a task that forces it. A request that
is dropped while it waits for the session leaves its session task behind, so there may be
several of the latter kind. -/
inductive Caller where
  | periodic
  | forced (task : ℕ)
  deriving DecidableEq

/-- The worker does not force its flush; `start` and `stop` do. -/
def Caller.force : Caller → Bool
  | periodic => false
  | forced _ => true

/-- How long the data has to have been dirty for a flush that is not forced, in
nanoseconds. -/
def debounce : ℕ := 5000000000

/-- The first phase of `flush`: the path and the rows, unless there is nothing to do. -/
def snapshot (d : Data) (force : Bool) (now : ℕ) : Option (String × List Route) :=
  if !force && d.dirty.all fun t => now - t < debounce then none
  else d.output.map fun path => (path, d.routes.values)

/-- The rows of a snapshot are those of the table at that time. -/
theorem snapshot_rows {d : Data} {force : Bool} {now : ℕ} {path : String} {rows : List Route}
    (h : snapshot d force now = some (path, rows)) : rows = d.routes.values := by
  unfold snapshot at h
  split at h
  · exact absurd h (by simp)
  · obtain ⟨_, -, hp⟩ := Option.map_eq_some_iff.mp h
    exact (Prod.mk.inj hp).2.symm

/-- How far a flush is. -/
inductive Phase where
  | idle
  /-- behind the first phase, with the rows it took -/
  | holding (rows : List Route)
  /-- behind the second phase: the file has been replaced -/
  | written

/-- The data, what the file holds, and how far each caller has come. -/
structure World where
  data : Data
  /-- what is in the file at the output path -/
  file : Bytes
  phase : Caller → Phase

/-- Nobody is writing. -/
def World.Idle (w : World) : Prop := ∀ c, w.phase c = .idle

/-- A section of another task, or a step of one of the callers. -/
inductive Label where
  /-- a critical section of another task -/
  | critical (s : Section)
  | snapshot (c : Caller) (now : ℕ)
  | write (c : Caller)
  | clear (c : Caller)

variable (path : String)

/-- The steps on one output path, with file operations that succeed. -/
inductive Step (w : World) : Label → World → Prop
  | critical {s : Section} {d' : Data} : s ≠ .flushed → s.run w.data = some d' →
      d'.output = some path → Step w (.critical s) { w with data := d' }
  | snapshot {c : Caller} {now : ℕ} {rows : List Route} : w.phase c = .idle →
      snapshot w.data c.force now = some (path, rows) →
      Step w (.snapshot c now) { w with phase := Function.update w.phase c (.holding rows) }
  | write {c : Caller} {rows : List Route} : w.phase c = .holding rows →
      Step w (.write c)
        { w with file := document rows, phase := Function.update w.phase c .written }
  | clear {c : Caller} {d' : Data} : w.phase c = .written → Section.flushed.run w.data = some d' →
      Step w (.clear c) { w with data := d', phase := Function.update w.phase c .idle }

/-- Flushes of one output path. It starts behind a flush that was alone. -/
def flushes : System World Label where
  init := fun w => w.data.output = some path ∧ w.data.dirty = none ∧ w.Idle ∧
    w.file = document w.data.routes.values
  step := Step path

/-! ### The past -/

/-- What is to be remembered of the last change of the rows. -/
structure Race where
  /-- It landed while a flush was in progress. -/
  landed : Prop
  /-- The flushes that have taken their rows before it. -/
  early : Caller → Prop
  /-- The file has been written by such a flush last. -/
  behind : Prop

/-- There has been no change yet. -/
def Race.none : Race := ⟨False, fun _ => False, False⟩

/-- How the race goes on: it begins when a change lands behind a snapshot, and is over when that
snapshot has been replaced. -/
def Race.next (h : Race) (w : World) (l : Label) (w' : World) : Race :=
  match l with
  | .critical _ =>
    if w'.data.routes.entries = w.data.routes.entries then h
    else ⟨¬ w.Idle, fun _ => True, True⟩
  | .snapshot c _ => { h with early := Function.update h.early c False }
  | .write c => { h with behind := h.early c }
  | .clear _ => h

/-- The flushes, with what is remembered of the last change. -/
def races : System (World × Race) Label :=
  (flushes path).observe (fun _ h => h = Race.none) Race.next

/-! ### Marks -/

theorem insert_marks {d d' : Data} {id : String} {r : Route} {instant : ℕ}
    (h : d.insert id r instant = some d') : d'.dirty = some instant := by
  unfold Data.insert at h
  obtain ⟨d₁, -, h⟩ := Option.bind_eq_some_iff.mp h
  rw [← Option.some.inj h]

/-- A removal marks the data, or there was nothing to remove. -/
theorem remove_marks {d d' : Data} {id : String} {instant : ℕ} {existed : Bool}
    (h : d.remove id instant = some (d', existed)) : d' = d ∨ d'.dirty = some instant := by
  unfold Data.remove at h
  cases hid : d.ids.find id with
  | none =>
    simp only [hid] at h
    exact Or.inl (Prod.mk.inj (Option.some.inj h)).1.symm
  | some seq =>
    simp only [hid] at h
    obtain ⟨row, -, h⟩ := Option.bind_eq_some_iff.mp h
    obtain ⟨d₁, -, h⟩ := Option.bind_eq_some_iff.mp h
    obtain ⟨rfl, -⟩ := Prod.mk.inj (Option.some.inj h)
    exact Or.inr rfl

/-- A route that is applied marks the data, or changes nothing. -/
theorem applyRoute_marks {d d' : Data} {op : Rib.RouteOp} {instant : ℕ} {existed : Bool}
    (h : d.applyRoute op instant = some (d', existed)) : d' = d ∨ d'.dirty = some instant := by
  obtain ⟨d₁, hr, h⟩ := Rib.applyRoute_eq_some_iff.mp h
  cases hk : op.kind with
  | announce =>
    simp only [hk] at h
    exact Or.inr (insert_marks h)
  | withdraw =>
    simp only [hk] at h
    rw [h]
    exact remove_marks hr

/-- A table that is cleared is marked, unless it was empty. -/
theorem clear_marks (d : Data) (instant : ℕ) :
    (d.clear instant).routes.entries = d.routes.entries ∧ (d.clear instant).dirty = d.dirty ∨
      (d.clear instant).dirty = some instant := by
  by_cases hr : d.routes.entries = []
  · refine Or.inl ⟨hr.symm, if_pos hr⟩
  · exact Or.inr (if_neg hr)

/-- What the clock shows in a section that changes the rows. -/
def instantOf : Section → Option ℕ
  | .route _ instant | .stop instant | .start _ instant | .disconnected instant
  | .runEnded instant => some instant
  | _ => none

/-- **Every change marks the data.** A section of a task that is not a flush marks the data
as dirty from then on, or leaves the rows and the mark alone. -/
theorem run_marks {d d' : Data} {s : Section} (hs : s ≠ .flushed) (h : s.run d = some d') :
    d'.routes.entries = d.routes.entries ∧ d'.dirty = d.dirty ∨
      ∃ t, instantOf s = some t ∧ d'.dirty = some t := by
  cases s with
  | flushed => exact absurd rfl hs
  | route op instant =>
    obtain ⟨⟨d₁, existed⟩, hroute, rfl⟩ := Option.map_eq_some_iff.mp h
    -- a route leaves the data as it is, or sets the mark
    rcases applyRoute_marks hroute with rfl | hd
    · exact Or.inl ⟨rfl, rfl⟩
    · exact Or.inr ⟨instant, rfl, hd⟩
  | record event =>
    change d.record event = some d' at h
    unfold Data.record at h
    -- the history is not part of the rows
    split at h
    · obtain ⟨e, -, h⟩ := Option.bind_eq_some_iff.mp h
      obtain rfl := Option.some.inj h
      exact Or.inl ⟨rfl, rfl⟩
    · obtain rfl := Option.some.inj h
      exact Or.inl ⟨rfl, rfl⟩
  | stop instant =>
    obtain rfl := Option.some.inj h
    -- a table that is cleared is marked, unless it was empty
    exact (clear_marks _ instant).imp id fun h => ⟨instant, rfl, h⟩
  | start config instant | disconnected instant | runEnded instant =>
    obtain rfl := Option.some.inj h
    exact (clear_marks _ instant).imp id fun h => ⟨instant, rfl, h⟩
  | _ =>
    obtain rfl := Option.some.inj h
    exact Or.inl ⟨rfl, rfl⟩

/-! ### The file and the last change -/

/-- How the file, the flushes in progress and the mark stand to the last change. -/
structure Inv (w : World) (h : Race) : Prop where
  /-- Rows that were taken behind the last change are the current ones. -/
  taken : ∀ c, ¬ h.early c → ∀ rows, w.phase c = .holding rows → rows = w.data.routes.values
  /-- A file that such a flush has written last is up to date. -/
  file : ¬ h.behind → w.file = document w.data.routes.values
  /-- Unless the change landed while a flush was in progress, none that is has taken its rows
  before. -/
  fresh : ¬ h.landed → ∀ c, w.phase c ≠ .idle → ¬ h.early c
  written : ¬ h.landed → ∀ c, w.phase c = .written → ¬ h.behind
  /-- In that case the mark is there until the file is up to date. -/
  clean : ¬ h.landed → w.data.dirty = none → ¬ h.behind

/-- At first the file is the table, and the data are clean. -/
theorem Inv.init {w : World} (hw : (flushes path).init w) : Inv w .none := by
  obtain ⟨-, -, hidle, hfile⟩ := hw
  refine ⟨fun c _ rows hc => ?_, fun _ => hfile, fun _ _ _ => id, fun _ _ _ => id, fun _ _ => id⟩
  rw [hidle c] at hc
  exact absurd hc (by simp)

/-- A section of another task: either it keeps the rows, or the change is recorded. -/
theorem Inv.critical {w : World} {h : Race} (hi : Inv w h) {s : Section} {d' : Data}
    (hs : s ≠ .flushed) (hr : s.run w.data = some d') :
    Inv { w with data := d' } (h.next w (.critical s) { w with data := d' }) := by
  unfold Race.next
  by_cases hsame : d'.routes.entries = w.data.routes.entries
  · -- the rows are the same, and the mark is the same or has been set
    rw [if_pos hsame]
    have hvalues : d'.routes.values = w.data.routes.values :=
      congrArg (List.map Prod.snd) hsame
    refine ⟨fun c hc rows hp => ?_, fun hb => ?_, hi.fresh, hi.written, fun hl hd => ?_⟩
    · rw [hi.taken c hc rows hp]
      exact hvalues.symm
    · show w.file = document d'.routes.values
      rw [hvalues]
      exact hi.file hb
    · rcases run_marks hs hr with ⟨-, hdirty⟩ | ⟨t, -, ht⟩
      · exact hi.clean hl (hdirty.symm.trans hd)
      · exact absurd (ht.symm.trans hd) (by simp)
  · -- a change: it is marked, and every flush in progress is early
    rw [if_neg hsame]
    have hmarked : ∃ t, instantOf s = some t ∧ d'.dirty = some t :=
      (run_marks hs hr).resolve_left fun h => hsame h.1
    refine ⟨fun c hc => absurd trivial hc, fun hb => absurd trivial hb, fun hl c hc => ?_,
      fun hl c hc => ?_, fun _ hd => ?_⟩
    · exact absurd (not_not.mp hl c) hc
    · have hidle := not_not.mp hl c
      rw [show w.phase c = .written from hc] at hidle
      exact absurd hidle (by simp)
    · obtain ⟨t, -, ht⟩ := hmarked
      exact absurd (ht.symm.trans hd) (by simp)

/-- **One step keeps the invariant.** -/
theorem Inv.step {w w' : World} {h : Race} {l : Label} (hi : Inv w h) (hs : Step path w l w') :
    Inv w' (h.next w l w') := by
  cases hs with
  | critical hs hr _ => exact hi.critical hs hr
  | @snapshot c now rows hc hsnap =>
    -- the rows are current, and the flush is not early any more
    have hrows := snapshot_rows hsnap
    refine ⟨fun c' hearly rows' hp => ?_, hi.file, fun hl c' hp => ?_, fun hl c' hp => ?_, hi.clean⟩
    · change Function.update w.phase c (.holding rows) c' = _ at hp
      change ¬ Function.update h.early c False c' at hearly
      by_cases hcc : c' = c
      · rw [hcc, Function.update_self] at hp
        exact (Phase.holding.inj hp).symm.trans hrows
      · rw [Function.update_of_ne hcc] at hp hearly
        exact hi.taken c' hearly rows' hp
    · change Function.update w.phase c (.holding rows) c' ≠ _ at hp
      show ¬ Function.update h.early c False c'
      by_cases hcc : c' = c
      · rw [hcc, Function.update_self]
        exact id
      · rw [Function.update_of_ne hcc] at hp ⊢
        exact hi.fresh hl c' hp
    · change Function.update w.phase c (.holding rows) c' = _ at hp
      by_cases hcc : c' = c
      · rw [hcc, Function.update_self] at hp
        exact absurd hp (by simp)
      · rw [Function.update_of_ne hcc] at hp
        exact hi.written hl c' hp
  | @write c rows hc =>
    -- a flush that is not early writes the current rows
    have hbusy : w.phase c ≠ .idle := by
      rw [hc]
      simp
    refine ⟨fun c' hearly rows' hp => ?_, fun hearly => ?_, fun hl c' hp => ?_,
      fun hl _ _ => hi.fresh hl c hbusy, fun hl _ => hi.fresh hl c hbusy⟩
    · change Function.update w.phase c .written c' = _ at hp
      by_cases hcc : c' = c
      · rw [hcc, Function.update_self] at hp
        exact absurd hp (by simp)
      · rw [Function.update_of_ne hcc] at hp
        exact hi.taken c' hearly rows' hp
    · show document rows = document w.data.routes.values
      rw [hi.taken c hearly rows hc]
    · change Function.update w.phase c .written c' ≠ _ at hp
      by_cases hcc : c' = c
      · rw [hcc]
        exact hi.fresh hl c hbusy
      · rw [Function.update_of_ne hcc] at hp
        exact hi.fresh hl c' hp
  | @clear c d' hc hr =>
    -- the mark goes, but this flush has written the file
    obtain rfl := Option.some.inj hr
    have hback : ∀ c' p, p ≠ .idle → Function.update w.phase c .idle c' = p → w.phase c' = p := by
      intro c' p hne hp
      by_cases hcc : c' = c
      · rw [hcc, Function.update_self] at hp
        exact absurd hp.symm hne
      · rwa [Function.update_of_ne hcc] at hp
    refine ⟨fun c' hearly rows' hp => hi.taken c' hearly rows' (hback c' _ (by simp) hp), hi.file,
      fun hl c' hp => ?_, fun hl c' hp => hi.written hl c' (hback c' _ (by simp) hp),
      fun hl _ => hi.written hl c hc⟩
    exact hi.fresh hl c' ((hback c' _ hp rfl).symm ▸ hp)

/-- **The file is up to date when the data is clean**, unless the last change landed while
a flush was in progress and the file has been written last with rows from before. -/
theorem reachable_current {p : World × Race} (hp : (races path).Reachable p)
    (hdirty : p.1.data.dirty = none) (hrace : ¬ (p.2.landed ∧ p.2.behind)) :
    p.1.file = document p.1.data.routes.values := by
  have hinv : (races path).Invariant fun p => Inv p.1 p.2 := by
    refine ⟨fun p hp => ?_, fun p l p' hi hs => ?_⟩
    · obtain ⟨hw, hh⟩ := hp
      rw [hh]
      exact Inv.init path hw
    · obtain ⟨hs, hh⟩ := hs
      rw [hh]
      exact hi.step path hs
  have hi := hinv.reachable hp
  by_cases hl : p.2.landed
  · exact hi.file fun hb => hrace ⟨hl, hb⟩
  · exact hi.file (hi.clean hl hdirty)

/-- **A flush that is alone** leaves the current rows in the file and the data clean. -/
theorem flush_alone {w : World} (h : Race) {c : Caller} {now : ℕ} {rows : List Route}
    (hc : w.phase c = .idle) (hs : snapshot w.data c.force now = some (path, rows)) :
    ∃ h' : Race, h'.landed = h.landed ∧ ¬ h'.behind ∧
      (races path).Run (w, h) [.snapshot c now, .write c, .clear c]
        (⟨{ w.data with dirty := none }, document rows, w.phase⟩, h') := by
  -- the phase of the caller is what it was before the flush
  have hback : Function.update (Function.update (Function.update w.phase c (.holding rows)) c
      .written) c .idle = w.phase := by
    rw [Function.update_idem, Function.update_idem, ← hc, Function.update_eq_self]
  let w₁ : World := { w with phase := Function.update w.phase c (.holding rows) }
  let w₂ : World := { w₁ with
    file := document rows, phase := Function.update w₁.phase c .written }
  let w₃ : World := { w₂ with
    data := { w.data with dirty := none }, phase := Function.update w₂.phase c .idle }
  let h₁ : Race := { h with early := Function.update h.early c False }
  let h₂ : Race := { h₁ with behind := h₁.early c }
  have s₁ : (races path).step (w, h) (.snapshot c now) (w₁, h₁) := ⟨.snapshot hc hs, rfl⟩
  have s₂ : (races path).step (w₁, h₁) (.write c) (w₂, h₂) :=
    ⟨.write (Function.update_self _ _ _), rfl⟩
  have s₃ : (races path).step (w₂, h₂) (.clear c) (w₃, h₂) :=
    ⟨.clear (Function.update_self _ _ _) rfl, rfl⟩
  have hrun : (races path).Run (w, h) [.snapshot c now, .write c, .clear c] (w₃, h₂) :=
    ((System.Run.nil.snoc s₁).snoc s₂).snoc s₃
  refine ⟨h₂, rfl, ?_, hback ▸ hrun⟩
  show ¬ Function.update h.early c False c
  rw [Function.update_self]
  exact id

/-! A row comes in, and is withdrawn after a flush has taken it. -/

/-- Data with a path and no routes. -/
def startData : Data := .new (some "rib.json")

/-- The file of no rows, and nobody writing. -/
def start : World := ⟨startData, document [], fun _ => .idle⟩

theorem start_init : (flushes "rib.json").init start := ⟨rfl, rfl, fun _ => rfl, rfl⟩

/-- A route is announced at time 0. -/
def announced : Section := .route ⟨.announce, Rib.sampleRow⟩ 0

/-- The data behind it. -/
def announcedData : Data := (announced.run startData).get (by decide)

/-- It is withdrawn when the first flush is due. -/
def withdrawn : Section := .route ⟨.withdraw, Rib.sampleRow⟩ 6000000001

/-- The data behind that. -/
def withdrawnData : Data := (withdrawn.run announcedData).get (by decide)

theorem start_announced : Step "rib.json" start (.critical announced)
    { start with data := announcedData } :=
  .critical (by simp [announced]) (Option.some_get _).symm (by decide)

theorem values_announced : announcedData.routes.values = [Rib.sampleRow] := by decide

theorem snapshot_announced :
    snapshot announcedData false 6000000000 = some ("rib.json", [Rib.sampleRow]) := by
  decide

/-- The flush that follows an announcement leaves the row in the file. -/
theorem reachable_current_announced : ∃ p : World × Race, (races "rib.json").Reachable p ∧
    p.1.file = document p.1.data.routes.values ∧ p.1.data.routes.values = [Rib.sampleRow] := by
  have hinit : (races "rib.json").Reachable (start, .none) := .init ⟨start_init, rfl⟩
  let h₁ := Race.none.next start (.critical announced) { start with data := announcedData }
  have h₁r : (races "rib.json").Reachable ({ start with data := announcedData }, h₁) :=
    hinit.step (l := .critical announced) ⟨start_announced, rfl⟩
  obtain ⟨h', -, hbehind, hrun⟩ := flush_alone "rib.json"
    (w := { start with data := announcedData }) h₁ (c := .periodic) rfl snapshot_announced
  have hp := h₁r.run hrun
  exact ⟨_, hp, reachable_current "rib.json" hp rfl fun h => hbehind h.2, values_announced⟩

/-- A withdrawal that lands while the flush is in progress is not written, and nothing is
left to say so. -/
theorem raced_stale : ∃ w, (flushes "rib.json").init start ∧
    (flushes "rib.json").Run start [.critical announced, .snapshot .periodic 6000000000,
      .critical withdrawn, .write .periodic, .clear .periodic] w ∧
    w.Idle ∧ w.data.dirty = none ∧ w.file ≠ document w.data.routes.values := by
  let w₁ : World := { start with data := announcedData }
  let w₂ : World := { w₁ with
    phase := Function.update w₁.phase .periodic (.holding [Rib.sampleRow]) }
  -- the row goes while the flush holds it
  let w₃ : World := { w₂ with data := withdrawnData }
  let w₄ : World := { w₃ with
    file := document [Rib.sampleRow], phase := Function.update w₃.phase .periodic .written }
  -- the mark of that change is taken away with the older one
  let w₅ : World := { w₄ with
    data := { withdrawnData with dirty := none }
    phase := Function.update w₄.phase .periodic .idle }
  have s₂ : Step "rib.json" w₁ (.snapshot .periodic 6000000000) w₂ :=
    .snapshot rfl snapshot_announced
  have s₃ : Step "rib.json" w₂ (.critical withdrawn) w₃ :=
    .critical (by simp [withdrawn]) (Option.some_get _).symm (by decide)
  have s₄ : Step "rib.json" w₃ (.write .periodic) w₄ := .write rfl
  have s₅ : Step "rib.json" w₄ (.clear .periodic) w₅ := .clear rfl rfl
  have hrun := System.Run.nil (S := flushes "rib.json") |>.snoc start_announced |>.snoc s₂
    |>.snoc s₃ |>.snoc s₄ |>.snoc s₅
  refine ⟨w₅, start_init, hrun, fun c => ?_, rfl, by decide⟩
  cases c with
  | periodic => rfl
  | forced task => rfl

end Persist
