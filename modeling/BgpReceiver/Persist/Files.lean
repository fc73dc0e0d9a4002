import BgpReceiver.Framework.FileSystem
import BgpReceiver.Persist.Flush

/-!
# The temporary file

The second phase of a flush, operation by operation: the temporary file is created, the
document goes into it in pieces of any size, and the file is renamed to the output path.
All flushes of one path use the same temporary name. An operation may fail, and ends its
flush then.

A flush that creates the temporary file while another one is between its create and its
rename empties the file that the other writes to, and from then on both write to one file,
each at an offset of its own. So the file at the path is a document of one snapshot in
every run in which this does not happen (`apart_whole`), and need not be otherwise
(`shared_torn`).

In those runs the file operations of a flush are as good as one step: the path shows
nothing of a flush before its rename, and all of it then. `apart_refines` takes them to the
runs of `flushes`.
-/

namespace Persist

open Rib (Data Route Section)

namespace Files

/-- The name of the temporary file. -/
def temporary (path : String) : String := path ++ ".tmp"

/-- The temporary name is another one than the path. -/
theorem ne_temporary (path : String) : path ≠ temporary path := by
  intro h
  have hlen := congrArg String.length h
  rw [temporary, String.length_append] at hlen
  have htmp : ".tmp".length = 4 := by decide
  omega

/-- How far a flush is. -/
inductive Phase where
  | idle
  /-- behind the first phase, with the rows it took -/
  | holding (rows : List Route)
  /-- the file is open, and so many bytes of the document have been written to it -/
  | writing (rows : List Route) (inode offset : ℕ)
  /-- behind the second phase -/
  | written

/-- The data, the files and how far every caller has come, with the handle that it writes to. -/
structure World where
  data : Data
  files : FileSystem String
  phase : Caller → Phase

/-- A section beside the calls, or a step of one caller. -/
inductive Label where
  /-- a critical section of another task -/
  | critical (s : Section)
  | snapshot (c : Caller) (now : ℕ)
  | create (c : Caller)
  | write (c : Caller) (size : ℕ)
  | rename (c : Caller)
  | clear (c : Caller)
  /-- a file operation fails -/
  | fail (c : Caller)

variable (path : String)

/-- The steps on one output path. -/
inductive Step (w : World) : Label → World → Prop
  | critical {s : Section} {d' : Data} : s ≠ .flushed → s.run w.data = some d' →
      d'.output = some path → Step w (.critical s) { w with data := d' }
  | snapshot {c : Caller} {now : ℕ} {rows : List Route} : w.phase c = .idle →
      snapshot w.data c.force now = some (path, rows) →
      Step w (.snapshot c now) { w with phase := Function.update w.phase c (.holding rows) }
  | create {c : Caller} {rows : List Route} {files : FileSystem String} {i : ℕ} :
      w.phase c = .holding rows → w.files.create (temporary path) = (files, i) →
      Step w (.create c)
        { w with files := files, phase := Function.update w.phase c (.writing rows i 0) }
  | write {c : Caller} {rows : List Route} {i offset size : ℕ} :
      w.phase c = .writing rows i offset → offset + size ≤ (document rows).length →
      Step w (.write c size)
        { w with
          files := w.files.write i offset (((document rows).drop offset).take size)
          phase := Function.update w.phase c (.writing rows i (offset + size)) }
  | rename {c : Caller} {rows : List Route} {i : ℕ} {files : FileSystem String} :
      w.phase c = .writing rows i (document rows).length →
      w.files.rename (temporary path) path = some files →
      Step w (.rename c)
        { w with files := files, phase := Function.update w.phase c .written }
  | clear {c : Caller} {d' : Data} : w.phase c = .written → Section.flushed.run w.data = some d' →
      Step w (.clear c) { w with data := d', phase := Function.update w.phase c .idle }
  | fail {c : Caller} : w.phase c ≠ .idle → w.phase c ≠ .written →
      Step w (.fail c) { w with phase := Function.update w.phase c .idle }

/-- Flushes of one output path, on which there is a document. -/
def system : System World Label where
  init := fun w => w.data.output = some path ∧ (∀ c, w.phase c = .idle) ∧
    ∃ rows, w.files.read path = some (document rows)
  step := Step path

/-- The flushes, with the snapshots there have been. -/
def observed : System (World × List (List Route)) Label :=
  (system path).observe (fun w taken => ∃ rows, taken = [rows] ∧
      w.files.read path = some (document rows))
    fun taken w l _ =>
      match l with
      | .snapshot _ _ => taken ++ [w.data.routes.values]
      | _ => taken

/-- The file at the path is the document of one snapshot. -/
def Whole (w : World) (taken : List (List Route)) : Prop :=
  ∃ rows ∈ taken, w.files.read path = some (document rows)

/-- A flush is between its create and its rename. -/
def World.Writing (w : World) (c : Caller) : Prop :=
  ∃ rows i offset, w.phase c = .writing rows i offset

/-- No flush creates the temporary file while another one is writing to it. -/
def Apart (w : World) : Label → Prop
  | .create c => ∀ c' ≠ c, ¬ w.Writing c'
  | _ => True

/-! ### Runs in which the flushes are apart -/

/-- How the flushes in progress stand to the file system and to the snapshots. -/
structure Inv (w : World) (taken : List (List Route)) : Prop where
  whole : Whole path w taken
  holding : ∀ c rows, w.phase c = .holding rows → rows ∈ taken
  /-- A flush that is writing has the temporary file to itself, with the beginning of its
  document in it. -/
  writing : ∀ c rows i offset, w.phase c = .writing rows i offset → rows ∈ taken ∧
    offset ≤ (document rows).length ∧ w.files.dir (temporary path) = some i ∧
    w.files.content i = (document rows).take offset
  alone : ∀ c c', w.Writing c → w.Writing c' → c = c'

section

variable {path}

/-- Nobody is writing to the file at the path. -/
theorem Inv.dir_path_ne {w : World} {taken : List (List Route)} (hi : Inv path w taken) {c : Caller}
    {rows : List Route} {i offset : ℕ} (hc : w.phase c = .writing rows i offset) :
    w.files.dir path ≠ some i := fun hd =>
  ne_temporary path (w.files.distinct _ _ _ hd (hi.writing _ _ _ _ hc).2.2.1)

/-- All of the document is in the file that takes the name of the path. -/
theorem Inv.read_rename {w : World} {taken : List (List Route)} (hi : Inv path w taken) {c : Caller}
    {rows : List Route} {i : ℕ} {files : FileSystem String}
    (hc : w.phase c = .writing rows i (document rows).length)
    (hr : w.files.rename (temporary path) path = some files) :
    files.read path = some (document rows) := by
  obtain ⟨-, -, hdir, hcontent⟩ := hi.writing c rows i _ hc
  rw [FileSystem.read_rename hr, FileSystem.read, hdir, Option.map_some, hcontent,
    List.take_length]

end

/-- At first no caller has a handle, and the file is the document of no rows. -/
theorem Inv.init {p : World × List (List Route)} (hp : (observed path).init p) :
    Inv path p.1 p.2 := by
  obtain ⟨⟨-, hidle, -⟩, rows, htaken, hread⟩ := hp
  have hbusy : ∀ c, ¬ p.1.Writing c := by
    intro c hc
    obtain ⟨rows, i, offset, hc⟩ := hc
    rw [hidle c] at hc
    exact absurd hc (by simp)
  refine ⟨⟨rows, by rw [htaken]; exact List.mem_singleton_self _, hread⟩, fun c rows hc => ?_,
    fun c rows i offset hc => absurd ⟨rows, i, offset, hc⟩ (hbusy c),
    fun c _ hc _ => absurd hc (hbusy c)⟩
  rw [hidle c] at hc
  exact absurd hc (by simp)

/-- What is left to be shown of a step of one flush. The file system stays as it is, or no
other flush is writing. -/
theorem Inv.of_update {w w' : World} {taken taken' : List (List Route)} {c : Caller}
    {phase : Phase} (hi : Inv path w taken) (htaken : taken ⊆ taken')
    (hp : w'.phase = Function.update w.phase c phase) (hwhole : Whole path w' taken')
    (hholding : ∀ rows, phase = .holding rows → rows ∈ taken')
    (hwriting : ∀ rows i offset, phase = .writing rows i offset → rows ∈ taken' ∧
      offset ≤ (document rows).length ∧ w'.files.dir (temporary path) = some i ∧
      w'.files.content i = (document rows).take offset)
    (hother : (w'.files = w.files ∧ ∀ rows i offset, phase ≠ .writing rows i offset) ∨
      ∀ c' ≠ c, ¬ w.Writing c') : Inv path w' taken' := by
  have hself : w'.phase c = phase := by rw [hp, Function.update_self]
  -- the other flushes stay in their phases
  have hne : ∀ c' ≠ c, w'.phase c' = w.phase c' := fun c' hc => by rw [hp, Function.update_of_ne hc]
  have hback : ∀ c' ≠ c, w'.Writing c' → w.Writing c' := by
    intro c' hc hw
    unfold World.Writing at hw ⊢
    rwa [hne c' hc] at hw
  -- when this flush is writing, no other one is
  have hself_writing : w'.Writing c → ∀ c' ≠ c, ¬ w'.Writing c' := by
    intro hw c' hc hw'
    obtain ⟨rows, i, offset, hw⟩ := hw
    rw [hself] at hw
    rcases hother with ⟨-, hno⟩ | hno
    · exact hno rows i offset hw
    · exact hno c' hc (hback c' hc hw')
  refine ⟨hwhole, fun c' rows hc' => ?_, fun c' rows i offset hc' => ?_, fun c₁ c₂ h₁ h₂ => ?_⟩
  · by_cases hcc : c' = c
    · rw [hcc, hself] at hc'
      exact hholding rows hc'
    · rw [hne c' hcc] at hc'
      exact htaken (hi.holding c' rows hc')
  · by_cases hcc : c' = c
    · rw [hcc, hself] at hc'
      exact hwriting rows i offset hc'
    · rw [hne c' hcc] at hc'
      rcases hother with ⟨hfiles, -⟩ | hno
      · obtain ⟨hmem, hwritten⟩ := hi.writing c' rows i offset hc'
        rw [hfiles]
        exact ⟨htaken hmem, hwritten⟩
      · exact absurd ⟨rows, i, offset, hc'⟩ (hno c' hcc)
  · by_cases hc₁ : c₁ = c
    · by_contra hne'
      subst hc₁
      exact hself_writing h₁ c₂ (Ne.symm hne') h₂
    · by_cases hc₂ : c₂ = c
      · subst hc₂
        exact absurd h₁ (hself_writing h₂ c₁ hc₁)
      · exact hi.alone c₁ c₂ (hback c₁ hc₁ h₁) (hback c₂ hc₂ h₂)

/-- A step that does not change what is read at the path keeps the file whole. -/
theorem Whole.of_read {w w' : World} {taken taken' : List (List Route)} (h : Whole path w taken)
    (htaken : taken ⊆ taken') (hread : w'.files.read path = w.files.read path) :
    Whole path w' taken' := by
  obtain ⟨rows, hmem, hrows⟩ := h
  exact ⟨rows, htaken hmem, hread.trans hrows⟩

/-- **One step of flushes that are apart keeps the invariant.** -/
theorem Inv.step {p p' : World × List (List Route)} {l : Label} (hi : Inv path p.1 p.2)
    (hapart : Apart p.1 l) (hs : (observed path).step p l p') : Inv path p'.1 p'.2 := by
  obtain ⟨w, taken⟩ := p
  obtain ⟨w', taken'⟩ := p'
  obtain ⟨hs, hnext⟩ := hs
  change Inv path w taken at hi
  change Step path w l w' at hs
  -- by step: only a flush that is writing touches the temporary file, and there is one at most
  cases hs with
  | critical _ _ _ =>
    obtain rfl : taken' = taken := hnext
    exact ⟨hi.whole, hi.holding, hi.writing, hi.alone⟩
  | @snapshot c now rows hc hsnap =>
    obtain rfl : taken' = taken ++ [w.data.routes.values] := hnext
    have hsub : taken ⊆ taken ++ [w.data.routes.values] := List.subset_append_left _ _
    have hrows := snapshot_rows hsnap
    refine hi.of_update path hsub rfl (hi.whole.of_read path hsub rfl) (fun rows' h => ?_)
      (fun rows' i offset h => absurd h (by simp)) (Or.inl ⟨rfl, by simp⟩)
    obtain rfl := Phase.holding.inj h
    rw [hrows]
    exact List.mem_append_right _ (List.mem_singleton_self _)
  | @create c rows files i hc hcreate =>
    obtain rfl : taken' = taken := hnext
    -- the file is new or has been emptied, and nobody else is writing to it
    obtain ⟨hdir, hempty⟩ := w.files.create_spec (temporary path)
    have hread := w.files.read_create_of_ne (ne_temporary path)
    rw [hcreate] at hdir hempty hread
    refine hi.of_update path (List.Subset.refl _) rfl
      (hi.whole.of_read path (List.Subset.refl _) hread) (by simp)
      (fun rows' i' offset h => ?_) (Or.inr hapart)
    obtain ⟨rfl, rfl, rfl⟩ := Phase.writing.inj h
    exact ⟨hi.holding c rows hc, Nat.zero_le _, hdir, by rw [hempty, List.take_zero]⟩
  | @write c rows i offset size hc hsize =>
    -- a stretch of the document goes behind what has been written of it
    obtain rfl : taken' = taken := hnext
    obtain ⟨hmem, hoffset, hdir, hcontent⟩ := hi.writing c rows i offset hc
    refine hi.of_update path (List.Subset.refl _) rfl
      (hi.whole.of_read path (List.Subset.refl _)
        (FileSystem.read_write_of_ne (hi.dir_path_ne hc) _ _))
      (by simp) (fun rows' i' offset' h => ?_)
      (Or.inr fun c' hcc hw => hcc (hi.alone c' c hw ⟨rows, i, offset, hc⟩))
    obtain ⟨rfl, rfl, rfl⟩ := Phase.writing.inj h
    refine ⟨hmem, hsize, hdir, ?_⟩
    show (w.files.write i offset _).content i = _
    rw [FileSystem.content_write, hcontent, FileSystem.patch_take _ hoffset]
  | @rename c rows i files hc hrename =>
    -- the document is complete, so the path has it whole from now on
    obtain rfl : taken' = taken := hnext
    exact hi.of_update path (List.Subset.refl _) rfl
      ⟨rows, (hi.writing c rows i _ hc).1, hi.read_rename hc hrename⟩ (by simp) (by simp)
      (Or.inr fun c' hcc hw => hcc (hi.alone c' c hw ⟨rows, i, _, hc⟩))
  | clear hc hr =>
    obtain rfl : taken' = taken := hnext
    exact hi.of_update path (List.Subset.refl _) rfl
      (hi.whole.of_read path (List.Subset.refl _) rfl) (by simp) (by simp) (Or.inl ⟨rfl, by simp⟩)
  | fail _ _ =>
    obtain rfl : taken' = taken := hnext
    exact hi.of_update path (List.Subset.refl _) rfl
      (hi.whole.of_read path (List.Subset.refl _) rfl) (by simp) (by simp) (Or.inl ⟨rfl, by simp⟩)

/-- **The file is never torn while flushes are apart**: in every run in which no flush
creates the temporary file while another one is writing to it, the file at the path is at
every moment the document of one snapshot. -/
theorem apart_whole {p : World × List (List Route)}
    (hp : ((observed path).restrict fun p => Apart p.1).Reachable p) : Whole path p.1 p.2 := by
  have hinv : ((observed path).restrict fun p => Apart p.1).Invariant fun p => Inv path p.1 p.2 :=
    ⟨fun p hp => .init path hp, fun p l p' hi hs => hi.step path hs.1 hs.2⟩
  exact (hinv.reachable hp).whole

/-! A table with one row, on a path with the document of an empty one. -/

/-- An empty array under the path. -/
def startFiles : FileSystem String where
  dir := fun name => if name = "rib.json" then some 0 else none
  content := fun _ => document []
  next := 1
  bound := by
    intro name i h
    split at h
    · obtain rfl := Option.some.inj h
      exact Nat.one_pos
    · exact absurd h (by simp)
  distinct := by
    intro name name' i h h'
    split at h <;> split at h'
    · next hn hn' => rw [hn, hn']
    · exact absurd h' (by simp)
    · exact absurd h (by simp)
    · exact absurd h (by simp)

/-- A route has been announced, and nobody is writing. -/
def startWorld : World := ⟨announcedData, startFiles, fun _ => .idle⟩

theorem startWorld_init : (observed "rib.json").init (startWorld, [[]]) :=
  ⟨⟨by decide +kernel, fun _ => rfl, [], rfl⟩, [], rfl, rfl⟩

/-- The persistence worker has opened the temporary file. -/
def openedWorld : World where
  data := announcedData
  files := (startFiles.create (temporary "rib.json")).1
  phase := Function.update (Function.update startWorld.phase .periodic (.holding [Rib.sampleRow]))
    .periodic (.writing [Rib.sampleRow] 1 0)

/-- The temporary file gets a number of its own. -/
theorem startFiles_create :
    startFiles.create (temporary "rib.json") = ((startFiles.create (temporary "rib.json")).1, 1) :=
  Prod.ext rfl (by decide +kernel)

/-- The worker takes a snapshot and opens the temporary file. -/
theorem openedWorld_run : ((observed "rib.json").restrict fun p => Apart p.1).Run (startWorld, [[]])
    [.snapshot .periodic 6000000000, .create .periodic] (openedWorld, [[], [Rib.sampleRow]]) := by
  let w₁ : World := { startWorld with
    phase := Function.update startWorld.phase .periodic (.holding [Rib.sampleRow]) }
  have s₁ : ((observed "rib.json").restrict fun p => Apart p.1).step (startWorld, [[]])
      (.snapshot .periodic 6000000000) (w₁, [[], [Rib.sampleRow]]) :=
    ⟨trivial, .snapshot rfl snapshot_announced, by
      show _ = [[]] ++ [announcedData.routes.values]
      rw [values_announced]
      rfl⟩
  have s₂ : ((observed "rib.json").restrict fun p => Apart p.1).step (w₁, [[], [Rib.sampleRow]])
      (.create .periodic) (openedWorld, [[], [Rib.sampleRow]]) := by
    refine ⟨fun c hc hw => ?_, .create rfl startFiles_create, rfl⟩
    -- nobody else has begun
    obtain ⟨rows, i, offset, hw⟩ := hw
    change Function.update startWorld.phase .periodic _ c = _ at hw
    rw [Function.update_of_ne hc] at hw
    exact absurd (show Phase.idle = _ from hw) (by simp)
  exact (System.Run.nil.snoc s₁).snoc s₂

/-- The temporary name stands for the file that was opened. -/
theorem openedWorld_dir : openedWorld.files.dir (temporary "rib.json") = some 1 := by
  decide +kernel

/-- A flush that is alone replaces the document. -/
theorem apart_whole_opened : ∃ p, ((observed "rib.json").restrict fun p => Apart p.1).Reachable p ∧
    p.1.phase .periodic = .written ∧ Whole "rib.json" p.1 p.2 := by
  -- the document is written in one piece
  let w₁ : World := { openedWorld with
    files := openedWorld.files.write 1 0 (((document [Rib.sampleRow]).drop 0).take
      (document [Rib.sampleRow]).length)
    phase := Function.update openedWorld.phase .periodic
      (.writing [Rib.sampleRow] 1 (0 + (document [Rib.sampleRow]).length)) }
  have hdir : w₁.files.dir (temporary "rib.json") = some 1 := by
    rw [FileSystem.dir_write, openedWorld_dir]
  obtain ⟨files, hrename⟩ := FileSystem.exists_rename hdir "rib.json"
  have s₁ : ((observed "rib.json").restrict fun p => Apart p.1).step
      (openedWorld, [[], [Rib.sampleRow]])
      (.write .periodic (document [Rib.sampleRow]).length) (w₁, [[], [Rib.sampleRow]]) :=
    ⟨trivial, .write rfl (Nat.zero_add _).le, rfl⟩
  -- the whole document has been written
  have hwritten : w₁.phase .periodic
      = .writing [Rib.sampleRow] 1 (document [Rib.sampleRow]).length := by
    show Phase.writing _ _ _ = _
    rw [Nat.zero_add]
  have s₂ : ((observed "rib.json").restrict fun p => Apart p.1).step (w₁, [[], [Rib.sampleRow]])
      (.rename .periodic) ({ w₁ with
        files := files, phase := Function.update w₁.phase .periodic .written },
        [[], [Rib.sampleRow]]) :=
    ⟨trivial, .rename hwritten hrename, rfl⟩
  have hopened : ((observed "rib.json").restrict fun p => Apart p.1).Reachable
      (openedWorld, [[], [Rib.sampleRow]]) := ⟨_, _, startWorld_init, openedWorld_run⟩
  have hp := (hopened.step s₁).step s₂
  exact ⟨_, hp, rfl, apart_whole "rib.json" hp⟩

/-! The session ends while the file is open, and its last flush creates the same file. -/

/-- The section at the end of a session, which clears the routes. -/
def ended : Section := .runEnded 6000000001

/-- The data behind it. -/
def endedData : Data := (ended.run announcedData).get (by decide +kernel)

/-- What is in the file then. -/
def tornContent : Bytes :=
  FileSystem.patch (FileSystem.patch [] 0 (document [Rib.sampleRow])) 0 (document [])

/-- **Two flushes that share the temporary file**: the shorter document ends in the longer
one, and that is what stays behind both. -/
theorem shared_torn : ∃ p, (observed "rib.json").init (startWorld, [[]]) ∧
    (observed "rib.json").Run (startWorld, [[]]) [.snapshot .periodic 6000000000, .create .periodic,
      .critical ended, .snapshot (.forced 0) 6000000001, .create (.forced 0),
      .write .periodic (document [Rib.sampleRow]).length,
      .write (.forced 0) (document []).length, .rename .periodic, .clear .periodic,
      .fail (.forced 0)] p ∧
    (∀ c, p.1.phase c = .idle) ∧ ¬ Whole "rib.json" p.1 p.2 := by
  let taken : List (List Route) := [[], [Rib.sampleRow]]
  let row := document [Rib.sampleRow]
  let empty := document []
  let last : Caller := .forced 0
  -- the periodic flush is about to write, and the session ends meanwhile
  let w₀ : World := { openedWorld with data := endedData }
  -- the forced flush takes the empty table, and truncates the same file
  let w₁ : World := { w₀ with phase := Function.update w₀.phase last (.holding []) }
  let w₂ : World := { w₁ with
    files := w₁.files.truncate 1, phase := Function.update w₁.phase last (.writing [] 1 0) }
  -- both write from the beginning of the file, each what it has taken
  let w₃ : World := { w₂ with
    files := w₂.files.write 1 0 ((row.drop 0).take row.length)
    phase := Function.update w₂.phase .periodic (.writing [Rib.sampleRow] 1 (0 + row.length)) }
  let w₄ : World := { w₃ with
    files := w₃.files.write 1 0 ((empty.drop 0).take empty.length)
    phase := Function.update w₃.phase last (.writing [] 1 (0 + empty.length)) }
  have hdir : w₄.files.dir (temporary "rib.json") = some 1 := by
    rw [FileSystem.dir_write, FileSystem.dir_write]
    exact openedWorld_dir
  obtain ⟨files, hrename⟩ := FileSystem.exists_rename hdir "rib.json"
  -- the first to be done renames the file, and the other finds none
  let w₅ : World := { w₄ with
    files := files, phase := Function.update w₄.phase .periodic .written }
  let w₆ : World := { w₅ with
    data := { endedData with dirty := none }, phase := Function.update w₅.phase .periodic .idle }
  let w₇ : World := { w₆ with phase := Function.update w₆.phase last .idle }
  have hopened : (observed "rib.json").Run (startWorld, [[]])
      [.snapshot .periodic 6000000000, .create .periodic] (openedWorld, taken) :=
    openedWorld_run.of_restrict
  have s₀ : (observed "rib.json").step (openedWorld, taken) (.critical ended) (w₀, taken) :=
    ⟨.critical (by simp [ended]) (Option.some_get _).symm (by decide +kernel), rfl⟩
  have s₁ : (observed "rib.json").step (w₀, taken) (.snapshot last 6000000001)
      (w₁, taken ++ [endedData.routes.values]) :=
    ⟨.snapshot rfl (by decide +kernel), rfl⟩
  have hrows : endedData.routes.values = [] := by decide +kernel
  rw [hrows] at s₁
  have s₂ : (observed "rib.json").step (w₁, taken ++ [[]]) (.create last) (w₂, taken ++ [[]]) :=
    ⟨.create rfl (FileSystem.create_of_dir openedWorld_dir), rfl⟩
  have s₃ : (observed "rib.json").step (w₂, taken ++ [[]]) (.write .periodic row.length)
      (w₃, taken ++ [[]]) := ⟨.write rfl (Nat.zero_add _).le, rfl⟩
  have s₄ : (observed "rib.json").step (w₃, taken ++ [[]]) (.write last empty.length)
      (w₄, taken ++ [[]]) := ⟨.write rfl (Nat.zero_add _).le, rfl⟩
  have hwritten : w₄.phase .periodic = .writing [Rib.sampleRow] 1 row.length := by
    show Phase.writing _ _ (0 + row.length) = _
    rw [Nat.zero_add]
  have s₅ : (observed "rib.json").step (w₄, taken ++ [[]]) (.rename .periodic)
      (w₅, taken ++ [[]]) := ⟨.rename hwritten hrename, rfl⟩
  have s₆ : (observed "rib.json").step (w₅, taken ++ [[]]) (.clear .periodic)
      (w₆, taken ++ [[]]) := ⟨.clear rfl rfl, rfl⟩
  have s₇ : (observed "rib.json").step (w₆, taken ++ [[]]) (.fail last) (w₇, taken ++ [[]]) :=
    ⟨.fail (by simp [w₆, w₅, w₄, last]) (by simp [w₆, w₅, w₄, last]), rfl⟩
  have hp := (((((((hopened.snoc s₀).snoc s₁).snoc s₂).snoc s₃).snoc s₄).snoc s₅).snoc s₆).snoc s₇
  -- the shorter document is over the beginning of the longer one
  have hcontent : w₄.files.content 1 = tornContent := by
    show (w₃.files.write 1 0 _).content 1 = _
    rw [FileSystem.content_write]
    show FileSystem.patch ((w₂.files.write 1 0 _).content 1) 0 _ = _
    rw [FileSystem.content_write, show w₂.files.content 1 = [] from FileSystem.content_truncate 1,
      List.drop_zero, List.take_length, List.drop_zero, List.take_length, tornContent]
  have hread : files.read "rib.json" = some tornContent := by
    rw [FileSystem.read_rename hrename, FileSystem.read, hdir, Option.map_some, hcontent]
  refine ⟨_, startWorld_init, hp, fun c => ?_, fun h => ?_⟩
  · by_cases hlast : c = last
    · rw [hlast]
      rfl
    · show Function.update w₆.phase last .idle c = _
      rw [Function.update_of_ne hlast]
      show Function.update w₅.phase .periodic .idle c = _
      by_cases hc : c = .periodic
      · rw [hc, Function.update_self]
      · simp [w₅, w₄, w₃, w₂, w₁, w₀, openedWorld, startWorld, Function.update_of_ne hc,
          Function.update_of_ne hlast]
  · -- it is the document of none of the snapshots
    obtain ⟨rows, hmem, hrows'⟩ := h
    have hdoc : tornContent = document rows := Option.some.inj (hread.symm.trans hrows')
    have hnone : ∀ rows ∈ taken ++ [[]], tornContent ≠ document rows := by decide +kernel
    exact hnone rows hmem hdoc

/-! ### The file operations as one step -/

/-- A flush shows nothing until its rename. -/
def Phase.coarse : Phase → Persist.Phase
  | idle => .idle
  | holding rows => .holding rows
  | writing rows _ _ => .holding rows
  | written => .written

/-- The world without its files: a file is what is read at the path. -/
def World.coarse (w : World) : Persist.World where
  data := w.data
  file := (w.files.read path).getD []
  phase := Phase.coarse ∘ w.phase

/-- The steps of flushes that are apart, with file operations that succeed. -/
def Smooth (w : World) (l : Label) : Prop := Apart w l ∧ ∀ c, l ≠ .fail c

/-- A step is one of the coarser system, or shows nothing. -/
theorem coarse_step {w w' : World} {taken : List (List Route)} {l : Label}
    (hi : Inv path w taken) (hl : Smooth w l) (hs : Step path w l w') :
    w'.coarse path = w.coarse path ∨
      ∃ l', Persist.Step path (w.coarse path) l' (w'.coarse path) := by
  -- two phases that hold the same rows are one phase of the abstract flush
  have hkeep : ∀ {c rows} {phase : Phase}, (w.phase c).coarse = .holding rows →
      phase.coarse = .holding rows →
      Phase.coarse ∘ Function.update w.phase c phase = Phase.coarse ∘ w.phase := by
    intro c rows phase hc hphase
    rw [Function.comp_update, hphase, ← hc]
    exact Function.update_eq_self c (Phase.coarse ∘ w.phase)
  cases hs with
  | @critical s d' hne hr hout => exact Or.inr ⟨.critical s, .critical hne hr hout⟩
  | @snapshot c now rows hc hsnap =>
    refine Or.inr ⟨.snapshot c now, ?_⟩
    have hstep := Persist.Step.snapshot (w := w.coarse path) (c := c)
      (congrArg Phase.coarse hc) hsnap
    unfold World.coarse at hstep ⊢
    rwa [Function.comp_update]
  | @create c rows files i hc hcreate =>
    -- the temporary file is not the file at the path
    have hread := w.files.read_create_of_ne (ne_temporary path)
    rw [hcreate] at hread
    refine Or.inl ?_
    unfold World.coarse
    rw [hread, hkeep (congrArg Phase.coarse hc) rfl]
  | @write c rows i offset size hc hsize =>
    refine Or.inl ?_
    unfold World.coarse
    rw [FileSystem.read_write_of_ne (hi.dir_path_ne hc), hkeep (congrArg Phase.coarse hc) rfl]
  | @rename c rows i files hc hrename =>
    -- the rename is the moment at which the abstract flush writes
    refine Or.inr ⟨.write c, ?_⟩
    have hstep : Persist.Step path (w.coarse path) (.write c) _ :=
      .write (congrArg Phase.coarse hc)
    unfold World.coarse at hstep ⊢
    rwa [Function.comp_update, hi.read_rename hc hrename]
  | @clear c d' hc hr =>
    refine Or.inr ⟨.clear c, ?_⟩
    have hstep : Persist.Step path (w.coarse path) (.clear c) _ :=
      .clear (congrArg Phase.coarse hc) hr
    unfold World.coarse at hstep ⊢
    rwa [Function.comp_update]
  | fail _ _ => exact absurd rfl (hl.2 _)

/-- **Flushes that are apart replace the file in one step**: their runs are runs of
`flushes`. -/
theorem apart_refines {w₀ w : World} {ls : List Label} (hw₀ : (system path).init w₀)
    (hr : ((system path).restrict Smooth).Run w₀ ls w) :
    ∃ ls', (flushes path).Run (w₀.coarse path) ls' (w.coarse path) := by
  obtain ⟨hout, hidle, rows, hread⟩ := hw₀
  refine hr.image (P := fun w => ∃ taken, Inv path w taken) ?_ ?_
    ⟨[rows], .init path (p := (w₀, [rows])) ⟨⟨hout, hidle, rows, hread⟩, rows, rfl, hread⟩⟩
  · intro w l w' hi hs
    obtain ⟨taken, hi⟩ := hi
    have hstep : (observed path).step (w, taken) l (w', _) := ⟨hs.2, rfl⟩
    exact ⟨_, hi.step path hs.1.1 hstep⟩
  · intro w l w' hi hs
    obtain ⟨taken, hi⟩ := hi
    exact coarse_step path hi hs.1 hs.2

end Files

end Persist
