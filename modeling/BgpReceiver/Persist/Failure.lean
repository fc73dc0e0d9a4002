import BgpReceiver.Persist.Files

/-!
# A flush that fails

One call of `flush`, operation by operation: the temporary file is created, the pieces of
the document go through a buffer into it, the buffer is flushed, the file is synced, and it
is renamed to the output path (`operations`). Each operation may fail, and the call returns
the error then. The critical sections of all other tasks come in between; no other flush is
in progress.

The buffer hands on what it has when it likes, so that any beginning of what has been
written to it may be in the temporary file, also behind a failure. Nothing but the last
operation touches another name, and it is atomic. So the file at the path is what it was
until the call succeeds (`Stage`). The call takes no lock before its end, and the mark goes
only then: what it leaves behind of the data is what the other tasks have made of it
(`data_run`).

Both together are `flush_failure`.
-/

namespace Persist

open Rib (Data Route Section)

namespace Failure

open Files (temporary ne_temporary)

/-! ### The operations -/

/-- A file operation of the second phase. A row is written in many small pieces; here they
are one. -/
inductive Operation
  | create
  | write (piece : String)
  | flush
  | sync
  | rename

/-- The operations, in order. -/
def operations (rows : List Route) : List Operation :=
  .create :: ((pieces rows).map .write ++ [.flush, .sync, .rename])

/-- The `BufWriter`: the file, how much of it has been written, and what waits in the
buffer. -/
structure Writer where
  inode : ℕ
  offset : ℕ
  buffer : Bytes

namespace Writer

/-- A piece goes to the buffer, which is written out when it gets too long, as the buffer of a
`BufWriter` is. -/
def accept (wr : Writer) (piece : String) : Writer :=
  { wr with buffer := wr.buffer ++ piece.toUTF8.data.toList }

/-- What is left when so much of the buffer has been handed on. -/
def rest (wr : Writer) (size : ℕ) : Writer :=
  { wr with offset := wr.offset + min size wr.buffer.length, buffer := wr.buffer.drop size }

/-- The files when so much of the buffer has been handed on. -/
def spill (wr : Writer) (size : ℕ) (files : FileSystem String) : FileSystem String :=
  files.write wr.inode wr.offset (wr.buffer.take size)

end Writer

/-- How far the call has come. -/
inductive Phase
  /-- the operations that are left -/
  | operating (todo : List Operation) (writer : Option Writer)
  /-- behind the return, with or without an error -/
  | returned (ok : Bool)

/-- The data, the files and the one call that is looked at. -/
structure World where
  data : Data
  files : FileSystem String
  phase : Phase

/-- What can happen: an operation of the call, which may fail, or a section beside it. -/
inductive Label
  /-- a critical section of another task -/
  | critical (s : Section)
  | done (op : Operation) (size : ℕ)
  | fail (op : Operation) (size : ℕ)
  /-- the last section of the call -/
  | clean

variable (path : String)

/-- What an operation does that succeeds. -/
def perform (files : FileSystem String) (size : ℕ) :
    Operation → Option Writer → Option (FileSystem String × Option Writer)
  | .create, _ =>
    some ((files.create (temporary path)).1, some ⟨(files.create (temporary path)).2, 0, []⟩)
  | .write piece, some wr =>
    some ((wr.accept piece).spill size files, some ((wr.accept piece).rest size))
  | .flush, some wr => some (wr.spill wr.buffer.length files, some (wr.rest wr.buffer.length))
  | .sync, some wr => some (files, some wr)
  | .rename, some wr => (files.rename (temporary path) path).map fun files => (files, some wr)
  | _, none => none

/-- What an operation leaves behind that fails. The buffer is dropped then, and may hand
something on for the last time. -/
def abort (files : FileSystem String) (size : ℕ) : Operation → Option Writer → FileSystem String
  | .create, _ => if size = 0 then files else (files.create (temporary path)).1
  | .write piece, some wr => (wr.accept piece).spill size files
  | .flush, some wr => wr.spill size files
  | _, _ => files

/-- An operation succeeds and the next one is due, or it fails and the call returns its error. -/
inductive Step (w : World) : Label → World → Prop
  | critical {s : Section} {d' : Data} : s ≠ .flushed → s.run w.data = some d' →
      Step w (.critical s) { w with data := d' }
  | done {op : Operation} {todo : List Operation} {writer writer' : Option Writer} {size : ℕ}
      {files : FileSystem String} : w.phase = .operating (op :: todo) writer →
      perform path w.files size op writer = some (files, writer') →
      Step w (.done op size) { w with files := files, phase := .operating todo writer' }
  | fail {op : Operation} {todo : List Operation} {writer : Option Writer} {size : ℕ} :
      w.phase = .operating (op :: todo) writer →
      Step w (.fail op size)
        { w with files := abort path w.files size op writer, phase := .returned false }
  | clean {writer : Option Writer} {d' : Data} : w.phase = .operating [] writer →
      Section.flushed.run w.data = some d' →
      Step w .clean { w with data := d', phase := .returned true }

/-- A call behind its first phase. -/
def call (rows : List Route) (d : Data) (files : FileSystem String) : World :=
  ⟨d, files, .operating (operations rows) none⟩

/-- The runs of a call that has taken a snapshot. -/
def system (rows : List Route) (d : Data) (files : FileSystem String) : System World Label where
  init := fun w => w = call rows d files
  step := Step path

/-! ### The files -/

variable {path}

/-- Names other than the temporary one have what they had. -/
def Untouched (path : String) (files₀ files : FileSystem String) : Prop :=
  ∀ name ≠ temporary path, files.read name = files₀.read name

theorem document_eq (rows : List Route) :
    document rows = (pieces rows).flatMap fun piece => piece.toUTF8.data.toList := by
  have hjoin : ∀ l : List String, (String.join l).toUTF8.data.toList
      = l.flatMap fun piece => piece.toUTF8.data.toList := by
    intro l
    induction l with
    | nil => rfl
    | cons s l ih =>
      rw [String.join_cons, List.flatMap_cons, ← ih]
      simp [String.toUTF8, String.toByteArray_append]
  exact hjoin _

/-- The temporary file is open, with the beginning of the document in it; the next bytes are
in the buffer, and the pieces that are left are behind them. -/
structure Open (path : String) (rows : List Route) (files : FileSystem String) (wr : Writer)
    (left : List String) : Prop where
  dir : files.dir (temporary path) = some wr.inode
  content : files.content wr.inode = (document rows).take wr.offset
  offset : wr.offset ≤ (document rows).length
  buffer : (document rows).drop wr.offset
    = wr.buffer ++ left.flatMap fun piece => piece.toUTF8.data.toList

/-- The buffer and the file hold together what has been accepted. -/
theorem Open.accept {rows : List Route} {files : FileSystem String} {wr : Writer} {piece : String}
    {left : List String} (h : Open path rows files wr (piece :: left)) :
    Open path rows files (wr.accept piece) left where
  dir := h.dir
  content := h.content
  offset := h.offset
  buffer := by rw [Writer.accept, h.buffer, List.flatMap_cons, List.append_assoc]

/-- Writing to the temporary file leaves the others alone. -/
theorem Open.untouched {rows : List Route} {files files₀ : FileSystem String} {wr : Writer}
    {left : List String} (h : Open path rows files wr left) (hu : Untouched path files₀ files)
    (size : ℕ) : Untouched path files₀ (wr.spill size files) := by
  intro name hname
  have hdir : files.dir name ≠ some wr.inode := fun hd =>
    hname (files.distinct _ _ _ hd h.dir)
  rw [Writer.spill, FileSystem.read_write_of_ne hdir]
  exact hu name hname

/-- What is handed on continues the document. -/
theorem Open.spill {rows : List Route} {files : FileSystem String} {wr : Writer}
    {left : List String} (h : Open path rows files wr left) (size : ℕ) :
    Open path rows (wr.spill size files) (wr.rest size) left := by
  have hlen : (document rows).length - wr.offset
      = wr.buffer.length + (left.flatMap fun piece => piece.toUTF8.data.toList).length := by
    rw [← List.length_drop, h.buffer, List.length_append]
  have hoffset := h.offset
  -- the buffer is the next part of the document
  have htake : wr.buffer.take size
      = ((document rows).drop wr.offset).take (min size wr.buffer.length) := by
    rw [h.buffer, List.take_append_of_le_length (min_le_right _ _), ← List.take_eq_take_min]
  refine ⟨h.dir, ?_, ?_, ?_⟩
  · show (files.write wr.inode wr.offset _).content wr.inode = _
    rw [FileSystem.content_write, h.content, htake, FileSystem.patch_take _ hoffset]
    rfl
  · show wr.offset + min size wr.buffer.length ≤ _
    omega
  · show (document rows).drop (wr.offset + min size wr.buffer.length) = wr.buffer.drop size ++ _
    rw [← List.drop_drop, h.buffer, List.drop_append_of_le_length (min_le_right _ _)]
    congr 1
    by_cases hs : size ≤ wr.buffer.length
    · rw [min_eq_left hs]
    · rw [min_eq_right (by omega), List.drop_length, List.drop_of_length_le (by omega)]

/-- When nothing is left, the document is in the temporary file. -/
theorem Open.flushed {rows : List Route} {files : FileSystem String} {wr : Writer}
    (h : Open path rows files wr []) :
    (wr.spill wr.buffer.length files).read (temporary path) = some (document rows) := by
  obtain ⟨hdir, hcontent, -, hbuffer⟩ := h.spill wr.buffer.length
  have hall : (document rows).length ≤ (wr.rest wr.buffer.length).offset := by
    refine List.drop_eq_nil_iff.mp ?_
    rw [hbuffer, Writer.rest, List.drop_length]
    rfl
  rw [FileSystem.read, show (wr.spill wr.buffer.length files).dir (temporary path)
    = some (wr.rest wr.buffer.length).inode from hdir, Option.map_some, hcontent,
    List.take_of_length_le hall]

/-- How far a call is, and what that means for the files. -/
inductive Stage (path : String) (rows : List Route) (files₀ : FileSystem String) (w : World) : Prop
  | called : w.phase = .operating (operations rows) none → Untouched path files₀ w.files →
      Stage path rows files₀ w
  | writing {wr : Writer} {left : List String} :
      w.phase = .operating (left.map .write ++ [.flush, .sync, .rename]) (some wr) →
      Untouched path files₀ w.files → Open path rows w.files wr left → Stage path rows files₀ w
  | flushed {wr : Writer} : w.phase = .operating [.sync, .rename] (some wr) →
      Untouched path files₀ w.files → w.files.read (temporary path) = some (document rows) →
      Stage path rows files₀ w
  | synced {wr : Writer} : w.phase = .operating [.rename] (some wr) →
      Untouched path files₀ w.files → w.files.read (temporary path) = some (document rows) →
      Stage path rows files₀ w
  | renamed {wr : Writer} : w.phase = .operating [] (some wr) →
      w.files.read path = some (document rows) → Stage path rows files₀ w
  | failed : w.phase = .returned false → Untouched path files₀ w.files → Stage path rows files₀ w
  | succeeded : w.phase = .returned true → w.files.read path = some (document rows) →
      Stage path rows files₀ w

/-- **An operation that succeeds** leads to the next stage. -/
theorem Stage.done {rows : List Route} {files₀ : FileSystem String} {w : World}
    (h : Stage path rows files₀ w) {op : Operation} {todo : List Operation}
    {writer writer' : Option Writer} {size : ℕ} {files : FileSystem String}
    (hphase : w.phase = .operating (op :: todo) writer)
    (hp : perform path w.files size op writer = some (files, writer')) :
    Stage path rows files₀ { w with files := files, phase := .operating todo writer' } := by
  cases h with
  | called hcalled hu =>
    rw [hcalled] at hphase
    obtain ⟨⟨rfl, rfl⟩, rfl⟩ := by simpa [operations] using hphase
    obtain ⟨rfl, rfl⟩ := Prod.mk.inj (Option.some.inj hp)
    -- the file is empty, and the whole document is left to be written
    obtain ⟨hdir, hempty⟩ := w.files.create_spec (temporary path)
    refine @Stage.writing path rows files₀ _ _ _ rfl (fun name hname => ?_)
      ⟨hdir, ?_, Nat.zero_le _, ?_⟩
    · exact (w.files.read_create_of_ne hname).trans (hu name hname)
    · exact hempty.trans List.take_zero.symm
    · rw [List.drop_zero, List.nil_append, document_eq]
  | @writing wr left hwriting hu hopen =>
    rw [hwriting] at hphase
    -- the operation is the flush when no piece is left, and else a write
    cases left with
    | nil =>
      obtain ⟨⟨rfl, rfl⟩, rfl⟩ := by simpa using hphase
      obtain ⟨rfl, rfl⟩ := Prod.mk.inj (Option.some.inj hp)
      exact .flushed rfl (hopen.untouched hu _) hopen.flushed
    | cons piece left =>
      obtain ⟨⟨rfl, rfl⟩, rfl⟩ := by simpa using hphase
      obtain ⟨rfl, rfl⟩ := Prod.mk.inj (Option.some.inj hp)
      exact .writing rfl (hopen.accept.untouched hu _) (hopen.accept.spill _)
  | flushed hflushed hu hread =>
    rw [hflushed] at hphase
    obtain ⟨⟨rfl, rfl⟩, rfl⟩ := by simpa using hphase
    obtain ⟨rfl, rfl⟩ := Prod.mk.inj (Option.some.inj hp)
    exact .synced rfl hu hread
  | synced hsynced hu hread =>
    rw [hsynced] at hphase
    obtain ⟨⟨rfl, rfl⟩, rfl⟩ := by simpa using hphase
    obtain ⟨files', hrename, hp⟩ := Option.map_eq_some_iff.mp hp
    obtain ⟨rfl, rfl⟩ := Prod.mk.inj hp
    exact .renamed rfl ((FileSystem.read_rename hrename).trans hread)
  | renamed hrenamed _ =>
    rw [hrenamed] at hphase
    exact absurd hphase (by simp)
  | failed hret _ | succeeded hret _ =>
    rw [hret] at hphase
    exact absurd hphase (by simp)

/-- **An operation that fails** leaves the other names alone. -/
theorem Stage.fail {rows : List Route} {files₀ : FileSystem String} {w : World}
    (h : Stage path rows files₀ w) {op : Operation} {todo : List Operation}
    {writer : Option Writer} (hphase : w.phase = .operating (op :: todo) writer) (size : ℕ) :
    Untouched path files₀ (abort path w.files size op writer) := by
  -- by stage: what is there of the temporary file, and the path untouched
  cases h with
  | called hcalled hu =>
    rw [hcalled] at hphase
    obtain ⟨⟨rfl, rfl⟩, rfl⟩ := by simpa [operations] using hphase
    -- the create may have failed before or after it took effect
    intro name hname
    rw [abort]
    split_ifs
    · exact hu name hname
    · exact (w.files.read_create_of_ne hname).trans (hu name hname)
  | @writing wr left hwriting hu hopen =>
    rw [hwriting] at hphase
    -- either the last piece has been accepted, or the next one fails in part
    cases left with
    | nil =>
      obtain ⟨⟨rfl, rfl⟩, rfl⟩ := by simpa using hphase
      exact hopen.untouched hu size
    | cons piece left =>
      obtain ⟨⟨rfl, rfl⟩, rfl⟩ := by simpa using hphase
      exact hopen.accept.untouched hu size
  | flushed hflushed hu _ =>
    rw [hflushed] at hphase
    obtain ⟨⟨rfl, rfl⟩, rfl⟩ := by simpa using hphase
    exact hu
  | synced hsynced hu _ =>
    rw [hsynced] at hphase
    obtain ⟨⟨rfl, rfl⟩, rfl⟩ := by simpa using hphase
    exact hu
  | renamed hrenamed _ =>
    rw [hrenamed] at hphase
    exact absurd hphase (by simp)
  | failed hret _ | succeeded hret _ =>
    rw [hret] at hphase
    exact absurd hphase (by simp)

/-- **One step of the call or of another task.** -/
theorem Stage.step {rows : List Route} {files₀ : FileSystem String} {w w' : World} {l : Label}
    (h : Stage path rows files₀ w) (hs : Step path w l w') : Stage path rows files₀ w' := by
  cases hs with
  | critical _ _ =>
    -- the section of another task is on the data only
    cases h with
    | called hp hu => exact .called hp hu
    | writing hp hu hopen => exact .writing hp hu hopen
    | flushed hp hu hread => exact .flushed hp hu hread
    | synced hp hu hread => exact .synced hp hu hread
    | renamed hp hread => exact .renamed hp hread
    | failed hp hu => exact .failed hp hu
    | succeeded hp hread => exact .succeeded hp hread
  | done hphase hp => exact h.done hphase hp
  | fail hphase => exact .failed rfl (h.fail hphase _)
  | clean hphase _ =>
    -- only the rename is behind all of the operations
    cases h with
    | renamed _ hread => exact .succeeded rfl hread
    | called hp _ => exact absurd (hp.symm.trans hphase) (by simp [operations])
    | writing hp _ _ => exact absurd (hp.symm.trans hphase) (by simp)
    | flushed hp _ _ => exact absurd (hp.symm.trans hphase) (by simp)
    | synced hp _ _ => exact absurd (hp.symm.trans hphase) (by simp)
    | failed hp _ => exact absurd (hp.symm.trans hphase) (by simp)
    | succeeded hp _ => exact absurd (hp.symm.trans hphase) (by simp)

/-- A call that fails leaves the file as it was. -/
theorem Stage.untouched {rows : List Route} {files₀ : FileSystem String} {w : World}
    (h : Stage path rows files₀ w) (hret : w.phase = .returned false) :
    Untouched path files₀ w.files := by
  cases h with
  | called _ hu | writing _ hu _ | flushed _ hu _ | synced _ hu _ | failed _ hu => exact hu
  | renamed hp _ | succeeded hp _ =>
    rw [hret] at hp
    exact absurd hp (by simp)

/-- A call that succeeds leaves the document. -/
theorem Stage.document {rows : List Route} {files₀ : FileSystem String} {w : World}
    (h : Stage path rows files₀ w) (hret : w.phase = .returned true) :
    w.files.read path = some (document rows) := by
  cases h with
  | succeeded _ hread | renamed _ hread => exact hread
  | called hp _ | writing hp _ _ | flushed hp _ _ | synced hp _ _ | failed hp _ =>
    rw [hret] at hp
    exact absurd hp (by simp)

/-! ### The data -/

/-- The critical section that a step is, if it is one. -/
def sectionOf : Label → Option Section
  | .critical s => some s
  | .clean => some .flushed
  | .done _ _ | .fail _ _ => none

theorem sections_concat (ls : List Label) (l : Label) :
    (ls ++ [l]).filterMap sectionOf = ls.filterMap sectionOf ++ (sectionOf l).toList := by
  rw [List.filterMap_append]
  cases hl : sectionOf l <;> simp [hl]

/-- An operation on the files is no section. -/
theorem sections_concat_of_none (ls : List Label) {l : Label} (hl : sectionOf l = none) :
    (ls ++ [l]).filterMap sectionOf = ls.filterMap sectionOf := by
  rw [sections_concat, hl, Option.toList_none, List.append_nil]

/-- What a run has done to the data, and whether it may have ended well. -/
structure Progress (d : Data) (ls : List Label) (w : World) : Prop where
  /-- The data is what the critical sections have made of it. -/
  data : Rib.sections.Run d (ls.filterMap sectionOf) w.data
  /-- The mark has not been taken away. -/
  clean : w.phase ≠ .returned true → Section.flushed ∉ ls.filterMap sectionOf
  /-- A failure is returned. -/
  error : (∃ op size, .fail op size ∈ ls) → w.phase = .returned false

/-- What has become of the data in the meantime is kept by every step. -/
theorem Progress.step {d : Data} {ls : List Label} {w w' : World} {l : Label}
    (h : Progress d ls w) (hs : Step path w l w') : Progress d (ls ++ [l]) w' := by
  obtain ⟨hdata, hclean, herror⟩ := h
  -- a call that has returned does nothing any more
  have hold : ∀ {phase}, w.phase = phase → phase ≠ .returned false →
      ¬ ∃ op size, .fail op size ∈ ls := by
    rintro phase rfl hne hfail
    exact hne (herror hfail)
  cases hs with
  | @critical s d' hne hr =>
    refine ⟨?_, fun hp => ?_, fun hfail => ?_⟩
    · rw [sections_concat]
      exact hdata.snoc hr
    · rw [sections_concat, List.mem_append, not_or]
      exact ⟨hclean hp, by simpa [sectionOf] using hne.symm⟩
    · obtain ⟨op, size, hmem⟩ := hfail
      exact herror ⟨op, size, by simpa using hmem⟩
  | @done op _ _ _ size _ hphase hp =>
    have hsame := @sections_concat_of_none ls (.done op size) rfl
    refine ⟨hsame ▸ hdata, fun _ => hsame ▸ hclean (by rw [hphase]; simp), fun hfail => ?_⟩
    obtain ⟨op, size, hmem⟩ := hfail
    exact absurd ⟨op, size, by simpa using hmem⟩ (hold hphase (by simp))
  | @fail op _ _ size hphase =>
    have hsame := @sections_concat_of_none ls (.fail op size) rfl
    exact ⟨hsame ▸ hdata, fun _ => hsame ▸ hclean (by rw [hphase]; simp), fun _ => rfl⟩
  | clean hphase hr =>
    -- the last section clears the mark, behind all operations
    refine ⟨?_, fun hp => absurd rfl hp, fun hfail => ?_⟩
    · rw [sections_concat]
      exact hdata.snoc hr
    · obtain ⟨op, size, hmem⟩ := hfail
      exact absurd ⟨op, size, by simpa using hmem⟩ (hold hphase (by simp))

/-- **A run of one call**: the stage of its files, and what has been done to the data. -/
theorem call_run {rows : List Route} {d : Data} {files : FileSystem String} {ls : List Label}
    {w : World} (hr : (system path rows d files).Run (call rows d files) ls w) :
    Stage path rows files w ∧ Progress d ls w := by
  induction hr with
  | nil =>
    refine ⟨.called rfl fun _ _ => rfl, .nil, fun _ => List.not_mem_nil, fun h => ?_⟩
    obtain ⟨op, size, hmem⟩ := h
    exact absurd hmem List.not_mem_nil
  | snoc _ hs ih => exact ⟨ih.1.step hs, ih.2.step hs⟩

/-- **A mark stays** until a flush takes it away. -/
theorem marked_run {d d' : Data} {ss : List Section} (hr : Rib.sections.Run d ss d')
    (hss : .flushed ∉ ss) (hd : d.dirty ≠ none) : d'.dirty ≠ none := by
  induction hr with
  | nil => exact hd
  | snoc _ hs ih =>
    rw [List.mem_append, List.mem_singleton, not_or] at hss
    rcases run_marks (Ne.symm hss.2) hs with ⟨-, hsame⟩ | ⟨t, -, ht⟩
    · rw [hsame]
      exact ih hss.1
    · rw [ht]
      simp

/-- A flush that is not forced takes its rows when the mark is old enough. -/
theorem snapshot_of_dirty {d : Data} {now : ℕ} (hpath : d.output = some path)
    (hd : d.dirty ≠ none) (hnow : ∀ t, d.dirty = some t → t + debounce ≤ now) :
    snapshot d false now = some (path, d.routes.values) := by
  obtain ⟨t, ht⟩ := Option.ne_none_iff_exists'.mp hd
  have hold : ¬ now - t < debounce := by
    have := hnow t ht
    omega
  unfold snapshot
  rw [ht, hpath]
  simp [hold]

/-! ### One call -/

/-- What a failure leaves behind. -/
structure Harmless (path : String) (d : Data) (files : FileSystem String) (ls : List Label)
    (w : World) : Prop where
  /-- The call returns the error. -/
  error : w.phase = .returned false
  /-- The file at the path has its previous content, like any other file but the temporary
  one. -/
  file : w.files.read path = files.read path ∧ Untouched path files w.files
  /-- The rows are what the other tasks have made of them. -/
  data : Rib.sections.Run d (ls.filterMap sectionOf) w.data ∧ .clean ∉ ls
  /-- A mark that was set before is still set. -/
  marked : d.dirty ≠ none → w.data.dirty ≠ none
  /-- A change of the rows during the call has set the mark, and it is still set. -/
  changed : ∀ ss s ss' d₁ d₂, ls.filterMap sectionOf = ss ++ s :: ss' →
    Rib.sections.Run d ss d₁ → s.run d₁ = some d₂ → Rib.sections.Run d₂ ss' w.data →
    d₂.routes.entries ≠ d₁.routes.entries →
    (∃ t, instantOf s = some t ∧ d₂.dirty = some t) ∧ w.data.dirty ≠ none
  /-- With the mark set, whatever the other tasks do next, a flush that is not forced starts
  writing again five seconds after the last change. -/
  retried : w.data.dirty ≠ none → ∀ ss d' path' now, Rib.sections.Run w.data ss d' →
    .flushed ∉ ss → d'.output = some path' → (∀ t, d'.dirty = some t → t + debounce ≤ now) →
    snapshot d' false now = some (path', d'.routes.values)

/-- **A flush that fails is harmless and is tried again; one that succeeds leaves its
snapshot in the file.** -/
theorem flush_failure {d : Data} {force : Bool} {now : ℕ} {rows : List Route}
    (hsnap : snapshot d force now = some (path, rows)) {files : FileSystem String}
    {ls : List Label} {w : World} (hr : (system path rows d files).Run (call rows d files) ls w) :
    ((∃ op size, .fail op size ∈ ls) → Harmless path d files ls w) ∧
      (w.phase = .returned true → (¬ ∃ op size, .fail op size ∈ ls) ∧
        rows = d.routes.values ∧ w.files.read path = some (document rows) ∧
        String.join (pieces rows) = (documentJson rows).text) := by
  obtain ⟨hstage, hprogress⟩ := call_run hr
  refine ⟨fun hfail => ?_, fun hret => ⟨fun hfail => ?_, snapshot_rows hsnap, ?_, join_pieces rows⟩⟩
  · -- the section that takes the mark away has not been run
    have hret := hprogress.error hfail
    have hkept := hprogress.clean (by rw [hret]; simp)
    have huntouched := hstage.untouched hret
    refine ⟨hret, ⟨huntouched path (ne_temporary path), huntouched⟩, ⟨hprogress.data, ?_⟩,
      marked_run hprogress.data hkept, ?_, ?_⟩
    · exact fun hmem => hkept (List.mem_filterMap.mpr ⟨.clean, hmem, rfl⟩)
    · intro ss s ss' d₁ d₂ hsplit _ hs hrest hchange
      -- no section behind the change is one that takes the mark away
      rw [hsplit, List.mem_append, List.mem_cons, not_or, not_or] at hkept
      obtain ⟨t, ht, hd₂⟩ := (run_marks (Ne.symm hkept.2.1) hs).resolve_left fun h => hchange h.1
      exact ⟨⟨t, ht, hd₂⟩, marked_run hrest hkept.2.2 (by rw [hd₂]; simp)⟩
    · intro hmark ss d' path' now hss hkept' hpath hnow
      exact snapshot_of_dirty hpath (marked_run hss hkept' hmark) hnow
  · rw [hprogress.error hfail] at hret
    exact absurd hret (by simp)
  · exact hstage.document hret

/-! The persistence worker takes a row, and only four bytes of it can be written; the row is
withdrawn meanwhile. -/

/-- A call that fails while a route is withdrawn beside it: the data are the later ones, and still
dirty. -/
theorem flush_failure_withdrawn : ∃ ls w, .critical withdrawn ∈ ls ∧ w.data = withdrawnData ∧
    Harmless "rib.json" announcedData Files.startFiles ls w := by
  let rows := [Rib.sampleRow]
  let files := (Files.startFiles.create (temporary "rib.json")).1
  let wr : Writer := ⟨(Files.startFiles.create (temporary "rib.json")).2, 0, []⟩
  let first : Operation := .write ("\x7b\"count\":" ++ Nat.repr rows.length ++ ",\"routes\":[")
  let todo : List Operation := [.write Rib.sampleRow.text, .write "]\x7d", .flush, .sync, .rename]
  -- the call has opened the temporary file, and the route is withdrawn before its first write
  let w₁ : World := ⟨announcedData, files, .operating (first :: todo) (some wr)⟩
  let w₂ : World := { w₁ with data := withdrawnData }
  have s₁ : (system "rib.json" rows announcedData Files.startFiles).step
      (call rows announcedData Files.startFiles) (.done .create 0) w₁ := .done rfl rfl
  have s₂ : (system "rib.json" rows announcedData Files.startFiles).step w₁
      (.critical withdrawn) w₂ := .critical (by simp [withdrawn]) (Option.some_get _).symm
  -- the first write fails behind four octets
  have s₃ : (system "rib.json" rows announcedData Files.startFiles).step w₂ (.fail first 4)
      { w₂ with files := abort "rib.json" files 4 first (some wr), phase := .returned false } :=
    .fail rfl
  have hr := ((System.Run.nil.snoc s₁).snoc s₂).snoc s₃
  exact ⟨_, _, by simp, rfl, (flush_failure snapshot_announced hr).1 ⟨first, 4, by simp⟩⟩

end Failure

end Persist
