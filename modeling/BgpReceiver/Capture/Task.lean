import BgpReceiver.Capture.Lines
import BgpReceiver.Framework.Headings
import BgpReceiver.Framework.System

/-!
# The task that reads a capture

The task of `capture.rs` as a transition system (`captureTask`): it takes lines of the output
of `tcpdump` and lines of its error output, in any order, until the output ends or fails or
the task is told to stop. It keeps the packet in hand and its octets, and nothing else of
what it has read.

What it should report is said of the lines as a whole (`groups`): a packet is a line that
begins one together with all lines behind it up to the next such line. The invariant is that
the packet in hand is the last group of the lines read, and that all groups before it
have been reported (`Scanned`).

Every group is reported once and in its order, the last of them when the next one begins or
when the task ends, and before the end is reported (`capture_reported`). What is before the
first packet is in no group.
-/

namespace Capture

variable (digit : Char → Bool) (peer : String)

/-! ### The packets in the lines -/

/-- The packets in some lines: each line that begins one, with what it says, and the lines
behind it up to the next that begins one. -/
def groups (lines : List String) : List (Pattern.Way Char × List String) :=
  Headings.blocks (captures digit) lines

/-- What should be reported of a packet. -/
def groupReport (g : Pattern.Way Char × List String) : Emission :=
  report (packet peer g.1) (g.2.flatMap lineOctets)

/-! ### The task -/

/-- What the task waits for in its `select!`, in the order of its branches. -/
inductive Event where
  /-- a line of the output -/
  | line (text : String)
  | endOfLines
  | fails (error : String)
  /-- a line of the error output -/
  | notice (text : String)
  | endOfNotices
  | stop

/-- The state of the task: the packet in hand, whether the error output is still read, and what it
has emitted so far. -/
structure Task where
  scan : Scan
  stderrOpen : Bool
  emitted : List Emission
  capturing : Bool

/-- The report of `start`, which comes before the first turn of the loop. -/
def startedEmission : Emission :=
  ⟨"capture", "info", "Capture started", .object [("running", .bool true)]⟩

/-- The report at the end of the task, however it has come to it. -/
def stoppedEmission : Emission :=
  ⟨"capture", "info", "Capture stopped", .object [("running", .bool false)]⟩

/-- The report of a read that has failed. The loop ends behind it. -/
def errorEmission (e : String) : Emission := ⟨"capture", "error", e, .object []⟩

/-- A line of the error output, as it was printed. -/
def noticeEmission (text : String) : Emission := ⟨"capture", "info", text, .object []⟩

/-- A task that `start` has spawned. -/
def Task.new : Task := ⟨⟨none, []⟩, true, [startedEmission], true⟩

/-- What is behind the loop. -/
def Task.finish (t : Task) : Task :=
  { t with emitted := t.emitted ++ flush t.scan ++ [stoppedEmission], capturing := false }

/-- One turn of the loop. -/
inductive Step : Task → Event → Task → Prop
  | line {t : Task} {text : String} : t.capturing = true →
      Step t (.line text) { t with
        scan := (onLine digit peer t.scan text).1
        emitted := t.emitted ++ (onLine digit peer t.scan text).2 }
  | endOfLines {t : Task} : t.capturing = true → Step t .endOfLines t.finish
  | fails {t : Task} {e : String} : t.capturing = true →
      Step t (.fails e) { t with emitted := t.emitted ++ [errorEmission e] }.finish
  | notice {t : Task} {text : String} : t.capturing = true → t.stderrOpen = true →
      Step t (.notice text) { t with emitted := t.emitted ++ [noticeEmission text] }
  | endOfNotices {t : Task} : t.capturing = true → t.stderrOpen = true →
      Step t .endOfNotices { t with stderrOpen := false }
  | stop {t : Task} : t.capturing = true → Step t .stop t.finish

/-- The task from its first turn on. -/
def captureTask : System Task Event where
  init t := t = .new
  step := Step digit peer

/-! ### Runs -/

/-- The line that an event brings, if it is one of the output. -/
def Event.line? : Event → Option String
  | .line text => some text
  | _ => none

/-- The lines that a run has read. -/
def linesOf (es : List Event) : List String := es.filterMap Event.line?

/-- What is emitted for an event besides packets. -/
def Event.notices : Event → List Emission
  | .notice text => [noticeEmission text]
  | .fails e => [errorEmission e, stoppedEmission]
  | .endOfLines | .stop => [stoppedEmission]
  | .line _ | .endOfNotices => []

/-- A report of a packet, which is told from the others by its level. -/
def Emission.isPacket (e : Emission) : Bool := e.level = "packet"

/-- The packets that have been reported. -/
def Task.reports (t : Task) : List Emission := t.emitted.filter Emission.isPacket

/-- What else has been emitted. -/
def Task.rest (t : Task) : List Emission := t.emitted.filter fun e => !e.isPacket

/-- The packet in hand is the last of the lines, and the others have been reported. -/
inductive Scanned : Scan → List (Pattern.Way Char × List String) → List Emission → Prop
  /-- no packet has begun -/
  | none {bytes : Bytes} : Scanned ⟨none, bytes⟩ [] []
  | some {front : List (Pattern.Way Char × List String)} {c : Pattern.Way Char}
      {ds : List String} :
      Scanned ⟨some (packet peer c), ds.flatMap lineOctets⟩ (front ++ [(c, ds)])
        (front.map (groupReport peer))

variable {digit peer}

/-- A line that is read. -/
theorem Scanned.onLine {s : Scan} {lines : List String} {reports : List Emission}
    (h : Scanned peer s (groups digit lines) reports) (line : String) :
    Scanned peer (onLine digit peer s line).1 (groups digit (lines ++ [line]))
      (reports ++ (Capture.onLine digit peer s line).2) := by
  generalize hgs : groups digit lines = gs at h
  cases hc : captures digit line with
  | some c' =>
    -- the group in hand is complete, and the line begins the next one
    rw [onLine_header hc, groups, Headings.blocks_concat_heading hc, ← groups, hgs]
    cases h with
    | none => exact @Scanned.some peer [] c' []
    | @some front c ds =>
      have hmap : front.map (groupReport peer) ++ [groupReport peer (c, ds)] =
          (front ++ [(c, ds)]).map (groupReport peer) := by rw [List.map_append]; rfl
      exact hmap ▸ @Scanned.some peer (front ++ [(c, ds)]) c' []
  | none =>
    -- the line joins the last group, if there is one
    rw [onLine_other hc, groups, Headings.blocks_concat_body hc, ← groups, hgs, List.append_nil]
    cases h with
    | none => exact .none
    | @some front c ds =>
      have hbytes : ds.flatMap lineOctets ++ lineOctets line =
          (ds ++ [line]).flatMap lineOctets := by rw [List.flatMap_append, List.flatMap_singleton]
      rw [List.modifyLast_concat]
      exact hbytes ▸ .some

/-- With the packet in hand all packets are reported. -/
theorem Scanned.flush {s : Scan} {gs : List (Pattern.Way Char × List String)}
    {reports : List Emission} (h : Scanned peer s gs reports) :
    reports ++ Capture.flush s = gs.map (groupReport peer) := by
  cases h with
  | none => rfl
  | @some front c ds =>
    rw [List.map_append]
    rfl

/-- All groups but the last one have been reported. -/
theorem Scanned.dropLast {s : Scan} {gs : List (Pattern.Way Char × List String)}
    {reports : List Emission} (h : Scanned peer s gs reports) :
    reports = gs.dropLast.map (groupReport peer) := by
  cases h with
  | none => rfl
  | some => rw [List.dropLast_concat]

/-- What is flushed is a packet, or nothing. -/
theorem isPacket_of_mem_flush {s : Scan} : ∀ e ∈ flush s, e.isPacket = true := by
  obtain ⟨packet, bytes⟩ := s
  cases packet with
  | none => exact nofun
  | some p =>
    intro e he
    rw [List.mem_singleton.mp he]
    rfl

/-- A line has packets reported and nothing else. -/
theorem isPacket_of_mem_onLine (digit : Char → Bool) (peer : String) (s : Scan) (line : String) :
    ∀ e ∈ (onLine digit peer s line).2, e.isPacket = true := by
  cases hc : captures digit line with
  | some c =>
    rw [onLine_header hc]
    exact isPacket_of_mem_flush
  | none =>
    rw [onLine_other hc]
    exact nofun

/-- An event adds the line that it brings. -/
theorem linesOf_concat (es : List Event) (e : Event) :
    linesOf (es ++ [e]) = linesOf es ++ e.line?.toList := by
  rw [linesOf, linesOf, List.filterMap_append]
  cases e <;> rfl

/-- What has been reported after some events. -/
structure Reported (digit : Char → Bool) (peer : String) (es : List Event) (t : Task) : Prop where
  /-- of every packet but the one in hand, and of all when the task has ended -/
  packets : t.reports = (if t.capturing then (groups digit (linesOf es)).dropLast
    else groups digit (linesOf es)).map (groupReport peer)
  /-- everything else, in its order -/
  rest : t.rest = startedEmission :: es.flatMap Event.notices
  /-- nothing is reported behind the end -/
  stopped : t.capturing = false → t.emitted.getLast? = some stoppedEmission

/-- What is emitted goes to the reports or to the rest. -/
theorem Task.emitted_append (t t' : Task) {out : List Emission}
    (h : t'.emitted = t.emitted ++ out) :
    t'.reports = t.reports ++ out.filter Emission.isPacket ∧
      t'.rest = t.rest ++ out.filter fun e => !e.isPacket := by
  rw [Task.reports, Task.rest, h, List.filter_append, List.filter_append]
  exact ⟨rfl, rfl⟩

/-- A task that ends reports the packet in hand, and then that it has ended. -/
theorem Reported.finish {es : List Event} {e : Event} {t : Task}
    (hscan : Scanned peer t.scan (groups digit (linesOf es)) t.reports)
    (hrest : t.rest ++ [stoppedEmission] = startedEmission :: (es ++ [e]).flatMap Event.notices)
    (he : e.line? = none) : Reported digit peer (es ++ [e]) t.finish := by
  obtain ⟨hreports, hothers⟩ := Task.emitted_append t t.finish
    (List.append_assoc t.emitted (flush t.scan) [stoppedEmission])
  -- the packet in hand goes to the reports, the end to the rest
  have hflush := List.filter_eq_self.mpr (isPacket_of_mem_flush (s := t.scan))
  have hnone : (flush t.scan).filter (fun e => !e.isPacket) = [] :=
    List.filter_eq_nil_iff.mpr fun e he => by simp [isPacket_of_mem_flush e he]
  refine ⟨?_, ?_, fun _ => List.getLast?_concat⟩
  · calc t.finish.reports
        = t.reports ++ flush t.scan := by
          rw [hreports, List.filter_append, hflush]
          exact congrArg _ (List.append_nil _)
      _ = (groups digit (linesOf (es ++ [e]))).map (groupReport peer) := by
          rw [hscan.flush, linesOf_concat, he, Option.toList_none, List.append_nil]
  · rw [hothers, List.filter_append, hnone, ← hrest]
    rfl

/-- What every turn of the loop keeps. The reports alone would not be inductive: a line that
begins a packet reports the one in hand, so as long as the task goes on the invariant also
says which packet that is. -/
structure Reading (digit : Char → Bool) (peer : String) (es : List Event) (t : Task) : Prop
    extends Reported digit peer es t where
  scanned : t.capturing = true → Scanned peer t.scan (groups digit (linesOf es)) t.reports

/-- What a turn adds to the notices. -/
theorem Reported.notices {es : List Event} {t : Task} (h : Reported digit peer es t) (e : Event) :
    startedEmission :: (es ++ [e]).flatMap Event.notices = t.rest ++ e.notices := by
  rw [List.flatMap_append, List.flatMap_singleton, ← List.cons_append, ← h.rest]

/-- A turn that leaves the packet in hand alone, and emits no packet. -/
theorem Reading.aside {es : List Event} {e : Event} {t t' : Task} (h : Reading digit peer es t)
    (hcap : t.capturing = true) (hcap' : t'.capturing = true) (hscan : t'.scan = t.scan)
    (hemit : t'.emitted = t.emitted ++ e.notices) (hall : ∀ m ∈ e.notices, m.isPacket = false)
    (hline : e.line? = none) : Reading digit peer (es ++ [e]) t' := by
  -- no report is a packet, so the reports stay and the rest grows
  obtain ⟨hreports, hrest⟩ := Task.emitted_append t t' hemit
  rw [List.filter_eq_nil_iff.mpr fun m hm => by simp [hall m hm], List.append_nil] at hreports
  rw [List.filter_eq_self.mpr fun m hm => by simp [hall m hm], ← h.notices e] at hrest
  have hlines : linesOf (es ++ [e]) = linesOf es := by
    rw [linesOf_concat, hline, Option.toList_none, List.append_nil]
  have hscanned := h.scanned hcap
  rw [← hscan, ← hreports, ← hlines] at hscanned
  refine ⟨⟨?_, hrest, fun hc => absurd (hcap'.symm.trans hc) nofun⟩, fun _ => hscanned⟩
  rw [if_pos hcap', hscanned.dropLast]

/-- A turn that takes a line: the packets it reports are those that it completes. -/
theorem Reading.line {es : List Event} {t : Task} (h : Reading digit peer es t) (text : String)
    (hcap : t.capturing = true) : Reading digit peer (es ++ [.line text]) { t with
      scan := (onLine digit peer t.scan text).1
      emitted := t.emitted ++ (onLine digit peer t.scan text).2 } := by
  have hall := isPacket_of_mem_onLine digit peer t.scan text
  obtain ⟨hreports, hrest⟩ := Task.emitted_append t ({ t with
    scan := (onLine digit peer t.scan text).1
    emitted := t.emitted ++ (onLine digit peer t.scan text).2 } : Task) rfl
  -- all of what a line has emitted goes to the reports
  rw [List.filter_eq_self.mpr hall] at hreports
  rw [List.filter_eq_nil_iff.mpr fun m hm => by simp [hall m hm]] at hrest
  -- the line joins the last group or begins one, and the scan follows it
  have hnext := (h.scanned hcap).onLine text
  rw [← hreports, ← show linesOf (es ++ [.line text]) = linesOf es ++ [text] from
    linesOf_concat _ _] at hnext
  refine ⟨⟨?_, hrest.trans (h.notices (.line text)).symm,
    fun hc => absurd (hcap.symm.trans hc) nofun⟩, fun _ => hnext⟩
  rw [if_pos hcap]
  exact hnext.dropLast

/-- **What a turn of the loop keeps.** -/
theorem Reading.step {es : List Event} {e : Event} {t t' : Task} (h : Reading digit peer es t)
    (hs : Step digit peer t e t') : Reading digit peer (es ++ [e]) t' := by
  cases hs with
  | @line text hcap => exact h.line text hcap
  | endOfLines hcap => exact ⟨.finish (h.scanned hcap) (h.notices .endOfLines).symm rfl, nofun⟩
  | stop hcap => exact ⟨.finish (h.scanned hcap) (h.notices .stop).symm rfl, nofun⟩
  | @fails error hcap =>
    -- the error is reported in front of the packet in hand
    obtain ⟨hreports, hrest⟩ := Task.emitted_append t
      ({ t with emitted := t.emitted ++ [errorEmission error] } : Task) rfl
    refine ⟨.finish ?_ ?_ rfl, nofun⟩
    · rw [hreports]
      exact (List.append_nil t.reports).symm ▸ h.scanned hcap
    · rw [hrest, h.notices, List.append_assoc]
      rfl
  | notice hcap hopen => exact h.aside hcap hcap rfl rfl (by simp [Event.notices]; rfl) rfl
  | endOfNotices hcap hopen => exact h.aside hcap hcap rfl (List.append_nil _).symm nofun rfl

/-- The invariant of a run, by induction on its turns. -/
theorem captureTask_reading {es : List Event} {t : Task}
    (h : (captureTask digit peer).Run .new es t) : Reading digit peer es t := by
  induction h with
  | nil => exact ⟨⟨rfl, rfl, nofun⟩, fun _ => .none⟩
  | snoc _ hs ih => exact ih.step hs

/-- **Every packet is reported once and in its order**, in every run of the task. -/
theorem capture_reported {es : List Event} {t : Task}
    (h : (captureTask digit peer).Run .new es t) : Reported digit peer es t :=
  (captureTask_reading h).toReported

/-- A line that begins a packet: a segment from a peer to the router. -/
def sampleHeader : String :=
  "12:00:00.000001 eth0  In  IP 192.0.2.2.40000 > 192.0.2.1.179: Flags [P.], seq 1:20, ack 1, " ++
    "win 502, length 19: BGP"

theorem exists_captures : ∃ c, captures Char.isDigit sampleHeader = some c :=
  Option.isSome_iff_exists.mp (by decide +kernel)

/-- Two packets with a notice between them, and a stop while the second one is in hand. -/
theorem capture_reported_two : ∃ es t, t.capturing = false ∧
    (groups Char.isDigit (linesOf es)).length = 2 ∧ Reported Char.isDigit "192.0.2.1" es t := by
  obtain ⟨c, hc⟩ := exists_captures
  have line (t : Task) (ht : t.capturing = true) := @Step.line Char.isDigit "192.0.2.1" t
    sampleHeader ht
  -- a packet, a notice, a packet, and the stop
  have h₁ := System.Run.single (S := captureTask Char.isDigit "192.0.2.1") (line .new rfl)
  have h₂ := h₁.snoc (@Step.notice _ _ _ "1 packet captured" rfl rfl)
  have h₃ := h₂.snoc (line _ rfl)
  have h₄ := h₃.snoc (Step.stop (Eq.refl true))
  refine ⟨_, _, rfl, ?_, capture_reported h₄⟩
  -- each line begins a group of its own
  have hgroups : groups Char.isDigit [sampleHeader, sampleHeader] = [(c, []), (c, [])] := by
    rw [groups, Headings.blocks_cons_heading hc, Headings.blocks_cons_heading hc,
      List.takeWhile_cons_of_neg (by simp [hc])]
    rfl
  exact congrArg List.length hgroups

end Capture
