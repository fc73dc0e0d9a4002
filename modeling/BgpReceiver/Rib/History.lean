import BgpReceiver.Rib.Invariant

/-!
# The history keeps as much as fits

`emit` puts an event behind the history, after it has dropped the oldest events until
there is room. Two limits are checked by one loop, and what it subtracts from the bytes
that are in use is what it takes off the front.

`Kept` is what the history may be after an event: within both limits, and with the event
at its end. The history becomes the longest such suffix of what it was with the event
behind it (`record_longest`), in whatever state the lock was found
(`history_longest_suffix`). That the loop never finds an empty history, and that the
subtraction never goes below zero, is that `record` has a result: the model has none in
these two cases.
-/

namespace Rib

/-- A history within both limits. -/
def Within (history : List String) : Prop :=
  history.length ≤ Data.historyEventsLimit ∧
    (history.map String.utf8ByteSize).sum ≤ Data.historyBytesLimit

/-- A history within both limits, with the event at its end. -/
def Kept (event : String) (history : List String) : Prop := Within history ∧ [event] <:+ history

/-- An event is within the limits behind a history that has room for it. -/
theorem within_append_iff {event : String} (history : List String) :
    Within (history ++ [event]) ↔ Room event.utf8ByteSize history := by
  simp only [Within, Room, List.length_append, List.length_singleton, List.map_append,
    List.map_singleton, List.sum_append, List.sum_singleton, Nat.succ_le_iff]

/-- **What an event leaves of the history.** An event that is too long for the replay
changes nothing. -/
theorem record_longest {d : Data} (h : Recorded d) (event : String) :
    ∃ d', d.record event = some d' ∧
      (event.utf8ByteSize ≤ Data.historyBytesLimit →
        LongestSuffix (Kept event) (d.history ++ [event]) d'.history) ∧
      (Data.historyBytesLimit < event.utf8ByteSize → d' = d) := by
  -- an event that is longer than the whole history is not kept
  by_cases hfits : event.utf8ByteSize ≤ Data.historyBytesLimit
  · obtain ⟨history, bytes, he, hs, hb⟩ := evict_spec hfits h.bytes
    refine ⟨{ d with history := history ++ [event], historyBytes := bytes + event.utf8ByteSize },
      ?_, fun _ => hs.snoc (q := Within) within_append_iff,
      fun hlong => absurd hfits (Nat.not_le.mpr hlong)⟩
    rw [Data.record, if_pos hfits, he]
    rfl
  · refine ⟨d, ?_, fun h' => absurd h' hfits, fun _ => rfl⟩
    rw [Data.record, if_neg hfits]

/-- **The history is the longest suffix that fits.** Whenever the lock is free the bytes
in use are those of the stored events, and both limits hold. An event of at most the
replay's size leaves the longest suffix of the history with the event behind it, a longer
one leaves the history alone, and neither panics. -/
theorem history_longest_suffix {d : Data} (h : sections.Reachable d) :
    d.historyBytes = (d.history.map String.utf8ByteSize).sum ∧
      d.history.length ≤ 2000 ∧ d.historyBytes ≤ 8 * 1024 * 1024 ∧
      ∀ event : String, ∃ d', d.record event = some d' ∧
        (event.utf8ByteSize ≤ 8 * 1024 * 1024 →
          ∀ history, history = d'.history ↔
            LongestSuffix (Kept event) (d.history ++ [event]) history) ∧
        (8 * 1024 * 1024 < event.utf8ByteSize →
          d'.history = d.history ∧ d'.historyBytes = d.historyBytes) := by
  have hd := (sections_consistent h).recorded
  refine ⟨hd.bytes, hd.events, hd.size, fun event => ?_⟩
  obtain ⟨d', hr, hsmall, hlarge⟩ := record_longest hd event
  refine ⟨d', hr, fun hfits history => ?_, fun hlong => ?_⟩
  · constructor
    · rintro rfl
      exact hsmall hfits
    · intro hl
      exact hl.unique (hsmall hfits)
  · rw [hlarge hlong]
    exact ⟨rfl, rfl⟩

/-- A text with a character added some times is longer by so many of its octets. -/
theorem utf8ByteSize_pushn (s : String) (c : Char) (n : ℕ) :
    (s.pushn c n).utf8ByteSize = s.utf8ByteSize + n * c.utf8Size := by
  rw [String.pushn_eq_repeat_push]
  induction n with
  | zero => simp [Nat.repeat]
  | succ n ih => rw [Nat.repeat, String.utf8ByteSize_push, ih, Nat.succ_mul, Nat.add_assoc]

/-- An event of five mebibytes. -/
def longEvent (c : Char) : String := "".pushn c (5 * 1024 * 1024)

/-- A long event behind another one, which has to make room for it. -/
theorem history_longest_suffix_second :
    ∃ d' d'', d'.history = [longEvent 'a'] ∧ Data.record d' (longEvent 'b') = some d'' ∧
      d''.history = [longEvent 'b'] ∧
      LongestSuffix (Kept (longEvent 'b')) [longEvent 'a', longEvent 'b'] d''.history := by
  -- the events have five mebibytes each, and eight are kept
  have hsize : ∀ c : Char, c.utf8Size = 1 → (longEvent c).utf8ByteSize = 5 * 1024 * 1024 := by
    intro c hc
    rw [longEvent, utf8ByteSize_pushn, hc, String.utf8ByteSize_empty]
  have ha := hsize 'a' rfl
  have hb := hsize 'b' rfl
  have hkept : ∀ event : String, event.utf8ByteSize = 5 * 1024 * 1024 → Kept event [event] := by
    intro event hevent
    refine ⟨⟨show 1 ≤ 2000 by decide, ?_⟩, List.suffix_refl _⟩
    rw [List.map_singleton, List.sum_singleton, hevent]
    decide
  have hnew : sections.Reachable (Data.new none) := .init ⟨none, rfl⟩
  obtain ⟨-, -, -, hfirst⟩ := history_longest_suffix hnew
  obtain ⟨d', hr, hsmall, -⟩ := hfirst (longEvent 'a')
  have hhistory : [longEvent 'a'] = d'.history :=
    (hsmall (by rw [ha]; decide) _).mpr (.whole (hkept _ ha))
  obtain ⟨-, -, -, hsecond⟩ := history_longest_suffix
    (hnew.step (show sections.step _ (.record (longEvent 'a')) d' from hr))
  obtain ⟨d'', hr', hsmall', -⟩ := hsecond (longEvent 'b')
  rw [← hhistory] at hsmall'
  -- the two together are too long
  have hlongest : LongestSuffix (Kept (longEvent 'b')) [longEvent 'a', longEvent 'b']
      [longEvent 'b'] := by
    refine .cons (.whole (hkept _ hb)) fun h => ?_
    have hsum := h.1.2
    rw [List.map_cons, List.map_singleton, List.sum_cons, List.sum_singleton, ha, hb] at hsum
    exact absurd hsum (by decide)
  have hhistory' := (hsmall' (by rw [hb]; decide) _).mpr hlongest
  exact ⟨d', d'', hhistory.symm, hr', hhistory'.symm, hhistory' ▸ hlongest⟩

end Rib
