import Mathlib

/-!
# Machines that read until they fail

A machine takes its input one symbol at a time; a step either fails, which ends the
run, or leads on to another state and has some effects (`Acceptor.run`).

What a run reads is the longest prefix of its input in a language, if a relation between
what has been read and the state decides the next symbol (`Decides`). This is
`Decides.run_longest`.
-/

namespace Acceptor

variable {σ α β ε : Type}

/-- The effects of a run, and how it ends. -/
def run (step : σ → α → Except ε (σ × List β)) : σ → List α → List β × Except ε σ
  | s, [] => ([], .ok s)
  | s, a :: w =>
    match step s a with
    | .error e => ([], .error e)
    | .ok (s', out) => (out ++ (run step s' w).1, (run step s' w).2)

variable {step : σ → α → Except ε (σ × List β)}

/-- Nothing happens behind a symbol that fails. -/
theorem run_cons_error {s : σ} {a : α} {e : ε} (h : step s a = .error e) (w : List α) :
    run step s (a :: w) = ([], .error e) := by
  rw [run, h]

/-- A step that goes on puts its output in front of that of the rest. -/
theorem run_cons_ok {s s' : σ} {a : α} {out : List β} (h : step s a = .ok (s', out)) (w : List α) :
    run step s (a :: w) = (out ++ (run step s' w).1, (run step s' w).2) := by
  rw [run, h]

/-- A run goes on where it stands. -/
theorem run_append_ok {s s' : σ} {w : List α} {out : List β} (h : run step s w = (out, .ok s'))
    (w' : List α) : run step s (w ++ w') = (out ++ (run step s' w').1, (run step s' w').2) := by
  -- by induction on the first word, which goes through
  induction w generalizing s out with
  | nil =>
    obtain ⟨rfl, hs⟩ := Prod.mk.inj h
    obtain rfl := Except.ok.inj hs
    rfl
  | cons a w ih =>
    cases hstep : step s a with
    | error e =>
      rw [run_cons_error hstep] at h
      cases h
    | ok r =>
      obtain ⟨s₁, out₁⟩ := r
      rw [run_cons_ok hstep] at h
      obtain ⟨rfl, hs⟩ := Prod.mk.inj h
      rw [List.cons_append, run_cons_ok hstep, ih (Prod.ext rfl hs), List.append_assoc]

/-- The relation holds of what has been read, the effects so far and the state, and it
decides which symbol keeps what is read in the language. -/
structure Decides (step : σ → α → Except ε (σ × List β)) (L : List α → Prop)
    (R : List α → List β → σ → Prop) : Prop where
  /-- What has been read is in the language. -/
  mem : ∀ w out s, R w out s → L w
  /-- A step that succeeds keeps the relation. -/
  ok : ∀ w out s a s' out', R w out s → step s a = .ok (s', out') → R (w ++ [a]) (out ++ out') s'
  /-- A symbol at which the step fails leaves the language. -/
  error : ∀ w out s a e, R w out s → step s a = .error e → ¬ L (w ++ [a])
  /-- The language is closed under taking prefixes. -/
  closed : ∀ w a, L (w ++ [a]) → L w

/-- The language is closed under prefixes: what goes on has gone on all along. -/
theorem Decides.closed_append {L : List α → Prop} {R : List α → List β → σ → Prop}
    (h : Decides step L R) {u : List α} (v : List α) (hL : L (u ++ v)) : L u := by
  induction v using List.reverseRecOn with
  | nil => rwa [List.append_nil] at hL
  | append_singleton v a ih =>
    rw [← List.append_assoc] at hL
    exact ih (h.closed _ a hL)

/-- How a run goes on that has read `done` so far: it takes `n` symbols of the rest, and
more would leave the language. -/
structure Reads (step : σ → α → Except ε (σ × List β)) (L : List α → Prop)
    (R : List α → List β → σ → Prop) (done : List α) (out : List β) (s : σ) (w : List α)
    (n : ℕ) (s' : σ) (out' : List β) : Prop where
  le : n ≤ w.length
  related : R (done ++ w.take n) (out ++ out') s'
  taken : run step s (w.take n) = (out', .ok s')
  longest : ∀ m ≤ w.length, L (done ++ w.take m) → m ≤ n
  effects : (run step s w).1 = out'
  ends : n = w.length → (run step s w).2 = .ok s'
  fails : n < w.length → ∃ e, (run step s w).2 = .error e

/-- From every state that the relation knows, a word is read up to the end of its longest prefix in
the language. -/
theorem Decides.reads {L : List α → Prop} {R : List α → List β → σ → Prop} (h : Decides step L R)
    (w : List α) {done : List α} {out : List β} {s : σ} (hR : R done out s) :
    ∃ n s' out', Reads step L R done out s w n s' out' := by
  induction w generalizing done out s with
  | nil =>
    refine ⟨0, s, [], le_rfl, ?_, rfl, fun m hm _ => hm, rfl, fun _ => rfl, ?_⟩
    · rwa [List.take_nil, List.append_nil, List.append_nil]
    · intro hn
      exact absurd hn (Nat.lt_irrefl _)
  | cons a w ih =>
    cases hstep : step s a with
    | error e =>
      -- the run is over, and the symbol cannot be part of a word
      refine ⟨0, s, [], Nat.zero_le _, ?_, rfl, ?_, ?_, ?_, ?_⟩
      · rwa [List.take_zero, List.append_nil, List.append_nil]
      · -- a longer word would have this symbol in it, and words are closed under prefixes
        intro m _ hL
        cases m with
        | zero => exact le_rfl
        | succ m =>
          rw [List.take_succ_cons, ← List.singleton_append, ← List.append_assoc] at hL
          exact absurd (h.closed_append _ hL) (h.error _ _ _ _ _ hR hstep)
      · rw [run_cons_error hstep]
      · intro hn
        exact absurd hn.symm (Nat.succ_ne_zero _)
      · intro _
        exact ⟨e, by rw [run_cons_error hstep]⟩
    | ok r =>
      obtain ⟨s₁, out₁⟩ := r
      -- the rest of the word is read from what the symbol leads to
      obtain ⟨n, s', out', hr⟩ := ih (h.ok _ _ _ _ _ _ hR hstep)
      refine ⟨n + 1, s', out₁ ++ out', Nat.succ_le_succ hr.le, ?_, ?_, ?_, ?_, ?_, ?_⟩
      · have hrel := hr.related
        rw [List.append_assoc, List.append_assoc, List.singleton_append] at hrel
        rwa [List.take_succ_cons]
      · rw [List.take_succ_cons, run_cons_ok hstep, hr.taken]
      · intro m hm hL
        cases m with
        | zero => exact Nat.zero_le _
        | succ m =>
          rw [List.take_succ_cons, ← List.singleton_append, ← List.append_assoc] at hL
          exact Nat.succ_le_succ (hr.longest m (Nat.le_of_succ_le_succ hm) hL)
      · rw [run_cons_ok hstep, hr.effects]
      · intro hn
        rw [run_cons_ok hstep, hr.ends (Nat.succ.inj hn)]
      · intro hn
        rw [run_cons_ok hstep]
        exact hr.fails (Nat.lt_of_succ_lt_succ hn)

/-- **A run reads the longest prefix in the language.** -/
theorem Decides.run_longest {L : List α → Prop} {R : List α → List β → σ → Prop}
    (h : Decides step L R) {s : σ} (h₀ : R [] [] s) (w : List α) :
    ∃ n s' out, R (w.take n) out s' ∧ n ≤ w.length ∧ L (w.take n) ∧
      (∀ m ≤ w.length, L (w.take m) → m ≤ n) ∧ (run step s w).1 = out ∧
      run step s (w.take n) = (out, .ok s') ∧ (n = w.length → (run step s w).2 = .ok s') ∧
      (n < w.length → ∃ e, (run step s w).2 = .error e) := by
  obtain ⟨n, s', out, hr⟩ := h.reads w h₀
  exact ⟨n, s', out, hr.related, hr.le, h.mem _ _ _ hr.related, hr.longest, hr.effects, hr.taken,
    hr.ends, hr.fails⟩

end Acceptor
