import Mathlib

/-!
# Maps that are written to in order

A partial map after a list of writes, each of which sets a key or unsets it. What is
found under a key is what the last write to it left there (`Writes.run_eq`).
-/

namespace Writes

variable {κ ν : Type} [DecidableEq κ]

/-- The map after some writes. -/
def run (t : κ → Option ν) (ws : List (κ × Option ν)) : κ → Option ν :=
  ws.foldl (fun t w => Function.update t w.1 w.2) t

@[simp] theorem run_nil (t : κ → Option ν) : run t [] = t := rfl

theorem run_cons (t : κ → Option ν) (w : κ × Option ν) (ws : List (κ × Option ν)) :
    run t (w :: ws) = run (Function.update t w.1 w.2) ws := rfl

/-- Writes behind others are done behind them. -/
theorem run_append (t : κ → Option ν) (ws ws' : List (κ × Option ν)) :
    run t (ws ++ ws') = run (run t ws) ws' :=
  List.foldl_append

/-- **The last write to a key is what is found there.** -/
theorem run_eq (t : κ → Option ν) (ws : List (κ × Option ν)) (k : κ) :
    run t ws k = ((ws.reverse.find? fun w => w.1 = k).map Prod.snd).getD (t k) := by
  induction ws using List.reverseRecOn with
  | nil => rfl
  | append_singleton ws w ih =>
    rw [run_append, List.reverse_append, List.reverse_singleton, List.singleton_append,
      List.find?_cons]
    change Function.update (run t ws) w.1 w.2 k = _
    by_cases hk : w.1 = k
    · rw [← hk, Function.update_self]
      simp
    · rw [Function.update_of_ne (Ne.symm hk), ih]
      simp [hk]

/-- Writes that set: a key is there when it was, or when it is written to. -/
theorem isSome_run_of_set {ws : List (κ × Option ν)} (hws : ∀ w ∈ ws, w.2.isSome)
    (t : κ → Option ν) (k : κ) :
    (run t ws k).isSome ↔ (t k).isSome ∨ k ∈ ws.map Prod.fst := by
  induction ws generalizing t with
  | nil => simp
  | cons w ws ih =>
    have hw := hws w List.mem_cons_self
    rw [run_cons, ih (fun w' hw' => hws w' (List.mem_cons_of_mem _ hw')), List.map_cons,
      List.mem_cons]
    by_cases hk : k = w.1
    · rw [hk, Function.update_self]
      simp [hw]
    · rw [Function.update_of_ne hk]
      simp [hk]

/-- Writes that unset: a key is there when it was, and when none of them writes to it. -/
theorem isSome_run_of_unset {ws : List (κ × Option ν)} (hws : ∀ w ∈ ws, w.2 = none)
    (t : κ → Option ν) (k : κ) :
    (run t ws k).isSome ↔ (t k).isSome ∧ k ∉ ws.map Prod.fst := by
  induction ws generalizing t with
  | nil => simp
  | cons w ws ih =>
    have hw := hws w List.mem_cons_self
    rw [run_cons, ih (fun w' hw' => hws w' (List.mem_cons_of_mem _ hw')), List.map_cons,
      List.mem_cons, not_or]
    by_cases hk : k = w.1
    · rw [hk, Function.update_self]
      simp [hw]
    · rw [Function.update_of_ne hk]
      simp [hk]

end Writes
