import Mathlib

/-!
# Messages behind headers of fixed size

A framing puts a header of fixed size before a body; the header tells the kind of the
message and the length of the body, and no two messages that are short enough have the same
header unless they have the same kind and length.

So what a stream of messages begins with is determined: two streams that continue to the
same octets agree on the messages that both have (`Framing.encode_append_cases`), and a
stream behind which there is no header any more has been cut at the right places
(`Framing.prefix_of_append`, `Framing.eq_of_append`).
-/

/-- How messages of the kinds `κ` are framed. -/
structure Framing (α κ ε : Type) where
  size : ℕ
  limit : ℕ
  header : List α → Except ε (κ × ℕ)
  octets : κ → ℕ → List α
  length_octets : ∀ k n, (octets k n).length = size
  header_eq_ok_iff : ∀ data k n, header data = .ok (k, n) ↔ n ≤ limit ∧ data = octets k n

namespace Framing

variable {α κ ε : Type} (F : Framing α κ ε)

/-- A body behind its header. -/
def message (m : κ × List α) : List α := F.octets m.1 m.2.length ++ m.2

/-- The messages one after the other, each behind its header. -/
def encode (ms : List (κ × List α)) : List α := ms.flatMap F.message

/-- The bodies fit. -/
def Fits (ms : List (κ × List α)) : Prop := ∀ m ∈ ms, m.2.length ≤ F.limit

/-- There is no header at the front. -/
def Stops (rest : List α) : Prop := ∀ k n, n ≤ F.limit → ¬ F.octets k n <+: rest

variable {F}

/-- The first message is its header, its body, and then the rest. -/
theorem encode_cons (m : κ × List α) (ms : List (κ × List α)) :
    F.encode (m :: ms) = F.octets m.1 m.2.length ++ (m.2 ++ F.encode ms) := by
  rw [encode, List.flatMap_cons, message, List.append_assoc]
  rfl

theorem stops_nil (h : 0 < F.size) : F.Stops [] := by
  intro k n _ hp
  have hlen := F.length_octets k n
  rw [List.prefix_nil.mp hp] at hlen
  exact absurd hlen h.ne

/-- A header that is refused is none of a message. -/
theorem stops_of_error {bad : List α} (hbad : bad.length = F.size) {e : ε}
    (he : F.header bad = .error e) (more : List α) : F.Stops (bad ++ more) := by
  intro k n hn hp
  have heq : F.octets k n = bad :=
    (List.prefix_of_prefix_length_le hp (List.prefix_append bad more)
      (by rw [F.length_octets, hbad])).eq_of_length (by rw [F.length_octets, hbad])
  rw [(F.header_eq_ok_iff bad k n).mpr ⟨hn, heq.symm⟩] at he
  cases he

/-- Two headers at the same place are the same. -/
theorem octets_append_inj {k k' : κ} {n n' : ℕ} {x y : List α} (hn : n ≤ F.limit)
    (hn' : n' ≤ F.limit) (h : F.octets k n ++ x = F.octets k' n' ++ y) :
    k = k' ∧ n = n' ∧ x = y := by
  obtain ⟨hoctets, hxy⟩ := List.append_inj h (by rw [F.length_octets, F.length_octets])
  have hk := (F.header_eq_ok_iff (F.octets k n) k n).mpr ⟨hn, rfl⟩
  rw [(F.header_eq_ok_iff (F.octets k n) k' n').mpr ⟨hn', hoctets⟩] at hk
  obtain ⟨rfl, rfl⟩ := Prod.mk.inj (Except.ok.inj hk)
  exact ⟨rfl, rfl, hxy⟩

/-- **Two streams that continue to the same octets agree** on the messages that both have. -/
theorem encode_append_cases {hs ms : List (κ × List α)} {x y : List α} (hh : F.Fits hs)
    (hm : F.Fits ms) (h : F.encode hs ++ x = F.encode ms ++ y) :
    (∃ t, ms = hs ++ t ∧ x = F.encode t ++ y) ∨ (∃ t, hs = ms ++ t ∧ y = F.encode t ++ x) := by
  induction hs generalizing ms with
  | nil => exact Or.inl ⟨ms, rfl, h⟩
  | cons f hs ih =>
    cases ms with
    | nil => exact Or.inr ⟨f :: hs, rfl, h.symm⟩
    | cons m ms =>
      have hf := hh f List.mem_cons_self
      have hm' := hm m List.mem_cons_self
      rw [encode_cons, encode_cons, List.append_assoc, List.append_assoc, List.append_assoc,
        List.append_assoc] at h
      -- the header says how long the body is, so both begin with the same message
      obtain ⟨hkind, hlen, hrest⟩ := octets_append_inj hf hm' h
      obtain ⟨hbody, htail⟩ := List.append_inj hrest hlen
      obtain rfl : f = m := Prod.ext hkind hbody
      rcases ih (fun m hm => hh m (List.mem_cons_of_mem _ hm))
          (fun m h => hm m (List.mem_cons_of_mem _ h)) htail with ⟨t, rfl, hx⟩ | ⟨t, rfl, hy⟩
      · exact Or.inl ⟨t, rfl, hx⟩
      · exact Or.inr ⟨t, rfl, hy⟩

/-- What has been cut off the front of a stream that stops are messages of it. -/
theorem prefix_of_append {hs ms : List (κ × List α)} {x rest : List α} (hh : F.Fits hs)
    (hm : F.Fits ms) (hrest : F.Stops rest) (h : F.encode hs ++ x = F.encode ms ++ rest) :
    ∃ t, ms = hs ++ t ∧ x = F.encode t ++ rest := by
  rcases encode_append_cases hh hm h with ht | ⟨t, rfl, hy⟩
  · exact ht
  · cases t with
    | nil => exact ⟨[], by rw [List.append_nil, List.append_nil], hy.symm⟩
    | cons f t =>
      -- the rest would begin with a message
      refine absurd ?_ (hrest f.1 f.2.length (hh f (by simp)))
      rw [hy, encode_cons, List.append_assoc]
      exact List.prefix_append _ _

/-- When no message begins behind what has been cut off, nothing is left. -/
theorem eq_of_append {hs ms : List (κ × List α)} {x rest : List α} (hh : F.Fits hs)
    (hm : F.Fits ms) (hrest : F.Stops rest) (h : F.encode hs ++ x = F.encode ms ++ rest)
    (hx : ∀ k body, body.length ≤ F.limit → ¬ F.octets k body.length ++ body <+: x) :
    hs = ms ∧ x = rest := by
  obtain ⟨t, rfl, hxt⟩ := prefix_of_append hh hm hrest h
  cases t with
  | nil => exact ⟨(List.append_nil _).symm, hxt⟩
  | cons f t =>
    refine absurd ?_ (hx f.1 f.2 (hm f (by simp)))
    rw [hxt, encode_cons, ← List.append_assoc, List.append_assoc]
    exact List.prefix_append _ _

end Framing
