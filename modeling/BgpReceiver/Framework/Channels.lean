import Mathlib

/-!
# Channels

A broadcast channel keeps the last few of the messages that are sent on it. A receiver
has a cursor into the messages that were sent since it subscribed. It is given the message
at its cursor; when that one has been overwritten, it is told so, and goes on at the oldest
message that is kept (`Broadcast.Delivers`). `Broadcast.receive` is such a channel. A
`Broadcast.Trace` is what a receiver is given in its life, up to a cursor. Its receipts lie
in the order of the messages (`Trace.pairwise`), and every message before the cursor is
accounted for by exactly one of them, be it by its value or among those that were
overwritten (`Trace.countP_covers`).

A queue holds what has been sent and not received yet, up to its capacity, and its end is
seen by the receiver when the sender is gone and nothing is left (`Queue.Delivers`).
`Queue.accepts` and `Queue.gives` are such a queue.
-/

namespace Broadcast

variable {α : Type}

/-- What a receiver is given: the message with a number, or word that the messages from one
number to another are gone. -/
inductive Receipt (α : Type) where
  | value (i : ℕ) (a : α)
  | lagged (i k : ℕ)

namespace Receipt

/-- The first message that a receipt accounts for. -/
def start : Receipt α → ℕ
  | value i _ => i
  | lagged i _ => i

/-- The first message behind a receipt. -/
def next : Receipt α → ℕ
  | value i _ => i + 1
  | lagged _ k => k

/-- The receipt accounts for the message with this number. -/
def Covers (r : Receipt α) (n : ℕ) : Prop := r.start ≤ n ∧ n < r.next

instance (r : Receipt α) (n : ℕ) : Decidable (r.Covers n) :=
  inferInstanceAs (Decidable (_ ∧ _))

end Receipt

/-- What a channel with a number of slots gives to a receiver, from the messages since it
subscribed and its cursor. -/
structure Delivers (slots : ℕ) (receives : List α → ℕ → Receipt α → Prop) : Prop where
  value : ∀ sent next i a, receives sent next (.value i a) → i = next ∧ sent[i]? = some a
  lagged : ∀ sent next i k, receives sent next (.lagged i k) →
    i = next ∧ i < k ∧ k + slots = sent.length

/-- The channel that keeps the last messages. -/
def receive (slots : ℕ) (sent : List α) (next : ℕ) : Option (Receipt α) :=
  if next + slots < sent.length then some (.lagged next (sent.length - slots))
  else sent[next]?.map (.value next)

/-- **The channel with a ring of slots delivers**: it gives the value that comes next, or says how
many of them are lost. -/
theorem delivers_receive (slots : ℕ) :
    Delivers slots fun (sent : List α) next r => receive slots sent next = some r where
  value := by
    intro sent next i a h
    unfold receive at h
    -- a receiver that is behind the ring is told of its loss, and gets no value
    split_ifs at h with hlag
    · cases h
    · obtain ⟨b, hb, heq⟩ := Option.map_eq_some_iff.mp h
      cases heq
      exact ⟨rfl, hb⟩
  lagged := by
    intro sent next i k h
    unfold receive at h
    split_ifs at h with hlag
    · cases h
      omega
    · obtain ⟨b, hb, heq⟩ := Option.map_eq_some_iff.mp h
      cases heq

/-- What a receiver has been given, and its cursor. -/
inductive Trace (sent : List α) : List (Receipt α) → ℕ → Prop
  | nil : Trace sent [] 0
  | value {rs : List (Receipt α)} {i : ℕ} {a : α} : Trace sent rs i → sent[i]? = some a →
      Trace sent (rs ++ [.value i a]) (i + 1)
  | lagged {rs : List (Receipt α)} {i k : ℕ} : Trace sent rs i → i < k → k ≤ sent.length →
      Trace sent (rs ++ [.lagged i k]) k

namespace Trace

variable {sent : List α} {rs : List (Receipt α)} {n : ℕ}

/-- A message more leaves what has been given as it is. -/
theorem mono (h : Trace sent rs n) (more : List α) : Trace (sent ++ more) rs n := by
  induction h with
  | nil => exact .nil
  | value _ ha ih =>
    have hi := (List.getElem?_eq_some_iff.mp ha).1
    exact ih.value (by rwa [List.getElem?_append_left hi])
  | lagged _ hik hk ih =>
    exact ih.lagged hik (hk.trans (by rw [List.length_append]; exact Nat.le_add_right _ _))

/-- A receiver is never ahead of its cursor: what it was given lies behind it. -/
theorem next_le (h : Trace sent rs n) : ∀ r ∈ rs, r.next ≤ n := by
  induction h with
  | nil => exact fun r hr => absurd hr List.not_mem_nil
  | value _ _ ih =>
    intro r hr
    rcases List.mem_append.mp hr with hr | hr
    · exact (ih r hr).trans (Nat.le_succ _)
    · rw [List.mem_singleton.mp hr]
      exact le_rfl
  | lagged _ hik _ ih =>
    intro r hr
    rcases List.mem_append.mp hr with hr | hr
    · exact (ih r hr).trans hik.le
    · rw [List.mem_singleton.mp hr]
      exact le_rfl

/-- **Receipts are in the order of the messages.** -/
theorem pairwise (h : Trace sent rs n) : rs.Pairwise fun r r' => r.next ≤ r'.start := by
  induction h with
  | nil => exact .nil
  | value h _ ih | lagged h _ _ ih =>
    refine List.pairwise_append.mpr ⟨ih, List.pairwise_singleton _ _, ?_⟩
    intro r hr r' hr'
    rw [List.mem_singleton.mp hr']
    exact h.next_le r hr

/-- **Every message before the cursor is accounted for once**, and no other is. -/
theorem countP_covers (h : Trace sent rs n) (i : ℕ) :
    rs.countP (fun r => r.Covers i) = if i < n then 1 else 0 := by
  induction h with
  | nil => rfl
  | @value rs j a _ _ ih =>
    -- a value covers its own number
    have hlast : (Receipt.value j a).Covers i ↔ i = j := by
      simp only [Receipt.Covers, Receipt.start, Receipt.next]
      omega
    rw [List.countP_append, ih, List.countP_singleton]
    simp only [decide_eq_true_eq, hlast]
    split_ifs <;> omega
  | @lagged rs j k _ hik _ ih =>
    -- a loss covers what was lost
    have hlast : (Receipt.lagged j k : Receipt α).Covers i ↔ j ≤ i ∧ i < k := Iff.rfl
    rw [List.countP_append, ih, List.countP_singleton]
    simp only [decide_eq_true_eq, hlast]
    split_ifs <;> omega

/-- The messages that are given are those that were sent. -/
theorem getElem?_of_mem (h : Trace sent rs n) {i : ℕ} {a : α} (hr : Receipt.value i a ∈ rs) :
    sent[i]? = some a := by
  induction h with
  | nil => exact absurd hr List.not_mem_nil
  | value _ ha ih =>
    rcases List.mem_append.mp hr with hr | hr
    · exact ih hr
    · cases List.mem_singleton.mp hr
      exact ha
  | lagged _ _ _ ih =>
    rcases List.mem_append.mp hr with hr | hr
    · exact ih hr
    · cases List.mem_singleton.mp hr

end Trace

end Broadcast

namespace Queue

variable {α : Type}

/-- What a queue does, by what is in it: whether a send is accepted, and what the receiver is
given, be it the end of the queue. The flag says that the sender is gone. -/
structure Delivers (capacity : ℕ) (accepts : List α → Prop)
    (gives : List α → Bool → Option α → Prop) : Prop where
  room : ∀ q, accepts q → q.length < capacity
  value : ∀ q closed a, gives q closed (some a) → q.head? = some a
  ends : ∀ q closed, gives q closed none → q = [] ∧ closed = true
  ready : ∀ q closed, q ≠ [] ∨ closed = true → ∃ r, gives q closed r

/-- A send is accepted as long as there is room. -/
def accepts (capacity : ℕ) (q : List α) : Prop := q.length < capacity

/-- What is first in the queue is given first, and the end when there is no more to come. -/
def gives (q : List α) (closed : Bool) (r : Option α) : Prop :=
  r = q.head? ∧ (q = [] → closed = true)

/-- **A queue that waits delivers**: it takes a value when there is room, and gives all of them in
order. -/
theorem delivers (capacity : ℕ) : Delivers capacity (accepts capacity) (@gives α) where
  room := fun _ h => h
  value := fun _ _ _ h => h.1.symm
  ends := by
    rintro q closed ⟨hhead, hclosed⟩
    have hnil : q = [] := List.head?_eq_none_iff.mp hhead.symm
    exact ⟨hnil, hclosed hnil⟩
  ready := by
    rintro q closed h
    exact ⟨q.head?, rfl, fun hnil => h.resolve_left fun hne => hne hnil⟩

end Queue
