import Mathlib

/-!
# Readers over a shrinking input

A binary format is usually decoded by functions that take a prefix off the input
and hand the rest back. The type `Reader` is that shape, and the two loops built
on it cover the decoders of tag-length-value formats:

* `Reader.drain` reads items until the input is empty, folding each of them into
  an accumulator;
* `Reader.untilLast` reads items until one of them says that it is the last.

Both recurse on a fuel that is the length of the input, so that they evaluate by
structural recursion. A reader that always takes something off its input
(`Consumes`) never runs out of it, and the two loops are then characterised by
the relations `Items` and `UntilLast`, which mention no fuel
(`drain_ok_iff`, `untilLast_ok_iff`).

A reader is *exact* for an encoding relation `Enc` when it succeeds on exactly
the inputs that start with an encoding, and returns what was encoded
(`Exact`). Exactness lifts from one item to a whole input: `Exact.items_iff`.

A reader may also take inputs that no encoder writes. When it takes back those that
an encoder writes, and none that are cut short (`Inverts`), then so does the loop
over it: `Inverts.items` and `Inverts.exists_front`.
-/

/-- A reader takes a prefix off the input and returns what it read and the rest. -/
abbrev Reader (ε τ α : Type) := List τ → Except ε (α × List τ)

namespace Reader

/-- Inverting a bind of `Except`: it succeeds when both of its parts do. -/
@[simp] theorem bind_eq_ok_iff {ε α β : Type} {x : Except ε α} {f : α → Except ε β}
    {b : β} : (x >>= f) = .ok b ↔ ∃ a, x = .ok a ∧ f a = .ok b := by
  cases x with
  | error e => simp [bind, Except.bind]
  | ok a => simp [bind, Except.bind]

variable {ε τ α σ : Type}

/-! ### Reading until the input is empty -/

/-- `drain` on an explicit fuel. -/
def drainAux (item : Reader ε τ α) (f : σ → α → Except ε σ) : ℕ → σ → List τ → Except ε σ
  | _, s, [] => .ok s
  | 0, s, _ :: _ => .ok s
  | n + 1, s, data@(_ :: _) => do
    let (x, rest) ← item data
    let s' ← f s x
    drainAux item f n s' rest

/-- Read items until the input is empty, folding each of them into the accumulator. -/
def drain (item : Reader ε τ α) (f : σ → α → Except ε σ) (s : σ) (data : List τ) : Except ε σ :=
  drainAux item f data.length s data

/-- The reader takes something off its input whenever it succeeds. -/
def Consumes (item : Reader ε τ α) : Prop :=
  ∀ data x rest, item data = .ok (x, rest) → rest.length < data.length

/-- The items a reader finds in an input that it reads to the end. -/
inductive Items (item : Reader ε τ α) : List τ → List α → Prop
  | nil : Items item [] []
  | cons {data rest : List τ} {x : α} {xs : List α} :
      item data = .ok (x, rest) → data ≠ [] → Items item rest xs → Items item data (x :: xs)

/-- An input is read as at most one list of items. -/
theorem Items.unique {item : Reader ε τ α} {data : List τ} {xs ys : List α}
    (hx : Items item data xs) (hy : Items item data ys) : xs = ys := by
  induction hx generalizing ys with
  | nil =>
    cases hy with
    | nil => rfl
    | cons _ hne _ => exact absurd rfl hne
  | cons hr hne _ ih =>
    cases hy with
    | nil => exact absurd rfl hne
    | cons hr' _ hys =>
      rw [hr] at hr'
      obtain ⟨rfl, rfl⟩ := Prod.mk.inj (Except.ok.inj hr')
      rw [ih hys]

/-- The fuelled loop, once the fuel covers the input. -/
theorem drainAux_ok_iff {item : Reader ε τ α} (hc : Consumes item) {f : σ → α → Except ε σ} :
    ∀ {n : ℕ} {data : List τ} {s s' : σ}, data.length ≤ n →
      (drainAux item f n s data = .ok s' ↔
        ∃ xs, Items item data xs ∧ xs.foldlM f s = .ok s') := by
  -- by induction on the fuel, which bounds the input
  intro n
  induction n with
  | zero =>
    -- no fuel and no input: the list of items is empty
    intro data s s' hn
    obtain rfl : data = [] := List.length_eq_zero_iff.mp (Nat.le_zero.mp hn)
    constructor
    · intro h
      exact ⟨[], .nil, h⟩
    · rintro ⟨xs, hx, hf⟩
      obtain rfl := hx.unique .nil
      exact hf
  | succ n ih =>
    intro data s s' hn
    cases data with
    | nil =>
      constructor
      · intro h
        exact ⟨[], .nil, h⟩
      · rintro ⟨xs, hx, hf⟩
        obtain rfl := hx.unique .nil
        exact hf
    | cons b data =>
      simp only [drainAux, bind_eq_ok_iff]
      constructor
      · rintro ⟨⟨x, rest⟩, hr, s₁, hs, h⟩
        -- an item takes something off, so the fuel is enough for the rest
        have hlt := hc _ _ _ hr
        simp only [List.length_cons] at hn hlt
        have hle : rest.length ≤ n := by omega
        obtain ⟨xs, hx, hf⟩ := (ih hle).mp h
        refine ⟨x :: xs, .cons hr (by simp) hx, ?_⟩
        rw [List.foldlM_cons, bind_eq_ok_iff]
        exact ⟨s₁, hs, hf⟩
      · rintro ⟨xs, hx, hf⟩
        cases hx with
        | @cons _ rest x xs hr _ hx =>
          have hlt := hc _ _ _ hr
          simp only [List.length_cons] at hn hlt
          have hle : rest.length ≤ n := by omega
          rw [List.foldlM_cons, bind_eq_ok_iff] at hf
          obtain ⟨s₁, hs, hf⟩ := hf
          exact ⟨(x, rest), hr, s₁, hs, (ih hle).mpr ⟨xs, hx, hf⟩⟩

/-- **The loop until empty.** It succeeds exactly when the input splits into items
and the accumulator takes all of them. -/
theorem drain_ok_iff {item : Reader ε τ α} (hc : Consumes item) {f : σ → α → Except ε σ}
    {s s' : σ} {data : List τ} :
    drain item f s data = .ok s' ↔ ∃ xs, Items item data xs ∧ xs.foldlM f s = .ok s' :=
  drainAux_ok_iff hc (Nat.le_refl _)

/-- The items in order of appearance: the loop whose accumulator is a vector that
every item is pushed on. -/
def collect (item : Reader ε τ α) (data : List τ) : Except ε (List α) :=
  drain item (fun xs x => .ok (xs ++ [x])) [] data

/-- A fold that collects what it is given collects all of it. -/
theorem foldlM_push (xs acc : List α) :
    xs.foldlM (fun acc x => (.ok (acc ++ [x]) : Except ε (List α))) acc = .ok (acc ++ xs) := by
  induction xs generalizing acc with
  | nil => simp [pure, Except.pure]
  | cons x xs ih =>
    rw [List.foldlM_cons]
    exact (ih (acc ++ [x])).trans (by simp)

/-- **The loop of a reader that consumes** returns exactly what the input is read as. Without the
condition its fuel could run out first. -/
theorem collect_ok_iff {item : Reader ε τ α} (hc : Consumes item) {data : List τ} {xs : List α} :
    collect item data = .ok xs ↔ Items item data xs := by
  unfold collect
  rw [drain_ok_iff hc]
  constructor
  · rintro ⟨ys, hy, hf⟩
    rw [foldlM_push, List.nil_append] at hf
    obtain rfl := Except.ok.inj hf
    exact hy
  · intro h
    exact ⟨xs, h, by rw [foldlM_push, List.nil_append]⟩

/-! ### Reading until an item says that it is the last -/

/-- `untilLast` on an explicit fuel. -/
def untilLastAux (item : Reader ε τ (α × Bool)) : ℕ → Reader ε τ (List α)
  | 0, data => do
    let ((x, _), rest) ← item data
    return ([x], rest)
  | n + 1, data => do
    let ((x, last), rest) ← item data
    if last then
      return ([x], rest)
    else
      let (xs, rest) ← untilLastAux item n rest
      return (x :: xs, rest)

/-- Read items up to and including the first that is flagged as the last. -/
def untilLast (item : Reader ε τ (α × Bool)) : Reader ε τ (List α) :=
  fun data => untilLastAux item data.length data

/-- The items read up to the flagged one, and what is left after it. -/
inductive UntilLast (item : Reader ε τ (α × Bool)) : List τ → List α → List τ → Prop
  | last {data rest : List τ} {x : α} :
      item data = .ok ((x, true), rest) → UntilLast item data [x] rest
  | more {data rest rest' : List τ} {x : α} {xs : List α} :
      item data = .ok ((x, false), rest) → UntilLast item rest xs rest' →
      UntilLast item data (x :: xs) rest'

/-- The loop with enough fuel, by induction on it: every item leaves less to read. -/
theorem untilLastAux_ok_iff {item : Reader ε τ (α × Bool)} (hc : Consumes item) :
    ∀ {n : ℕ} {data : List τ} {xs : List α} {rest : List τ}, data.length ≤ n →
      (untilLastAux item n data = .ok (xs, rest) ↔ UntilLast item data xs rest) := by
  -- by induction on the fuel, which bounds the input
  intro n
  induction n with
  | zero =>
    -- an empty input holds no item at all
    intro data xs rest hn
    have hno : ∀ y rest', item data ≠ .ok (y, rest') := fun y rest' h => by
      have := hc _ _ _ h
      omega
    constructor
    · intro h
      simp only [untilLastAux, bind_eq_ok_iff] at h
      obtain ⟨⟨y, rest'⟩, h, -⟩ := h
      exact absurd h (hno y rest')
    · intro h
      cases h with
      | last h => exact absurd h (hno _ _)
      | more h _ => exact absurd h (hno _ _)
  | succ n ih =>
    intro data xs rest hn
    simp only [untilLastAux, bind_eq_ok_iff]
    constructor
    · rintro ⟨⟨⟨x, last⟩, rest'⟩, hr, h⟩
      have hlt := hc _ _ _ hr
      -- the item says whether it is the last one
      cases last with
      | true =>
        obtain ⟨rfl, rfl⟩ := Prod.mk.inj (Except.ok.inj h)
        exact .last hr
      | false =>
        simp only [Bool.false_eq_true, if_false, bind_eq_ok_iff] at h
        obtain ⟨⟨ys, rest''⟩, hys, h⟩ := h
        obtain ⟨rfl, rfl⟩ := Prod.mk.inj (Except.ok.inj h)
        exact .more hr ((ih (by omega)).mp hys)
    · intro h
      cases h with
      | last hr => exact ⟨_, hr, rfl⟩
      | @more _ rest' _ x ys hr hys =>
        have hlt := hc _ _ _ hr
        refine ⟨_, hr, ?_⟩
        simp only [Bool.false_eq_true, if_false, bind_eq_ok_iff]
        exact ⟨(ys, rest), (ih (by omega)).mpr hys, rfl⟩

/-- **The loop until the last item.** -/
theorem untilLast_ok_iff {item : Reader ε τ (α × Bool)} (hc : Consumes item) {data : List τ}
    {xs : List α} {rest : List τ} :
    untilLast item data = .ok (xs, rest) ↔ UntilLast item data xs rest :=
  untilLastAux_ok_iff hc (Nat.le_refl _)

/-- A list that ends with a last item has one, so it leaves less to read. -/
theorem UntilLast.length_lt {item : Reader ε τ (α × Bool)} (hc : Consumes item) {data : List τ}
    {xs : List α} {rest : List τ} (h : UntilLast item data xs rest) :
    rest.length < data.length := by
  induction h with
  | last hr => exact hc _ _ _ hr
  | more hr _ ih => exact Nat.lt_trans ih (hc _ _ _ hr)

/-! ### Readers that render what they read -/

/-- `item` reads what `raw` reads, and returns a rendering of it. -/
def Renders {β : Type} (raw : Reader ε τ α) (f : α → β) (item : Reader ε τ β) : Prop :=
  ∀ data y rest, item data = .ok (y, rest) ↔ ∃ x, raw data = .ok (x, rest) ∧ y = f x

section Renders

variable {β : Type}

/-- What is rendered item by item is the rendering of what is read. -/
theorem Renders.items_iff {raw : Reader ε τ α} {f : α → β} {item : Reader ε τ β}
    (h : Renders raw f item) {data : List τ} {ys : List β} :
    Items item data ys ↔ ∃ xs, Items raw data xs ∧ ys = xs.map f := by
  constructor
  · intro hi
    induction hi with
    | nil => exact ⟨[], .nil, rfl⟩
    | cons hr hne _ ih =>
      obtain ⟨x, hx, rfl⟩ := (h _ _ _).mp hr
      obtain ⟨xs, hxs, rfl⟩ := ih
      exact ⟨x :: xs, .cons hx hne hxs, rfl⟩
  · rintro ⟨xs, hi, rfl⟩
    induction hi with
    | nil => exact .nil
    | cons hr hne _ ih => exact .cons ((h _ _ _).mpr ⟨_, hr, rfl⟩) hne ih

/-- The same for a list that ends with a last item: rendering does not change which one is the
last. -/
theorem Renders.untilLast_iff {raw : Reader ε τ (α × Bool)} {f : α → β}
    {item : Reader ε τ (β × Bool)} (h : Renders raw (fun x => (f x.1, x.2)) item)
    {data rest : List τ} {ys : List β} :
    UntilLast item data ys rest ↔ ∃ xs, UntilLast raw data xs rest ∧ ys = xs.map f := by
  constructor
  · -- item by item: each one is the rendering of what is read, with the same end
    intro hu
    induction hu with
    | last hr =>
      obtain ⟨⟨x, last⟩, hx, he⟩ := (h _ _ _).mp hr
      obtain ⟨rfl, rfl⟩ := Prod.mk.inj he
      exact ⟨[x], .last hx, rfl⟩
    | more hr _ ih =>
      obtain ⟨⟨x, last⟩, hx, he⟩ := (h _ _ _).mp hr
      obtain ⟨rfl, rfl⟩ := Prod.mk.inj he
      obtain ⟨xs, hxs, rfl⟩ := ih
      exact ⟨x :: xs, .more hx hxs, rfl⟩
  · rintro ⟨xs, hu, rfl⟩
    induction hu with
    | last hr => exact .last ((h _ _ _).mpr ⟨_, hr, rfl⟩)
    | more hr _ ih => exact .more ((h _ _ _).mpr ⟨_, hr, rfl⟩) ih

end Renders

/-- What holds of every item a reader returns holds of all items of an input. -/
theorem Items.forall_mem {item : Reader ε τ α} {P : α → Prop}
    (h : ∀ data x rest, item data = .ok (x, rest) → P x) {data : List τ} {xs : List α}
    (hi : Items item data xs) : ∀ x ∈ xs, P x := by
  induction hi with
  | nil => simp
  | cons hr _ _ ih => exact List.forall_mem_cons.mpr ⟨h _ _ _ hr, ih⟩

/-- What holds of every item that can be read holds of the items of a list. -/
theorem UntilLast.forall_mem {item : Reader ε τ (α × Bool)} {P : α → Prop}
    (h : ∀ data x rest, item data = .ok (x, rest) → P x.1) {data rest : List τ} {xs : List α}
    (hu : UntilLast item data xs rest) : ∀ x ∈ xs, P x := by
  induction hu with
  | last hr => exact List.forall_mem_singleton.mpr (h _ _ _ hr)
  | more hr _ ih => exact List.forall_mem_cons.mpr ⟨h _ _ _ hr, ih⟩

/-! ### Exact readers -/

/-- The reader succeeds on exactly the inputs that start with an encoding, returns
what was encoded and leaves what follows. -/
def Exact (item : Reader ε τ α) (Enc : α → List τ → Prop) : Prop :=
  ∀ data x rest, item data = .ok (x, rest) ↔ ∃ b, Enc x b ∧ data = b ++ rest

/-- A list of values encoded one after the other. -/
inductive EncAll (Enc : α → List τ → Prop) : List α → List τ → Prop
  | nil : EncAll Enc [] []
  | cons {x : α} {b : List τ} {xs : List α} {bs : List τ} :
      Enc x b → EncAll Enc xs bs → EncAll Enc (x :: xs) (b ++ bs)

/-- When a function gives the octets of the values that can be encoded, those of a list are
the octets of its values in order. -/
theorem encAll_iff {P : α → Prop} {enc : α → List τ} {xs : List α} {bs : List τ} :
    EncAll (fun x b => P x ∧ b = enc x) xs bs ↔ (∀ x ∈ xs, P x) ∧ bs = xs.flatMap enc := by
  constructor
  · -- from the relation to the octets, and back
    intro h
    induction h with
    | nil => exact ⟨by simp, rfl⟩
    | cons hb _ ih =>
      obtain ⟨hx, rfl⟩ := hb
      obtain ⟨hxs, rfl⟩ := ih
      exact ⟨List.forall_mem_cons.mpr ⟨hx, hxs⟩, (List.flatMap_cons).symm⟩
  · rintro ⟨h, rfl⟩
    induction xs with
    | nil => exact .nil
    | cons x xs ih =>
      obtain ⟨hx, hxs⟩ := List.forall_mem_cons.mp h
      rw [List.flatMap_cons]
      exact .cons ⟨hx, rfl⟩ (ih hxs)

/-- Some of the encoded items can be left out. -/
theorem EncAll.filter {Enc : α → List τ → Prop} {xs : List α} {bs : List τ}
    (h : EncAll Enc xs bs) (p : α → Bool) :
    ∃ bs', EncAll Enc (xs.filter p) bs' ∧ bs'.length ≤ bs.length := by
  induction h with
  | nil => exact ⟨[], .nil, le_rfl⟩
  | @cons x b xs bs hb _ ih =>
    obtain ⟨bs', henc, hlen⟩ := ih
    -- an item that is kept keeps its octets, and any other leaves them out
    by_cases hp : p x = true
    · rw [List.filter_cons_of_pos hp]
      refine ⟨b ++ bs', .cons hb henc, ?_⟩
      rw [List.length_append, List.length_append]
      omega
    · rw [List.filter_cons_of_neg hp]
      refine ⟨bs', henc, ?_⟩
      rw [List.length_append]
      omega

/-- A reader that is exact for encodings that are not empty consumes. -/
theorem Exact.consumes {item : Reader ε τ α} {Enc : α → List τ → Prop} (h : Exact item Enc)
    (hne : ∀ x b, Enc x b → b ≠ []) : Consumes item := by
  intro data x rest hr
  obtain ⟨b, hb, rfl⟩ := (h _ _ _).mp hr
  have := List.length_pos_iff.mpr (hne x b hb)
  rw [List.length_append]
  omega

/-- **Exactness of a whole input.** An input splits into items exactly when it is
the concatenation of their encodings. -/
theorem Exact.items_iff {item : Reader ε τ α} {Enc : α → List τ → Prop} (h : Exact item Enc)
    (hne : ∀ x b, Enc x b → b ≠ []) {data : List τ} {xs : List α} :
    Items item data xs ↔ EncAll Enc xs data := by
  constructor
  · -- an item is read exactly where its encoding stands
    intro hi
    induction hi with
    | nil => exact .nil
    | cons hr _ _ ih =>
      obtain ⟨b, hb, rfl⟩ := (h _ _ _).mp hr
      exact .cons hb ih
  · intro he
    induction he with
    | nil => exact .nil
    | @cons x b xs bs hb _ ih =>
      -- the encoding is not empty, so reading it takes something
      refine .cons ((h _ _ _).mpr ⟨b, hb, rfl⟩) ?_ ih
      intro hnil
      exact hne x b hb (List.append_eq_nil_iff.mp hnil).1

/-! ### Readers that take back an encoding -/

/-- The reader takes back what the encoder writes, and takes nothing that is cut short. -/
structure Inverts {β : Type} (item : Reader ε τ β) (enc : α → List τ) (f : α → β) : Prop where
  whole : ∀ x rest, item (enc x ++ rest) = .ok (f x, rest)
  cut : ∀ x data, data <+: enc x → data ≠ enc x → ∀ y rest, item data ≠ .ok (y, rest)

section Inverts

variable {β : Type} {item : Reader ε τ β} {enc : α → List τ} {f : α → β}

/-- A reader that consumes inverts no empty encoding. -/
theorem Inverts.ne_nil (h : Inverts item enc f) (hc : Consumes item) (x : α) : enc x ≠ [] := by
  intro hnil
  have hlt := hc _ _ _ (h.whole x [])
  rw [hnil] at hlt
  exact absurd hlt (by simp)

/-- **An encoded list is read back.** -/
theorem Inverts.items (h : Inverts item enc f) (hc : Consumes item) (xs : List α) :
    Items item (xs.flatMap enc) (xs.map f) := by
  induction xs with
  | nil => exact .nil
  | cons x xs ih =>
    rw [List.flatMap_cons, List.map_cons]
    refine .cons (h.whole x _) (fun hnil => ?_) ih
    exact h.ne_nil hc x (List.append_eq_nil_iff.mp hnil).1

/-- **A list that is cut inside an item is not read**: what can be read of the beginning
of an encoded list ends where an item ends. -/
theorem Inverts.exists_front (h : Inverts item enc f) {xs : List α} {data : List τ}
    {ys : List β} (hp : data <+: xs.flatMap enc) (hi : Items item data ys) :
    ∃ front, front <+: xs ∧ data = front.flatMap enc := by
  induction xs generalizing data ys with
  | nil =>
    rw [List.flatMap_nil] at hp
    exact ⟨[], List.nil_prefix, List.prefix_nil.mp hp⟩
  | cons x xs ih =>
    cases hi with
    | nil => exact ⟨[], List.nil_prefix, rfl⟩
    | @cons _ rest y ys hr _ hi =>
      rw [List.flatMap_cons] at hp
      have hhead : enc x <+: data := by
        -- otherwise the input is cut inside the first item
        refine (List.prefix_or_prefix_of_prefix (List.prefix_append _ _) hp).elim id fun hcut => ?_
        by_cases heq : data = enc x
        · rw [heq]
        · exact absurd hr (h.cut x data hcut heq y rest)
      obtain ⟨tail, rfl⟩ := hhead
      obtain ⟨-, rfl⟩ := Prod.mk.inj (Except.ok.inj ((h.whole x tail).symm.trans hr))
      obtain ⟨front, hfront, rfl⟩ := ih ((List.prefix_append_right_inj _).mp hp) hi
      exact ⟨x :: front, List.cons_prefix_cons.mpr ⟨rfl, hfront⟩, (List.flatMap_cons).symm⟩

end Inverts

/-! ### Readers that take what an encoder writes, and nothing else -/

variable {β : Type}

/-- The reader succeeds on the inputs that begin with what the encoder writes, and returns
what the function makes of the value. -/
def Reads (item : Reader ε τ β) (enc : α → List τ) (f : α → β) : Prop :=
  ∀ data y rest, item data = .ok (y, rest) ↔ ∃ x, data = enc x ++ rest ∧ y = f x

/-- **Item by item to list by list**: a list is read as exactly the items whose encodings it is, one
after the other. -/
theorem Reads.items_iff {item : Reader ε τ β} {enc : α → List τ} {f : α → β}
    (h : Reads item enc f) (hne : ∀ x, enc x ≠ []) {data : List τ} {ys : List β} :
    Items item data ys ↔ ∃ xs : List α, data = xs.flatMap enc ∧ ys = xs.map f := by
  constructor
  · -- every item is read from in front of the rest
    intro hi
    induction hi with
    | nil => exact ⟨[], rfl, rfl⟩
    | cons hr _ _ ih =>
      obtain ⟨x, rfl, rfl⟩ := (h _ _ _).mp hr
      obtain ⟨xs, rfl, rfl⟩ := ih
      exact ⟨x :: xs, rfl, rfl⟩
  · rintro ⟨xs, rfl, rfl⟩
    induction xs with
    | nil => exact .nil
    | cons x xs ih =>
      rw [List.flatMap_cons]
      refine .cons ((h _ _ _).mpr ⟨x, rfl, rfl⟩) ?_ ih
      exact fun hnil => hne x (List.append_eq_nil_iff.mp hnil).1

/-- What is written tells the value, whatever follows. -/
def Separate (enc : α → List τ) : Prop :=
  ∀ x y r s, enc x ++ r = enc y ++ s → x = y

/-- So values that are written one after the other can be told apart. -/
theorem Separate.flatMap_injective {enc : α → List τ} (h : Separate enc) (hne : ∀ x, enc x ≠ []) :
    Function.Injective fun xs : List α => xs.flatMap enc := by
  intro xs
  induction xs with
  | nil =>
    -- nothing is the encoding of no item only
    intro ys heq
    cases ys with
    | nil => rfl
    | cons y ys => exact absurd (List.append_eq_nil_iff.mp heq.symm).1 (hne y)
  | cons x xs ih =>
    intro ys heq
    cases ys with
    | nil => exact absurd (List.append_eq_nil_iff.mp heq).1 (hne x)
    | cons y ys =>
      have hcons : enc x ++ xs.flatMap enc = enc y ++ ys.flatMap enc := heq
      -- the first items are the same, and so is the rest behind them
      obtain rfl := h x y _ _ hcons
      rw [ih (List.append_cancel_left hcons)]

end Reader
