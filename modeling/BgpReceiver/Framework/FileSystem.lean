import Mathlib

/-!
# A file system with inodes

A directory takes names to inodes, and an inode has a content. Whoever has opened a file
holds its inode, so a file goes on being written after its name has been given to another
one, or has been taken away.

`create` opens a name for writing: the file that is there is emptied, and otherwise the
name gets a fresh file. `write` puts bytes at an offset, over what is there, with zeros in
a gap. `rename` moves a name onto another one, in one go.

No operation gives a second name to a file, so that names have distinct files is part of
`FileSystem`. A write is seen under at most one name then (`FileSystem.read_write_of_ne`).
-/

/-- Names that point to files, and the octets of every file. A file has a number of its own, so two
names or two handles may stand for one. -/
structure FileSystem (Name : Type) where
  dir : Name → Option ℕ
  content : ℕ → List UInt8
  /-- The inode of the next new file. -/
  next : ℕ
  /-- Inodes that have a name have been given out. -/
  bound : ∀ name i, dir name = some i → i < next
  /-- A file has one name at most. -/
  distinct : ∀ name name' i, dir name = some i → dir name' = some i → name = name'

namespace FileSystem

variable {Name : Type} (fs : FileSystem Name)

/-- What is found under a name. -/
def read (name : Name) : Option (List UInt8) := (fs.dir name).map fs.content

/-- A content with bytes put at an offset. -/
def patch (old : List UInt8) (offset : ℕ) (bytes : List UInt8) : List UInt8 :=
  old.take offset ++ List.replicate (offset - old.length) 0 ++ bytes
    ++ old.drop (offset + bytes.length)

/-- Bytes put at an offset of a file. -/
def write (i offset : ℕ) (bytes : List UInt8) : FileSystem Name :=
  { fs with content := Function.update fs.content i (patch (fs.content i) offset bytes) }

/-- The file of a name is emptied. -/
def truncate (i : ℕ) : FileSystem Name :=
  { fs with content := Function.update fs.content i [] }

variable [DecidableEq Name]

/-- A name gets a fresh file. -/
def allocate (name : Name) : FileSystem Name where
  dir := Function.update fs.dir name (some fs.next)
  content := Function.update fs.content fs.next []
  next := fs.next + 1
  bound := by
    intro name' i h
    by_cases hn : name' = name
    · rw [hn, Function.update_self] at h
      obtain rfl := Option.some.inj h
      exact Nat.lt_succ_self _
    · rw [Function.update_of_ne hn] at h
      exact (fs.bound name' i h).trans (Nat.lt_succ_self _)
  distinct := by
    -- the inode is beyond those that are in use
    have hfresh : ∀ name', fs.dir name' ≠ some fs.next := fun name' h =>
      absurd (fs.bound name' _ h) (lt_irrefl _)
    intro name₁ name₂ i h₁ h₂
    by_cases hn₁ : name₁ = name
    · by_cases hn₂ : name₂ = name
      · rw [hn₁, hn₂]
      · rw [hn₁, Function.update_self] at h₁
        rw [Function.update_of_ne hn₂, ← h₁] at h₂
        exact absurd h₂ (hfresh name₂)
    · rw [Function.update_of_ne hn₁] at h₁
      by_cases hn₂ : name₂ = name
      · rw [hn₂, Function.update_self] at h₂
        rw [← h₂] at h₁
        exact absurd h₁ (hfresh name₁)
      · rw [Function.update_of_ne hn₂] at h₂
        exact fs.distinct name₁ name₂ i h₁ h₂

/-- Open a name for writing, with the inode that it leads to. -/
def create (name : Name) : FileSystem Name × ℕ :=
  match fs.dir name with
  | some i => (fs.truncate i, i)
  | none => (fs.allocate name, fs.next)

/-- The directory in which a name has been moved onto another one. -/
def moved (src dst : Name) (i : ℕ) : Name → Option ℕ :=
  Function.update (Function.update fs.dir src none) dst (some i)

/-- Behind a rename a name points to the file that was moved, or is another one and points where it
did. -/
theorem moved_eq_some {src dst name : Name} {i j : ℕ} (h : fs.moved src dst i name = some j) :
    name = dst ∧ j = i ∨ name ≠ dst ∧ name ≠ src ∧ fs.dir name = some j := by
  unfold moved at h
  by_cases hd : name = dst
  · rw [hd, Function.update_self] at h
    exact Or.inl ⟨hd, (Option.some.inj h).symm⟩
  · rw [Function.update_of_ne hd] at h
    by_cases hs : name = src
    · rw [hs, Function.update_self] at h
      exact absurd h (by simp)
    · rw [Function.update_of_ne hs] at h
      exact Or.inr ⟨hd, hs, h⟩

/-- Move a name onto another one. -/
def rename (src dst : Name) : Option (FileSystem Name) :=
  match h : fs.dir src with
  | none => none
  | some i => some {
      dir := fs.moved src dst i
      content := fs.content
      next := fs.next
      bound := by
        intro name j hj
        rcases fs.moved_eq_some hj with ⟨-, rfl⟩ | ⟨-, -, hj⟩
        · exact fs.bound src _ h
        · exact fs.bound name j hj
      distinct := by
        intro name₁ name₂ j h₁ h₂
        rcases fs.moved_eq_some h₁ with ⟨hd₁, hj₁⟩ | ⟨-, hs₁, hk₁⟩ <;>
          rcases fs.moved_eq_some h₂ with ⟨hd₂, hj₂⟩ | ⟨-, hs₂, hk₂⟩
        · rw [hd₁, hd₂]
        · exact absurd (fs.distinct _ _ _ hk₂ (hj₁ ▸ h)) hs₂
        · exact absurd (fs.distinct _ _ _ hk₁ (hj₂ ▸ h)) hs₁
        · exact fs.distinct _ _ _ hk₁ hk₂ }

variable {fs}

/-! ### Contents -/

/-- Writing on where a copy of the beginning of a text ends. -/
theorem patch_take (text : List UInt8) {k n : ℕ} (hk : k ≤ text.length) :
    patch (text.take k) k ((text.drop k).take n) = text.take (k + n) := by
  have hlen : (text.take k).length = k := List.length_take_of_le hk
  -- the copy ends at the offset: there is no gap, and nothing behind what is written
  have hend : (text.take k).drop (k + ((text.drop k).take n).length) = [] :=
    List.drop_eq_nil_of_le (hlen.le.trans (Nat.le_add_right _ _))
  unfold patch
  rw [hend, List.take_take, min_self, hlen, Nat.sub_self, List.replicate_zero, List.append_nil,
    List.append_nil, List.take_add]

omit [DecidableEq Name] in
@[simp] theorem dir_write (i offset : ℕ) (bytes : List UInt8) :
    (fs.write i offset bytes).dir = fs.dir := rfl

omit [DecidableEq Name] in
@[simp] theorem content_write (i offset : ℕ) (bytes : List UInt8) :
    (fs.write i offset bytes).content i = patch (fs.content i) offset bytes :=
  Function.update_self _ _ _

omit [DecidableEq Name] in
@[simp] theorem content_truncate (i : ℕ) : (fs.truncate i).content i = [] :=
  Function.update_self _ _ _

omit [DecidableEq Name] in
/-- A write to a file is not seen under the name of another one. -/
theorem read_write_of_ne {name : Name} {i : ℕ} (h : fs.dir name ≠ some i) (offset : ℕ)
    (bytes : List UInt8) : (fs.write i offset bytes).read name = fs.read name := by
  unfold read
  rw [dir_write]
  cases hd : fs.dir name with
  | none => rfl
  | some j =>
    have hj : j ≠ i := by
      rintro rfl
      exact h hd
    exact congrArg some (Function.update_of_ne hj _ _)

/-! ### Names -/

/-- **A created file is empty**, and the name leads to it. -/
theorem create_spec (fs : FileSystem Name) (name : Name) :
    (fs.create name).1.dir name = some (fs.create name).2 ∧
      (fs.create name).1.content (fs.create name).2 = [] := by
  unfold create
  cases hd : fs.dir name with
  | none => exact ⟨Function.update_self _ _ _, Function.update_self _ _ _⟩
  | some i => exact ⟨hd, content_truncate i⟩

/-- A name that is there keeps its file, which is emptied. -/
theorem create_of_dir {name : Name} {i : ℕ} (h : fs.dir name = some i) :
    fs.create name = (fs.truncate i, i) := by
  unfold create
  rw [h]

/-- Creating a file leaves every other name alone. -/
theorem read_create_of_ne (fs : FileSystem Name) {name other : Name} (h : other ≠ name) :
    (fs.create name).1.read other = fs.read other := by
  unfold create
  cases hd : fs.dir name with
  | none =>
    -- the name is new, and so is the number of its file
    unfold read allocate
    simp only [Function.update_of_ne h]
    cases ho : fs.dir other with
    | none => rfl
    | some j =>
      have hj : j ≠ fs.next := (fs.bound other j ho).ne
      exact congrArg some (Function.update_of_ne hj _ _)
  | some i =>
    -- the name has a file, which is no other name's file
    unfold read truncate
    cases ho : fs.dir other with
    | none => rfl
    | some j =>
      have hj : j ≠ i := by
        rintro rfl
        exact h (fs.distinct _ _ _ ho hd)
      exact congrArg some (Function.update_of_ne hj _ _)

/-- **A name that is moved takes its content along**, and everything else stays. -/
theorem rename_spec {fs' : FileSystem Name} {src dst : Name} (h : fs.rename src dst = some fs') :
    fs'.content = fs.content ∧ ∃ i, fs.dir src = some i ∧ fs'.dir = fs.moved src dst i := by
  unfold rename at h
  split at h
  · exact absurd h (by simp)
  · next i hi =>
    obtain rfl := Option.some.inj h
    exact ⟨rfl, i, hi, rfl⟩

/-- A name that is there can be renamed to any other. -/
theorem exists_rename {src : Name} {i : ℕ} (h : fs.dir src = some i) (dst : Name) :
    ∃ fs', fs.rename src dst = some fs' := by
  unfold rename
  split
  · next hn => exact absurd (hn.symm.trans h) (by simp)
  · exact ⟨_, rfl⟩

/-- **A rename is whole**: under the new name stands what stood under the old one. -/
theorem read_rename {fs' : FileSystem Name} {src dst : Name} (h : fs.rename src dst = some fs') :
    fs'.read dst = fs.read src := by
  obtain ⟨hc, i, hi, hd⟩ := rename_spec h
  unfold read
  rw [hc, hd, hi, moved, Function.update_self]

end FileSystem
