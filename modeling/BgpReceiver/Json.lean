import BgpReceiver.Framework.OrdMap
import BgpReceiver.Framework.Text
import Mathlib

/-!
# JSON values

The values of `serde_json`. An object is a map kept in key order, so that two
objects with the same members are equal whatever the order in which they were
built; a value nests its maps inside itself, so they are bare lists of entries,
built by `Entries.insert` alone.

Reading follows the crate: indexing a member that is missing, or anything that is
not an object, gives `null` (`Json.index`), while indexing for writing puts a
`null` under a key that is missing before it hands the place out
(`Json.indexMut`).

The program renders integers only, so a number is a natural number.
-/

/-- A value of `serde_json`. Its numbers are the natural ones, which are all that the program makes
of a message; the members of an object are in the order of their keys. -/
inductive Json where
  | null
  | bool (b : Bool)
  | num (n : ℕ)
  | str (s : String)
  | arr (elems : List Json)
  | obj (fields : List (String × Json))
  deriving Inhabited

namespace Json

/-! ### Equality -/

mutual

/-- Equality of values, by recursion over their structure. -/
def beq : Json → Json → Bool
  | .null, .null => true
  | .bool a, .bool b => a == b
  | .num a, .num b => a == b
  | .str a, .str b => a == b
  | .arr as, .arr bs => beqElems as bs
  | .obj as, .obj bs => beqFields as bs
  | _, _ => false

def beqElems : List Json → List Json → Bool
  | [], [] => true
  | a :: as, b :: bs => beq a b && beqElems as bs
  | _, _ => false

def beqFields : List (String × Json) → List (String × Json) → Bool
  | [], [] => true
  | (k, a) :: as, (l, b) :: bs => k == l && beq a b && beqFields as bs
  | _, _ => false

end

mutual

theorem beq_iff : ∀ a b : Json, beq a b = true ↔ a = b
  | .null, b => by cases b <;> simp [beq]
  | .bool _, b => by cases b <;> simp [beq]
  | .num _, b => by cases b <;> simp [beq]
  | .str _, b => by cases b <;> simp [beq]
  | .arr as, b => by cases b <;> simp [beq, beqElems_iff as]
  | .obj as, b => by cases b <;> simp [beq, beqFields_iff as]

theorem beqElems_iff : ∀ as bs : List Json, beqElems as bs = true ↔ as = bs
  | [], bs => by cases bs <;> simp [beqElems]
  | a :: as, bs => by cases bs <;> simp [beqElems, beq_iff a, beqElems_iff as]

theorem beqFields_iff : ∀ as bs : List (String × Json), beqFields as bs = true ↔ as = bs
  | [], bs => by cases bs <;> simp [beqFields]
  | (k, a) :: as, bs => by
    cases bs <;>
      simp [beqFields, beq_iff a, beqFields_iff as, Prod.ext_iff, and_assoc]

end

instance : DecidableEq Json := fun a b => decidable_of_iff _ (beq_iff a b)

/-! ### Building -/

/-- The object with the given members; of two members with one key the later stays. -/
def object (fields : List (String × Json)) : Json :=
  .obj (fields.foldl (fun m e => Entries.insert e.1 e.2 m) [])

/-- Assigning to a member. -/
def set (v : Json) (key : String) (value : Json) : Json :=
  match v with
  | .obj fields => .obj (Entries.insert key value fields)
  | v => v

/-- The value once its member has been indexed for writing: a missing member is
there afterwards, holding `null`. -/
def indexMut (key : String) : Json → Json
  | .obj fields =>
    match Entries.find key fields with
    | some _ => .obj fields
    | none => .obj (Entries.insert key .null fields)
  | v => v

/-! ### Reading -/

/-- The member under a key, if the value is an object that has it. -/
def get (key : String) : Json → Option Json
  | .obj fields => Entries.find key fields
  | _ => none

/-- The member under a key, `null` when there is none. -/
def index (key : String) (v : Json) : Json := (v.get key).getD .null

/-- `Value::as_str`. -/
def asStr : Json → Option String
  | .str s => some s
  | _ => none

/-- `Value::as_array`. -/
def asArray : Json → Option (List Json)
  | .arr elems => some elems
  | _ => none

/-- `Value::as_object`. -/
def asObject : Json → Option (List (String × Json))
  | .obj fields => some fields
  | _ => none

/-- `Value::as_u64`. -/
def asU64 : Json → Option ℕ
  | .num n => some n
  | _ => none

@[simp] theorem asStr_str (s : String) : (Json.str s).asStr = some s := rfl

@[simp] theorem asStr_null : Json.null.asStr = none := rfl

@[simp] theorem asStr_arr (elems : List Json) : (Json.arr elems).asStr = none := rfl

@[simp] theorem asArray_arr (elems : List Json) : (Json.arr elems).asArray = some elems := rfl

@[simp] theorem asArray_null : Json.null.asArray = none := rfl

@[simp] theorem asArray_str (s : String) : (Json.str s).asArray = none := rfl

@[simp] theorem asObject_obj (fields : List (String × Json)) :
    (Json.obj fields).asObject = some fields := rfl

@[simp] theorem asU64_num (n : ℕ) : (Json.num n).asU64 = some n := rfl

@[simp] theorem get_obj (key : String) (fields : List (String × Json)) :
    (Json.obj fields).get key = Entries.find key fields := rfl

/-- Reading a member of a built object finds the last of that key. -/
theorem find_foldl_insert (key : String) (fields m : List (String × Json)) :
    Entries.find key (fields.foldl (fun m e => Entries.insert e.1 e.2 m) m)
      = (Entries.find key fields.reverse).or (Entries.find key m) := by
  induction fields using List.reverseRecOn with
  | nil => rfl
  | append_singleton fields e ih =>
    obtain ⟨k, v⟩ := e
    rw [List.foldl_append, List.foldl_cons, List.foldl_nil, Entries.find_insert, ih,
      List.reverse_append, List.reverse_singleton, List.singleton_append, Entries.find_cons]
    split <;> rfl

/-- The last of the members with a key is the one that an object keeps. -/
@[simp] theorem get_object (key : String) (fields : List (String × Json)) :
    (object fields).get key = Entries.find key fields.reverse := by
  rw [object, get_obj, find_foldl_insert, Entries.find_nil, Option.or_none]

/-- An object of members in key order is the list of them. -/
theorem object_of_sorted {fields : List (String × Json)} (h : Entries.Sorted fields) :
    object fields = .obj fields := by
  -- the entries are put in one after the other, each behind all those that are there
  have hfold : ∀ (rest acc : List (String × Json)), Entries.Sorted (acc ++ rest) →
      rest.foldl (fun m e => Entries.insert e.1 e.2 m) acc = acc ++ rest := by
    intro rest
    induction rest with
    | nil => intro acc _; rw [List.append_nil]; rfl
    | cons e rest ih =>
      intro acc hs
      have hlast : ∀ e' ∈ acc, e'.1 < e.1 := fun e' he' =>
        (List.pairwise_append.mp hs).2.2 e' he' e List.mem_cons_self
      have hs' : Entries.Sorted ((acc ++ [e]) ++ rest) := by rwa [List.append_assoc]
      rw [List.foldl_cons, Entries.insert_of_forall_lt hlast, ih _ hs', List.append_assoc]
      rfl
  rw [object, hfold fields [] h]
  rfl

/-- A member that is set replaces the one of its key and no other. -/
theorem get_set_obj (fields : List (String × Json)) (key key' : String) (value : Json) :
    ((Json.obj fields).set key value).get key'
      = if key' = key then some value else (Json.obj fields).get key' :=
  Entries.find_insert key key' value fields

/-- The same for an object that is written as a list of members. -/
@[simp] theorem get_set_object (fields : List (String × Json)) (key key' : String)
    (value : Json) :
    ((object fields).set key value).get key'
      = if key' = key then some value else (object fields).get key' :=
  get_set_obj _ key key' value

/-! ### Rendering -/

/-- The escape sequences of a character inside a rendered string. -/
def escape (c : Char) : List Char :=
  if c = '"' then ['\\', '"']
  else if c = '\\' then ['\\', '\\']
  else if c = Char.ofNat 8 then ['\\', 'b']
  else if c = Char.ofNat 9 then ['\\', 't']
  else if c = Char.ofNat 10 then ['\\', 'n']
  else if c = Char.ofNat 12 then ['\\', 'f']
  else if c = Char.ofNat 13 then ['\\', 'r']
  else if c.toNat < 32 then
    ['\\', 'u', '0', '0', Nat.digitChar (c.toNat / 16), Nat.digitChar (c.toNat % 16)]
  else [c]

/-- A text in quotation marks, with its escapes. -/
def quote (s : String) : String :=
  String.ofList (['"'] ++ s.toList.flatMap escape ++ ['"'])

mutual

/-- The compact text of a value (`serde_json::to_vec`, `Value::to_string`). -/
def text : Json → String
  | .null => "null"
  | .bool b => if b then "true" else "false"
  | .num n => Nat.repr n
  | .str s => quote s
  | .arr elems => "[" ++ String.intercalate "," (elemTexts elems) ++ "]"
  | .obj fields => "\x7b" ++ String.intercalate "," (fieldTexts fields) ++ "\x7d"

def elemTexts : List Json → List String
  | [] => []
  | v :: vs => text v :: elemTexts vs

def fieldTexts : List (String × Json) → List String
  | [] => []
  | (k, v) :: vs => (quote k ++ ":" ++ text v) :: fieldTexts vs

end

example : (object [("b", .arr [.num 6, .null]), ("a", .str "x")]).text
    = "\x7b\"a\":\"x\",\"b\":[6,null]\x7d" := by decide

end Json
