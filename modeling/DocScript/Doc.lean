import DocScript.Number
import DocScript.Value

/-!
# Docs

A doc maps keys to values and may have a prototype. Its keys are ordered: None, False, True, the
numbers from the least to the greatest with both zeros as one key and NaN last, the strings by their
characters, and then everything that has an identity. The entries are kept in that order, so they do not
show in which order they were made.
-/

namespace DocScript

/-- The place of a number in the total order of doubles: the encodings, negative ones reversed. -/
def Number.rank (x : Float) : UInt64 :=
  let bits := x.toBits
  if bits >>> 63 = 0 then bits ||| 0x8000000000000000 else ~~~bits

/-- A key of a doc. -/
inductive Key where
  | none
  | bool (b : Bool)
  | num (n : Float)
  | str (s : String)
  /-- Found again by identity only. -/
  | ref (v : Value)

namespace Key

/-- The key that a value is. -/
def ofValue : Value → Key
  | .none => none
  | .bool b => bool b
  | .num n => num (if n == 0 then 0 else n)
  | .str s => str s
  | v => ref v

/-- The value that a key was made from. -/
def toValue : Key → Value
  | none => .none
  | bool b => .bool b
  | num n => .num n
  | str s => .str s
  | ref v => v

/-- The order of the sorts of keys. -/
def sort : Key → Nat
  | none => 0
  | bool _ => 1
  | num _ => 2
  | str _ => 3
  | ref _ => 4

/-- The place of a boolean or a number among its like. -/
def rank : Key → UInt64
  | bool true => 1
  | num n => Number.rank n
  | _ => 0

/-- The characters of a string. -/
def text : Key → String
  | str s => s
  | _ => ""

/-- What identifies anything else. -/
def identity : Key → Nat × Nat
  | ref v => v.identity
  | _ => (0, 0)

/-- The order of keys: by their sorts, and then by what distinguishes keys of that sort. -/
def cmp : Key → Key → Ordering :=
  compareLex (compareOn sort) <| compareLex (compareOn rank) <| compareLex (compareOn text) <|
    compareLex (compareOn (·.identity.1)) (compareOn (·.identity.2))

instance : Std.TransCmp cmp := by
  unfold cmp
  infer_instance

end Key

/-- An ordered map with an optional prototype. -/
structure Doc where
  entries : List (Key × Value)
  proto : Option Value

namespace Doc

def empty : Doc := ⟨[], none⟩

/-- A doc without entries. -/
def withProto (proto : Value) : Doc := ⟨[], some proto⟩

/-- The value under a key. -/
def getKey? (k : Key) : List (Key × Value) → Option Value
  | [] => none
  | (k', v) :: es =>
    match k.cmp k' with
    | .lt => none
    | .eq => some v
    | .gt => getKey? k es

/-- Puts a value under a key, in its place. -/
def insertKey (k : Key) (v : Value) : List (Key × Value) → List (Key × Value)
  | [] => [(k, v)]
  | (k', w) :: es =>
    match k.cmp k' with
    | .lt => (k, v) :: (k', w) :: es
    | .eq => (k', v) :: es
    | .gt => (k', w) :: insertKey k v es

/-- What was put under a key is found under it. -/
theorem getKey?_insertKey_self (k : Key) (v : Value) (es : List (Key × Value)) :
    getKey? k (insertKey k v es) = some v := by
  induction es with
  | nil => simp [insertKey, getKey?, Std.ReflCmp.compare_self]
  | cons e es ih =>
    obtain ⟨k', w⟩ := e
    cases h : k.cmp k' with
    | lt => simp [insertKey, getKey?, h, Std.ReflCmp.compare_self]
    | eq => simp [insertKey, getKey?, h]
    | gt => simp [insertKey, getKey?, h, ih]

/-- The value under the key that `key` is. -/
def get? (d : Doc) (key : Value) : Option Value := getKey? (.ofValue key) d.entries

/-- Puts `value` under the key that `key` is. -/
def insert (d : Doc) (key value : Value) : Doc :=
  { d with entries := insertKey (.ofValue key) value d.entries }

def size (d : Doc) : Nat := d.entries.length

def isEmpty (d : Doc) : Bool := d.entries.isEmpty

/-- The entries with their keys as values, in order. -/
def toList (d : Doc) : List (Value × Value) := d.entries.map fun (k, v) => (k.toValue, v)

/-- Puts all of `kvs` in, one after the other. -/
def insertMany (d : Doc) (kvs : List (Value × Value)) : Doc :=
  kvs.foldl (fun d kv => d.insert kv.1 kv.2) d

theorem get?_insert_self (d : Doc) (key value : Value) : (d.insert key value).get? key = some value :=
  getKey?_insertKey_self ..

/-- The next free index of a doc that is used as a list: the number of its entries. -/
def nextIndex (d : Doc) : Value := .num (Number.ofNat d.size)

/-- Puts `value` under the next index. -/
def push (d : Doc) (value : Value) : Doc := d.insert d.nextIndex value

end Doc

end DocScript
