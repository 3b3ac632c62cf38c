import DocScript.Value

/-!
# Environments

A frame binds names to values and has an optional parent. The frames form a tree: a new frame is the
child of one that exists already, so its parent has a smaller number. A name is looked up along the
chain from a frame to its root.
-/

namespace DocScript

/-- Names with their values. -/
abbrev Bindings := List (String × Value)

namespace Bindings

def get? (bs : Bindings) (x : String) : Option Value := bs.lookup x

/-- Binds `x` to `v`, in place of what it was bound to. -/
def set (x : String) (v : Value) : Bindings → Bindings
  | [] => [(x, v)]
  | (y, w) :: bs => if y = x then (x, v) :: bs else (y, w) :: set x v bs

theorem get?_nil (x : String) : get? [] x = none := rfl

theorem get?_cons (x y : String) (v : Value) (bs : Bindings) :
    get? ((x, v) :: bs) y = if x = y then some v else get? bs y := by
  by_cases h : x = y
  · simp [get?, h]
  · have h' : (y == x) = false := by simpa using Ne.symm h
    simp [get?, List.lookup_cons, h, h']

/-- Binding `x` changes what `x` is bound to and nothing else. -/
theorem get?_set (x y : String) (v : Value) (bs : Bindings) :
    get? (set x v bs) y = if x = y then some v else get? bs y := by
  induction bs with
  | nil => rw [set, get?_cons]
  | cons b bs ih =>
    obtain ⟨z, w⟩ := b
    by_cases hz : z = x
    · by_cases hy : x = y <;> simp [set, get?_cons, hz, hy]
    · by_cases hy : x = y
      · simp_all [set, get?_cons]
      · simp [set, get?_cons, hz, hy, ih]

end Bindings

structure Frame where
  bindings : Bindings
  parent : Option FrameId

/-- All frames, by number. -/
structure Frames where
  cells : Array Frame

namespace Frames

def empty : Frames := ⟨#[]⟩

def size (fs : Frames) : Nat := fs.cells.size

def parent? (fs : Frames) (i : FrameId) : Option FrameId := fs.cells[i]?.bind Frame.parent

/-- A new frame, without bindings; its number is the size before. -/
def push (fs : Frames) (parent : Option FrameId) : Frames := ⟨fs.cells.push ⟨[], parent⟩⟩

/-- What the frame `i` itself binds `x` to. -/
def getLocal? (fs : Frames) (i : FrameId) (x : String) : Option Value :=
  fs.cells[i]?.bind fun f => f.bindings.get? x

/-- The first `n` frames from `i` outwards. -/
def chainOf (fs : Frames) : Nat → FrameId → List FrameId
  | 0, _ => []
  | n + 1, i =>
    match fs.parent? i with
    | some p => i :: chainOf fs n p
    | none => [i]

/-- The frames from `i` outwards. There are at most `i + 1`, since parents have smaller numbers. -/
def chain (fs : Frames) (i : FrameId) : List FrameId := fs.chainOf (i + 1) i

/-- The frames around `i`. -/
def outer (fs : Frames) (i : FrameId) : List FrameId :=
  match fs.parent? i with
  | some p => fs.chain p
  | none => []

/-- The first of the frames that binds `x`. -/
def nearest? (fs : Frames) (x : String) (is : List FrameId) : Option FrameId :=
  is.find? fun i => (fs.getLocal? i x).isSome

/-- What `x` is bound to from the frame `i` outwards. -/
def get? (fs : Frames) (i : FrameId) (x : String) : Option Value :=
  (fs.chain i).findSome? fun j => fs.getLocal? j x

/-- What `x` is bound to around the frame `i`. -/
def getOuter? (fs : Frames) (i : FrameId) (x : String) : Option Value :=
  (fs.outer i).findSome? fun j => fs.getLocal? j x

/-- Binds `x` in the frame `i`. -/
def define (fs : Frames) (i : FrameId) (x : String) (v : Value) : Frames :=
  ⟨fs.cells.modify i fun f => { f with bindings := f.bindings.set x v }⟩

theorem size_push (fs : Frames) (parent : Option FrameId) :
    (fs.push parent).size = fs.size + 1 := Array.size_push ..

theorem size_define (fs : Frames) (i : FrameId) (x : String) (v : Value) :
    (fs.define i x v).size = fs.size := Array.size_modify

theorem parent?_define (fs : Frames) (i j : FrameId) (x : String) (v : Value) :
    (fs.define i x v).parent? j = fs.parent? j := by
  simp only [parent?, define, Array.getElem?_modify]
  split
  · cases fs.cells[j]? <;> rfl
  · rfl

/-- A new frame binds nothing. -/
theorem getLocal?_push (fs : Frames) (parent : Option FrameId) (i : FrameId) (x : String) :
    (fs.push parent).getLocal? i x = fs.getLocal? i x := by
  simp only [getLocal?, push, Array.getElem?_push]
  split
  · next h => simp [h, Bindings.get?_nil]
  · rfl

/-- Binding `x` in a frame changes what that frame binds `x` to and nothing else. -/
theorem getLocal?_define (fs : Frames) (i j : FrameId) (x y : String) (v : Value) :
    (fs.define i x v).getLocal? j y =
      if i = j ∧ j < fs.size ∧ x = y then some v else fs.getLocal? j y := by
  simp only [getLocal?, define, Array.getElem?_modify, size]
  by_cases hi : i = j
  · by_cases hj : j < fs.cells.size
    · simp [hi, hj, Bindings.get?_set]
    · simp [hi, hj]
  · simp [hi]

/-- Binds `x` anew in the first of the frames that binds it, if one does. -/
def assignAlong (fs : Frames) (is : List FrameId) (x : String) (v : Value) : Option Frames :=
  (fs.nearest? x is).map fun j => fs.define j x v

/-- Binds `x` anew in the nearest frame from `i` outwards that binds it, if one does. -/
def assign? (fs : Frames) (i : FrameId) (x : String) (v : Value) : Option Frames :=
  fs.assignAlong (fs.chain i) x v

/-- Binds `x` anew in the nearest frame around `i` that binds it, if one does. -/
def assignOuter? (fs : Frames) (i : FrameId) (x : String) (v : Value) : Option Frames :=
  fs.assignAlong (fs.outer i) x v

/-- Binds `x` anew where it is bound from `i` outwards, or in `i` if it is not. -/
def set (fs : Frames) (i : FrameId) (x : String) (v : Value) : Frames :=
  fs.define ((fs.nearest? x (fs.chain i)).getD i) x v

end Frames

end DocScript
