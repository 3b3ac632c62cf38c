import DocScript.Env
import Mathlib.Logic.Basic
import Mathlib.Logic.Relation

/-!
# Frames and their chains

Frames are made one after the other, each inside one that is there already or inside none, and names are written from
them (`Frames.Built`). Parents have smaller numbers (`Frames.Descends`), so the links do not lead back to a frame, and
the chain of a frame is the whole way outwards from it (`Frames.walk_iff`).

A write goes to one frame (`Frames.WritesTo`) : to the nearest one that binds the name, or to the frame that it is made
from. It leaves the chains alone and binds one name in that frame. Many chains can lead through this frame, and it
depends on what the frames in front of it bind whether the new value is found there (`Frames.findSome?_define`).
-/

namespace DocScript

namespace Frames

variable {fs fs' : Frames} {i j p : FrameId} {is : List FrameId} {x y : String} {v : Value}

/-! ## The way outwards -/

theorem parent?_push (fs : Frames) (parent : Option FrameId) (j : FrameId) :
    (fs.push parent).parent? j = if j = fs.size then parent else fs.parent? j := by
  simp only [parent?, push, Array.getElem?_push, size]
  by_cases hj : j = fs.cells.size <;> simp [hj]

/-- Parents have smaller numbers. -/
def Descends (fs : Frames) : Prop := ∀ i p, fs.parent? i = some p → p < i

/-- `is` are the frames from `i` outwards, up to one without a parent. -/
inductive Walk (fs : Frames) : FrameId → List FrameId → Prop
  | root {i : FrameId} : fs.parent? i = none → Walk fs i [i]
  | step {i p : FrameId} {is : List FrameId} : fs.parent? i = some p → Walk fs p is → Walk fs i (i :: is)

theorem walk_chainOf (h : fs.Descends) : ∀ {n i : Nat}, i < n → fs.Walk i (fs.chainOf n i)
  | 0, _, hi => absurd hi (Nat.not_lt_zero _)
  | n + 1, i, hi => by
    rw [chainOf]
    cases hp : fs.parent? i with
    | none => exact .root hp
    | some p => exact .step hp (walk_chainOf h (Nat.lt_of_lt_of_le (h i p hp) (Nat.le_of_lt_succ hi)))

theorem Walk.unique {is' : List FrameId} (h : fs.Walk i is) (h' : fs.Walk i is') : is = is' := by
  induction h generalizing is' with
  | root hp =>
    cases h' with
    | root _ => rfl
    | step hp' _ => cases hp.symm.trans hp'
  | step hp _ ih =>
    cases h' with
    | root hp' => cases hp.symm.trans hp'
    | step hp' h' =>
      obtain rfl := Option.some.inj (hp.symm.trans hp')
      rw [ih h']

/-- The chain of a frame is the whole way outwards. -/
theorem walk_iff (h : fs.Descends) : fs.Walk i is ↔ is = fs.chain i := by
  have hchain : fs.Walk i (fs.chain i) := walk_chainOf h (Nat.lt_succ_self i)
  exact ⟨fun hw => hw.unique hchain, fun his => his ▸ hchain⟩

/-- No frame is around itself. -/
theorem Descends.acyclic (h : fs.Descends) (i : FrameId) :
    ¬Relation.TransGen (fun i p => fs.parent? i = some p) i i := by
  have outwards {i j : FrameId} (hij : Relation.TransGen (fun i p => fs.parent? i = some p) i j) : j < i := by
    induction hij with
    | single hp => exact h _ _ hp
    | tail _ hp ih => exact Nat.lt_trans (h _ _ hp) ih
  exact fun hi => Nat.lt_irrefl i (outwards hi)

theorem exists_chain_eq_cons (fs : Frames) (i : FrameId) : ∃ is, fs.chain i = i :: is := by
  rw [chain, chainOf]
  cases fs.parent? i with
  | none => exact ⟨_, rfl⟩
  | some p => exact ⟨_, rfl⟩

theorem chainOf_define (fs : Frames) (i : FrameId) (x : String) (v : Value) : ∀ (n : Nat) (j : FrameId),
    (fs.define i x v).chainOf n j = fs.chainOf n j
  | 0, _ => rfl
  | n + 1, j => by
    rw [chainOf, chainOf, parent?_define]
    cases fs.parent? j with
    | none => rfl
    | some p => exact congrArg (j :: ·) (chainOf_define fs i x v n p)

theorem chain_define : (fs.define i x v).chain j = fs.chain j := chainOf_define fs i x v (j + 1) j

theorem outer_define : (fs.define i x v).outer j = fs.outer j := by
  rw [outer, outer, parent?_define]
  cases fs.parent? j with
  | none => rfl
  | some p => exact chain_define

/-! ## The nearest frame that binds a name -/

/-- `j` is the first of the frames `is` that binds `x`. -/
def BindsFirst (fs : Frames) (x : String) (is : List FrameId) (j : FrameId) : Prop :=
  ∃ before behind, is = before ++ j :: behind ∧ (fs.getLocal? j x).isSome ∧
    ∀ l ∈ before, fs.getLocal? l x = none

/-- None of the frames `is` binds `x`. -/
def Unbound (fs : Frames) (x : String) (is : List FrameId) : Prop := ∀ l ∈ is, fs.getLocal? l x = none

theorem nearest?_eq_some_iff : fs.nearest? x is = some j ↔ fs.BindsFirst x is j := by
  unfold nearest? BindsFirst
  rw [List.find?_eq_some_iff_append]
  constructor
  · rintro ⟨hj, before, behind, his, hbefore⟩
    exact ⟨before, behind, his, hj, fun l hl => by simpa using hbefore l hl⟩
  · rintro ⟨before, behind, his, hj, hbefore⟩
    exact ⟨hj, before, behind, his, fun l hl => by simp [hbefore l hl]⟩

theorem nearest?_eq_none_iff : fs.nearest? x is = none ↔ fs.Unbound x is := by
  simp [nearest?, Unbound]

theorem lt_size_of_isSome_getLocal? (h : (fs.getLocal? j x).isSome) : j < fs.size := by
  obtain ⟨w, hw⟩ := Option.isSome_iff_exists.1 h
  obtain ⟨f, hf, -⟩ := Option.bind_eq_some_iff.1 hw
  exact (Array.getElem?_eq_some_iff.1 hf).1

theorem isSome_of_nearest? (h : fs.nearest? x is = some j) : (fs.getLocal? j x).isSome :=
  List.find?_some (p := fun i => (fs.getLocal? i x).isSome) h

/-! ## Reading after a write -/

theorem getLocal?_define_of_ne (h : x ≠ y) : (fs.define i x v).getLocal? j y = fs.getLocal? j y := by
  rw [getLocal?_define, if_neg fun hc => h hc.2.2]

theorem getLocal?_define_self (h : i < fs.size) : (fs.define i x v).getLocal? i x = some v := by
  rw [getLocal?_define, if_pos ⟨rfl, h, rfl⟩]

theorem get?_define_of_ne (h : x ≠ y) : (fs.define i x v).get? j y = fs.get? j y := by
  simp only [get?, chain_define, getLocal?_define_of_ne h]

theorem getOuter?_define_of_ne (h : x ≠ y) : (fs.define i x v).getOuter? j y = fs.getOuter? j y := by
  simp only [getOuter?, outer_define, getLocal?_define_of_ne h]

/-- To bind a name anew where it is bound changes nothing about where it is found. -/
theorem nearest?_define_of_isSome (h : (fs.getLocal? j x).isSome) :
    (fs.define j x v).nearest? x is = fs.nearest? x is := by
  have hsame (l : FrameId) : ((fs.define j x v).getLocal? l x).isSome = (fs.getLocal? l x).isSome := by
    rw [getLocal?_define]
    split
    · next hl => rw [← hl.1, h, Option.isSome_some]
    · rfl
  simp only [nearest?, hsame]

/-- What is found along some frames after a write : the new value if the frame of the write is the first that binds the
name, and what was found before otherwise. -/
theorem findSome?_define (h : j < fs.size) : ∀ is : List FrameId,
    is.findSome? (fun l => (fs.define j x v).getLocal? l x) =
      if (fs.define j x v).nearest? x is = some j then some v else is.findSome? fun l => fs.getLocal? l x
  | [] => rfl
  | l :: is => by
    by_cases hl : l = j
    · subst hl
      simp [nearest?, getLocal?_define_self h]
    · have hsame : (fs.define j x v).getLocal? l x = fs.getLocal? l x := by
        rw [getLocal?_define, if_neg fun hc => hl hc.1.symm]
      cases hlocal : fs.getLocal? l x with
      | some w => simp [nearest?, hsame, hlocal, hl]
      | none =>
        have hrest : (fs.define j x v).nearest? x (l :: is) = (fs.define j x v).nearest? x is := by
          simp [nearest?, hsame, hlocal]
        rw [hrest, List.findSome?_cons, List.findSome?_cons, hsame, hlocal]
        exact findSome?_define h is

theorem findSome?_define_nearest (h : fs.nearest? x is = some j) :
    is.findSome? (fun l => (fs.define j x v).getLocal? l x) = some v := by
  have hbound := isSome_of_nearest? h
  rw [findSome?_define (lt_size_of_isSome_getLocal? hbound), nearest?_define_of_isSome hbound, if_pos h]

/-- A new binding in the frame itself is found first. -/
theorem get?_define_self (h : i < fs.size) : (fs.define i x v).get? i x = some v := by
  obtain ⟨is, his⟩ := fs.exists_chain_eq_cons i
  rw [get?, chain_define, his, List.findSome?_cons, getLocal?_define_self h]

theorem get?_set_self (h : i < fs.size) : (fs.set i x v).get? i x = some v := by
  rw [set]
  cases hn : fs.nearest? x (fs.chain i) with
  | none => exact get?_define_self h
  | some j =>
    rw [Option.getD_some, get?, chain_define]
    exact findSome?_define_nearest hn

theorem getOuter?_assignOuter? (h : fs.assignOuter? i x v = some fs') : fs'.getOuter? i x = some v := by
  obtain ⟨j, hj, rfl⟩ := Option.map_eq_some_iff.1 h
  rw [getOuter?, outer_define]
  exact findSome?_define_nearest hj

/-! ## Writes -/

/-- The ways to write a name from a frame. -/
inductive Write where
  /-- In the frame itself. -/
  | define
  /-- Where the name is bound from the frame outwards, or else in the frame itself. -/
  | set
  /-- Where the name is bound from the frame outwards. -/
  | assign
  /-- Where the name is bound around the frame. -/
  | assignOuter

/-- Writes `x` from the frame `i` : whether that could be done, and the frames after it. -/
def write (fs : Frames) (i : FrameId) (x : String) (v : Value) : Write → Bool × Frames
  | .define => (true, fs.define i x v)
  | .set => (true, fs.set i x v)
  | .assign => ((fs.assign? i x v).isSome, (fs.assign? i x v).getD fs)
  | .assignOuter => ((fs.assignOuter? i x v).isSome, (fs.assignOuter? i x v).getD fs)

/-- The frames in which a write from the frame `i` looks for the name. -/
def searched (fs : Frames) (i : FrameId) : Write → List FrameId
  | .define => []
  | .set | .assign => fs.chain i
  | .assignOuter => fs.outer i

/-- The read that goes with a write. -/
def reread (fs : Frames) (i : FrameId) (x : String) : Write → Option Value
  | .define => fs.getLocal? i x
  | .set | .assign => fs.get? i x
  | .assignOuter => fs.getOuter? i x

/-- A write of `x` from the frame `i` goes to the frame `j`. -/
inductive WritesTo (fs : Frames) (i : FrameId) (x : String) : Write → FrameId → Prop
  | here : WritesTo fs i x .define i
  | nearest {w : Write} {j : FrameId} : fs.BindsFirst x (fs.searched i w) j → WritesTo fs i x w j
  | fresh : fs.Unbound x (fs.chain i) → WritesTo fs i x .set i

/-- Frames that differ in what `j` binds `x` to, and in nothing else. -/
structure Rebinds (fs fs' : Frames) (j : FrameId) (x : String) (v : Value) : Prop where
  size : fs'.size = fs.size
  parent : ∀ l, fs'.parent? l = fs.parent? l
  getLocal : ∀ l y, fs'.getLocal? l y = if l = j ∧ y = x then some v else fs.getLocal? l y

theorem rebinds_define (h : j < fs.size) : fs.Rebinds (fs.define j x v) j x v where
  size := size_define fs j x v
  parent l := parent?_define fs j l x v
  getLocal l y := by
    rw [getLocal?_define]
    refine if_congr ⟨fun hc => ⟨hc.1.symm, hc.2.2.symm⟩, ?_⟩ rfl rfl
    rintro ⟨rfl, rfl⟩
    exact ⟨rfl, h, rfl⟩

/-- The two writes that need a binding differ in the frames that they search. -/
theorem write_of_needs {w : Write} (hneeds : w = .assign ∨ w = .assignOuter) : fs.write i x v w =
    ((fs.assignAlong (fs.searched i w) x v).isSome, (fs.assignAlong (fs.searched i w) x v).getD fs) := by
  rcases hneeds with rfl | rfl
  · rfl
  · rfl

/-- Only a write that needs a binding can be refused. -/
theorem write_cases (h : i < fs.size) (w : Write) :
    (∃ j, fs.WritesTo i x w j ∧ j < fs.size ∧ fs.write i x v w = (true, fs.define j x v)) ∨
      (w = .assign ∨ w = .assignOuter) ∧ fs.Unbound x (fs.searched i w) ∧ fs.write i x v w = (false, fs) := by
  have found (w : Write) {j : FrameId} (hj : fs.nearest? x (fs.searched i w) = some j) :
      fs.WritesTo i x w j ∧ j < fs.size :=
    ⟨.nearest (nearest?_eq_some_iff.1 hj), lt_size_of_isSome_getLocal? (isSome_of_nearest? hj)⟩
  have needing (w : Write) (hneeds : w = .assign ∨ w = .assignOuter) :
      (∃ j, fs.WritesTo i x w j ∧ j < fs.size ∧ fs.write i x v w = (true, fs.define j x v)) ∨
        (w = .assign ∨ w = .assignOuter) ∧ fs.Unbound x (fs.searched i w) ∧ fs.write i x v w = (false, fs) := by
    rw [write_of_needs hneeds]
    cases hj : fs.nearest? x (fs.searched i w) with
    | none => exact .inr ⟨hneeds, nearest?_eq_none_iff.1 hj, by simp [assignAlong, hj]⟩
    | some j => exact .inl ⟨j, (found w hj).1, (found w hj).2, by simp [assignAlong, hj]⟩
  cases w with
  | define => exact .inl ⟨i, .here, h, rfl⟩
  | set =>
    left
    cases hj : fs.nearest? x (fs.chain i) with
    | none => exact ⟨i, .fresh (nearest?_eq_none_iff.1 hj), h, by simp [write, set, hj]⟩
    | some j => exact ⟨j, (found .set hj).1, (found .set hj).2, by simp [write, set, hj]⟩
  | assign => exact needing .assign (.inl rfl)
  | assignOuter => exact needing .assignOuter (.inr rfl)

/-- What was written is read. -/
theorem WritesTo.reread {w : Write} (hw : fs.WritesTo i x w j) (h : j < fs.size) :
    (fs.define j x v).reread i x w = some v := by
  cases hw with
  | here => exact getLocal?_define_self h
  | fresh _ => exact get?_define_self h
  | nearest hj =>
    have hfound := findSome?_define_nearest (v := v) (nearest?_eq_some_iff.2 hj)
    cases w with
    | define =>
      obtain ⟨before, behind, hnil, -⟩ := hj
      simp [searched] at hnil
    | set | assign =>
      rw [Frames.reread, get?, chain_define]
      exact hfound
    | assignOuter =>
      rw [Frames.reread, getOuter?, outer_define]
      exact hfound

/-- A write that needs a binding goes to one. -/
theorem WritesTo.not_unbound {w : Write} (hw : fs.WritesTo i x w j) (hneeds : w = .assign ∨ w = .assignOuter) :
    ¬fs.Unbound x (fs.searched i w) := by
  cases hw with
  | here => simp at hneeds
  | fresh _ => simp at hneeds
  | nearest hj =>
    obtain ⟨before, behind, his, hbound, -⟩ := hj
    intro hun
    simp [hun j (by simp [his])] at hbound

/-- Where the frame of a write is the first that binds the name, the new value is found, and elsewhere what was found
before. -/
theorem get?_define (h : j < fs.size) (g : FrameId) :
    ((fs.define j x v).BindsFirst x ((fs.define j x v).chain g) j → (fs.define j x v).get? g x = some v) ∧
      (¬(fs.define j x v).BindsFirst x ((fs.define j x v).chain g) j →
        (fs.define j x v).get? g x = fs.get? g x) := by
  rw [← nearest?_eq_some_iff, get?, findSome?_define h, get?, chain_define]
  exact ⟨fun hfirst => if_pos hfirst, fun hother => if_neg hother⟩

/-! ## Frames that are built -/

/-- Frames that were made inside none or inside others, with names that were written from them. -/
inductive Built : Frames → Prop
  | empty : Built .empty
  | root {fs : Frames} : Built fs → Built (fs.push none)
  | child {fs : Frames} {i : FrameId} : i < fs.size → Built fs → Built (fs.push (some i))
  | write (w : Write) {fs : Frames} {i : FrameId} (x : String) (v : Value) : i < fs.size → Built fs →
    Built (fs.write i x v w).2

theorem Built.descends (h : fs.Built) : fs.Descends := by
  induction h with
  | empty =>
    intro i p hp
    simp [parent?, Frames.empty] at hp
  | root _ ih =>
    intro i p hp
    rw [parent?_push] at hp
    split at hp
    · contradiction
    · exact ih i p hp
  | child hlt _ ih =>
    intro i p hp
    rw [parent?_push] at hp
    split at hp
    · next hi =>
      obtain rfl := Option.some.inj hp
      exact hi ▸ hlt
    · exact ih i p hp
  | write w x v hlt _ ih =>
    rcases write_cases hlt w with ⟨j, -, -, hw⟩ | ⟨-, -, hw⟩ <;> rw [hw]
    · intro i p hp
      rw [parent?_define] at hp
      exact ih i p hp
    · exact ih

/-- The links of frames do not lead back, and the chain of a frame is the whole way outwards. A write is refused exactly
if it needs a binding and none of the frames that it searches has one, and then it changes nothing. Otherwise it binds
one name in one frame, the nearest one that it finds or the one that it is made from, and what was written is read from
there. From any frame, the new value is found if the frame of the write is the first on its chain that binds the name
now; if not, what is found is as before, and so is all that is found under other names. -/
theorem write_observed (h : fs.Built) :
    (∀ i, ¬Relation.TransGen (fun i p => fs.parent? i = some p) i i) ∧
      (∀ i is, fs.Walk i is ↔ is = fs.chain i) ∧
      ∀ i x v w, i < fs.size →
        (fs.write i x v w = (false, fs) ↔ (w = .assign ∨ w = .assignOuter) ∧ fs.Unbound x (fs.searched i w)) ∧
        (fs.write i x v w ≠ (false, fs) → ∃ j fs', fs.write i x v w = (true, fs') ∧
          fs.WritesTo i x w j ∧ fs.Rebinds fs' j x v ∧ fs'.reread i x w = some v ∧
            ∀ g, (fs'.BindsFirst x (fs'.chain g) j → fs'.get? g x = some v) ∧
              (¬fs'.BindsFirst x (fs'.chain g) j → fs'.get? g x = fs.get? g x) ∧
              ∀ y, y ≠ x → fs'.get? g y = fs.get? g y ∧ fs'.getLocal? g y = fs.getLocal? g y ∧
                fs'.getOuter? g y = fs.getOuter? g y) := by
  refine ⟨h.descends.acyclic, fun i is => walk_iff h.descends, fun i x v w hi => ?_⟩
  rcases write_cases hi w (x := x) (v := v) with ⟨j, hto, hj, hw⟩ | ⟨hneeds, hunbound, hw⟩
  · refine ⟨⟨fun hf => ?_, fun hn => absurd hn.2 (hto.not_unbound hn.1)⟩,
      fun _ => ⟨j, _, hw, hto, rebinds_define hj, hto.reread hj, fun g => ?_⟩⟩
    · cases hw.symm.trans hf
    · obtain ⟨hfirst, hother⟩ := get?_define (x := x) (v := v) hj g
      refine ⟨hfirst, hother, fun y hy => ?_⟩
      exact ⟨get?_define_of_ne hy.symm, getLocal?_define_of_ne hy.symm, getOuter?_define_of_ne hy.symm⟩
  · exact ⟨⟨fun _ => ⟨hneeds, hunbound⟩, fun _ => hw⟩, fun hne => absurd hw hne⟩

/-- A frame and its child bind the same name, and the write from inside the child is seen from there and not from the
other child. Around the outermost frame there is nothing to write to. -/
theorem write_observed_shadowed :
    let fs := (((((empty.push none).define 0 "x" (.str "a")).push (some 0)).define 1 "x" (.str "b")).push
      (some 1)).push (some 0)
    fs.Built ∧ fs.write 0 "x" (.str "c") .assignOuter = (false, fs) ∧
      ∃ fs', fs.write 2 "x" (.str "c") .assign = (true, fs') ∧ fs.Rebinds fs' 1 "x" (.str "c") ∧
        fs'.get? 2 "x" = some (.str "c") ∧ fs'.get? 3 "x" = some (.str "a") := by
  intro fs
  have hbuilt : fs.Built :=
    .child (by decide) (.child (by decide) (.write .define "x" _ (by decide) (.child (by decide)
      (.write .define "x" _ (by decide) (.root .empty)))))
  obtain ⟨-, -, hwrite⟩ := write_observed hbuilt
  obtain ⟨hrefused, -⟩ := hwrite 0 "x" (.str "c") .assignOuter (by decide)
  obtain ⟨-, hdone⟩ := hwrite 2 "x" (.str "c") .assign (by decide)
  have hgoes : fs.write 2 "x" (.str "c") .assign ≠ (false, fs) := fun hf => by cases congrArg Prod.fst hf
  obtain ⟨j, fs', hw, -, hrebinds, hread, hsees⟩ := hdone hgoes
  obtain rfl : fs' = fs.define 1 "x" (.str "c") := (congrArg Prod.snd hw).symm
  obtain rfl : j = 1 := by
    refine Decidable.byContradiction fun hj => ?_
    have hlocal := hrebinds.getLocal 1 "x"
    rw [if_neg fun hc => hj hc.1.symm] at hlocal
    have hsame : some (Value.str "c") = some (.str "b") := hlocal
    simp at hsame
  refine ⟨hbuilt, hrefused.2 ⟨.inr rfl, fun l hl => absurd hl List.not_mem_nil⟩, _, hw, hrebinds, hread, ?_⟩
  refine ((hsees 3).2.1 fun hfirst => ?_).trans rfl
  obtain ⟨before, behind, hchain, -⟩ := hfirst
  have hmem : 1 ∈ [3, 0] := by
    have : [3, 0] = before ++ 1 :: behind := hchain
    simp [this]
  contradiction

end Frames

end DocScript
