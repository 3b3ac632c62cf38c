import DocScript.Proofs.Run.Restoration
import DocScript.Proofs.Run.Tidy

/-!
# Machines while code runs

A machine is live if it is one of a `Session`, or the machine at some moment of a run that was started in a session. What
holds of all live machines is shown with disciplines : that they are tidy (`Machine.Live.tidy`), and that the frame of the
code that runs is there (`Machine.Live.env_lt`).
-/

namespace DocScript

variable {σ : Type}

/-! ## The frame of the code that runs -/

namespace Discipline

variable {β : Type} {P : Machine σ → Prop}

/-- The property stays as machines grow in one control state. -/
def Lasting (P : Machine σ → Prop) : Prop := ∀ m m', P m → m.Grows m' → m'.control = m.control → P m'

theorem keeps_ofMachine (hP : Lasting P) {x : Eval σ β} {Q : β → Prop} (hs : Steady x) (hg : Growing x)
    (hQ : ∀ b, Q b) : (ofMachine P).Keeps x Q := by
  intro m hm
  have hlast : P (stateAfter x m) := hP m _ hm (hg m) (hs m).stateAfter
  unfold After
  cases hx : x m with
  | ok b m' => exact ⟨stateAfter_of_ok hx ▸ hlast, hQ b⟩
  | error e m' => exact ⟨stateAfter_of_error hx ▸ hlast, by cases e <;> trivial⟩

theorem keeps_ofMachine_of_updating (hP : Lasting P) {x : Eval σ β} {Q : β → Prop} (hs : Steady x) (hu : Updating x)
    (hQ : ∀ b, Q b) : (ofMachine P).Keeps x Q :=
  keeps_ofMachine hP hs (fun m => (hu m).toGrows) hQ

theorem lawful_ofMachine (hP : Lasting P) (host : Host σ) : (ofMachine P).Lawful host where
  none := trivial
  bool _ := trivial
  num _ := trivial
  str _ := trivial
  func _ := Block.obeys_free _
  method _ := ⟨trivial, trivial⟩
  lookup v := keeps_ofMachine_of_updating hP (.lookup v) (.lookup v) fun _ => trivial
  assign _ _ := keeps_ofMachine_of_updating hP (.assign _ _) (.assign _ _) fun _ => trivial
  bind _ _ := keeps_ofMachine_of_updating hP (.bindVariable _ _) (.bindVariable _ _) fun _ => trivial
  newFunction _ _ := keeps_ofMachine_of_updating hP (.newFunction _) (.newFunction _) fun _ => trivial
  newDoc _ _ := keeps_ofMachine hP (.newDoc _) (Machine.grows_newDoc _) fun _ => trivial
  newList _ := keeps_ofMachine hP (.newList _) (fun m => Machine.grows_newDoc _ m) fun _ => trivial
  index _ _ := keeps_ofMachine_of_updating hP (.index _ _ _) (.index _ _ _) fun _ => trivial
  arrow _ _ := keeps_ofMachine_of_updating hP (.arrow _ _ _) (.arrow _ _ _) fun _ => trivial
  setIndex _ _ _ := keeps_ofMachine_of_updating hP (.setIndex _ _ _ _) (.setIndex _ _ _ _) fun _ => trivial
  pairs _ := keeps_ofMachine_of_updating hP (.pairs _) (.pairs _) fun _ _ _ => ⟨trivial, trivial⟩
  println _ := keeps_ofMachine_of_updating hP (.println _) (.println _) fun _ => trivial
  len _ := keeps_ofMachine_of_updating hP (.len _) (.len _) fun _ => trivial
  push _ := keeps_ofMachine_of_updating hP (.push _) (.push _) fun _ => trivial
  native _ _ := handles_true _

/-- The frame of the code that runs is there. -/
def framed : Discipline σ := ofMachine fun m => m.env < m.heap.frames.size

theorem lawful_framed (host : Host σ) : framed.Lawful host := by
  refine lawful_ofMachine (fun m m' hm hg hc => ?_) host
  have henv : m'.env = m.env := congrArg Control.env hc
  exact henv ▸ Nat.lt_of_lt_of_le hm hg.frames.size_le

theorem portable_framed : (framed : Discipline σ).Portable where
  enter {m f args} _ _ _ := by
    have grown := (Frames.grows_bindParams m.heap.frames.size f.params (m.heap.frames.push (some f.env)) args).size_le
    rw [Frames.size_push] at grown
    exact grown
  leave {m m' f args} hm hm' hc := by
    have henv : m'.env = m.heap.frames.size := congrArg Control.env hc
    have hm' : m'.env < m'.heap.frames.size := hm'
    exact Nat.lt_trans hm (henv ▸ hm')

end Discipline

/-- In a session, the frame of the machine is there. -/
theorem Session.env_lt {host : Host σ} {m : Machine σ} (h : Session host m) : m.env < m.heap.frames.size := by
  induction h with
  | @build heap c _ =>
    change heap.frames.size < (heap.frames.push none).size
    rw [Frames.size_push]
    exact Nat.lt_succ_self _
  | @interpret n text m hm _ =>
    -- a script ends in the frame of the module
    have hcontrol := control_interpret host n text m
    have henv := (congrArg Control.env hcontrol).trans (congrArg Control.root hcontrol).symm
    exact Nat.lt_of_le_of_lt (Nat.le_of_eq henv) (Session.interpret n text hm).tidy.root_lt
  | call n callee args _ ih =>
    have hkeeps := Discipline.callsKeep_of_under fun c =>
      Discipline.callWithin_keeps (Discipline.lawful_framed host) Discipline.portable_framed trivial n c
    exact After.stateAfter ((hkeeps callee args trivial (fun _ _ => trivial) _ ih).mono (fun _ _ h => h.1)
      fun _ _ h => h.1)
  | newList items _ ih => exact ((Discipline.lawful_framed host).newList (fun _ _ => trivial) _ ih).1
  | supply _ hf _ ih => exact Nat.lt_of_lt_of_le ih hf.size_le

namespace Machine

/-- A machine of a session, or one at some moment of a run that was started in a frame of the session. -/
inductive Live (host : Host σ) : Machine σ → Prop
  | idle {m : Machine σ} : Session host m → Live host m
  | running {m : Machine σ} {x y : Moment σ} : Session host m → x.machine.heap = m.heap → x.machine.root = m.root →
    x.machine.env < m.heap.frames.size → x.Reaches host y → Live host y.machine

variable {host : Host σ} {m : Machine σ}

theorem Live.tidy (h : m.Live host) : m.Tidy := by
  cases h with
  | idle hm => exact hm.tidy
  | @running m x y hm hheap hroot _ hy =>
    have hx : x.machine.Tidy := by
      refine hm.tidy.of_grows hroot (hheap ▸ .refl _) fun id d hd => hm.tidy.docs id d ?_
      rw [doc?, hheap] at hd
      exact hd
    have hok : x.Ok .tidy := ⟨hx, Task.ok_ofMachine Tidy x.task⟩
    exact (Moment.ok_of_reaches (Discipline.lawful_tidy host) Discipline.portable_tidy trivial hok hy).1

theorem Live.env_lt (h : m.Live host) : m.env < m.heap.frames.size := by
  cases h with
  | idle hm => exact hm.env_lt
  | @running m x y _ hheap _ henv hy =>
    have hx : x.machine.env < x.machine.heap.frames.size := hheap ▸ henv
    have hok : x.Ok .framed := ⟨hx, Task.ok_ofMachine _ x.task⟩
    exact (Moment.ok_of_reaches (Discipline.lawful_framed host) Discipline.portable_framed trivial hok hy).1

end Machine

end DocScript
