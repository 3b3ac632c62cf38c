import DocScript.Machine.Eval
import DocScript.Proofs.Outcome
import DocScript.Proofs.Placement

/-!
# How statements exit

`break` and `continue` are for the loop around them and `return` for the function around it. A loop
takes the first two, and a call the third, so a statement that is well placed exits only in ways that
something around it takes (`Calls.exec_exits`). This does not depend on what calls do : an exit never
crosses the call of a function, where only exceptions do.
-/

namespace DocScript

variable {σ β : Type}

/-- What surrounds the place takes this exit, if anything has to. -/
def Place.Takes (c : Place) : Exit → Prop
  | .break_ | .continue_ => c.inLoop
  | .ret _ => c.inFunction
  | .fault _ => True

/-- `x` exits in no other way than the place allows. -/
def ExitsAt (c : Place) (x : Exec σ β) : Prop := ∀ m, After x m (fun _ _ => True) fun e _ => c.Takes e

namespace ExitsAt

variable {c : Place}

theorem pure (b : β) : ExitsAt c (Pure.pure b : Exec σ β) := fun _ => trivial

theorem throw {e : Exit} (h : c.Takes e) : ExitsAt c (throw e : Exec σ β) := fun _ => h

theorem lift (x : Eval σ β) : ExitsAt c (Exec.lift x) := by
  intro m
  unfold After
  cases hr : x m <;> simp only [Exec.lift, hr]
  exact trivial

theorem bind {γ : Type} {x : Exec σ γ} {f : γ → Exec σ β} (hx : ExitsAt c x)
    (hf : ∀ b, ExitsAt c (f b)) : ExitsAt c (x >>= f) := fun m =>
  (hx m).bind fun b m' _ => hf b m'

/-- A loop takes `break` and `continue`. -/
theorem round {x : Exec σ Unit} (hx : ExitsAt c.loop x) : ExitsAt c (Exec.round x) := by
  intro m
  have h := hx m
  unfold After at h ⊢
  rcases hr : x m with _ | e <;> rw [hr] at h
  · simp only [Exec.round, hr]
  · cases e with
    | break_ | continue_ => simp only [Exec.round, hr]
    | ret _ | fault _ =>
      simp only [Exec.round, hr]
      exact h

theorem whileLoop {cond : Eval σ Value} {body : Exec σ Unit} (hb : ExitsAt c.loop body) :
    ∀ n, ExitsAt c (Exec.whileLoop cond body n) := by
  intro n
  induction n with
  | zero => exact .throw trivial
  | succ n ih =>
    refine (lift cond).bind fun v => ?_
    split
    · refine hb.round.bind fun goOn => ?_
      split
      · exact ih
      · exact .pure _
    · exact .pure _

theorem forLoop {vars : List Variable} {body : Exec σ Unit} (hb : ExitsAt c.loop body) :
    ∀ items, ExitsAt c (Exec.forLoop vars body items)
  | [] => .pure _
  | (_, _) :: items => by
    refine (lift _).bind fun _ => hb.round.bind fun goOn => ?_
    split
    · exact forLoop hb items
    · exact .pure _

theorem handling {body : Exec σ Unit} {handler : Value → Exec σ Unit} (hb : ExitsAt c body)
    (hh : ∀ p, ExitsAt c (handler p)) : ExitsAt c (Exec.handling body handler) := by
  intro m
  have h := hb m
  unfold After at h
  rcases hr : body m with _ | e <;> rw [hr] at h
  · simp only [After, Exec.handling, hr]
  · rcases e with _ | _ | _ | (payload | _)
    case fault.raised => simpa only [After, Exec.handling, hr] using hh payload _
    all_goals simpa only [After, Exec.handling, hr] using h

theorem cleaning {body cleanup : Exec σ Unit} (hb : ExitsAt c body) (hc : ExitsAt c cleanup) :
    ExitsAt c (Exec.cleaning body cleanup) := by
  intro m
  have h := hb m
  unfold After at h
  rcases hr : body m with ⟨_, m'⟩ | ⟨e, m'⟩ <;> rw [hr] at h
  · simpa only [After, Exec.cleaning, hr] using hc m'
  · have h' := hc m'
    unfold After at h' ⊢
    rcases e with _ | _ | _ | (_ | _)
    case fault.outOfFuel =>
      simp only [Exec.cleaning, hr]
      exact h
    all_goals
      rcases hr' : cleanup m' with _ | _ <;> rw [hr'] at h' <;> simp only [Exec.cleaning, hr, hr']
      · exact h
      · exact h'

end ExitsAt

namespace Calls

variable (k : Calls σ)

mutual

/-- A well-placed statement exits only in ways that its place allows. -/
theorem exec_exits : ∀ {c : Place} (s : Stmt Unit), s.Placed c → ExitsAt c (k.exec s)
  | _, .expr _ _, _ => (ExitsAt.lift _).bind fun _ => .pure _
  | _, .assign _ _ _, _ => (ExitsAt.lift _).bind fun _ => .lift _
  | _, .define _ _ _ _, _ => (ExitsAt.lift _).bind fun _ => .lift _
  | _, .ifElse _ _ y n, ⟨_, hy, hn⟩ => by
    rw [Calls.exec]
    refine (ExitsAt.lift _).bind fun v => ?_
    split
    · exact execBlock_exits y hy
    · exact execBlock_exits n hn
  -- the body of a loop is in a place of its own, and the loop takes what it may do there
  | _, .whileLoop _ _ b, ⟨_, hb⟩ => (execBlock_exits b hb).whileLoop _
  | _, .forLoop _ _ _ b, ⟨_, _, hb⟩ => by
    rw [Calls.exec]
    refine (ExitsAt.lift _).bind fun iterable => ?_
    refine (ExitsAt.lift _).bind fun items => ?_
    exact (execBlock_exits b hb).forLoop items
  | _, .attempt _ b handler cleanup, ⟨_, hb, hh, hc⟩ => by
    have handled := execHandler_exits (execBlock_exits b hb) handler hh
    exact execCleanup_exits handled cleanup hc
  | _, .raise _ _, _ => (ExitsAt.lift _).bind fun _ => .lift _
  | _, .ret _ _, ⟨hf, _⟩ => (ExitsAt.lift _).bind fun _ => .throw hf
  | _, .break_ _, h => .throw h
  | _, .continue_ _, h => .throw h
  | _, .declare _ _ _, _ | _, .bad _ _, _ => .pure _

theorem execStmts_exits : ∀ {c : Place} (ss : List (Stmt Unit)), StmtsPlaced c ss →
    ExitsAt c (k.execStmts ss)
  | _, [], _ => .pure _
  | _, s :: ss, ⟨hs, hss⟩ => (exec_exits s hs).bind fun _ => execStmts_exits ss hss

theorem execBlock_exits : ∀ {c : Place} (b : Block Unit), b.Placed c → ExitsAt c (k.execBlock b)
  | _, ⟨_, ss⟩, h => execStmts_exits ss h

theorem execHandler_exits : ∀ {c : Place} {body : Exec σ Unit}, ExitsAt c body →
    ∀ h : Option (Handler Unit), HandlerPlaced c h → ExitsAt c (k.execHandler body h)
  | _, _, hb, none, _ => hb
  | _, _, hb, some ⟨none, b⟩, h => hb.handling fun _ => execBlock_exits b h
  | _, _, hb, some ⟨some _, b⟩, h =>
    hb.handling fun _ => (ExitsAt.lift _).bind fun _ => execBlock_exits b h

theorem execCleanup_exits : ∀ {c : Place} {body : Exec σ Unit}, ExitsAt c body →
    ∀ b : Option (Block Unit), CleanupPlaced c b → ExitsAt c (k.execCleanup body b)
  | _, _, hb, none, _ => hb
  | _, _, hb, some b, h => hb.cleaning (execBlock_exits b h)

end

end Calls

end DocScript
