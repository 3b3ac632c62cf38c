import DocScript.Grammar.Stmt
import DocScript.Proofs.Outcome

/-!
# What the basic readers do

One equation for each reader that the grammar is built from : what holds after it, in terms of the
parser that it was run from. Proofs about the grammar use these and do not open the readers again.
-/

namespace DocScript

namespace Parse

variable {β : Type} {p : Parser} {Q : β → Parser → Prop} {E : Failure → Parser → Prop}

@[simp] theorem after_outOfFuel : After (outOfFuel : Parse β) p Q E ↔ E .outOfFuel p :=
  Iff.rfl

@[simp] theorem after_rejectAt (t : Token) (problem : Problem) :
    After (rejectAt t problem : Parse β) p Q E ↔ E .rejected (p.complain t problem) :=
  Iff.rfl

@[simp] theorem after_reject (problem : Problem) :
    After (reject problem : Parse β) p Q E ↔ E .rejected (p.complain p.current problem) :=
  Iff.rfl

@[simp] theorem after_rejectPrevious (problem : Problem) :
    After (rejectPrevious problem : Parse β) p Q E ↔
      E .rejected (p.complain p.previous problem) :=
  Iff.rfl

@[simp] theorem after_peek {Q : Token → Parser → Prop} : After peek p Q E ↔ Q p.current p :=
  Iff.rfl

@[simp] theorem after_peekKind {Q : TokenKind → Parser → Prop} :
    After peekKind p Q E ↔ Q p.current.kind p :=
  Iff.rfl

@[simp] theorem after_previous {Q : Token → Parser → Prop} :
    After previous p Q E ↔ Q p.previous p :=
  Iff.rfl

@[simp] theorem after_advance {Q : Token → Parser → Prop} :
    After advance p Q E ↔ Q p.current p.advance :=
  Iff.rfl

@[simp] theorem after_at? (kind : TokenKind) {Q : Bool → Parser → Prop} :
    After (at? kind) p Q E ↔ Q (p.current.kind = kind) p :=
  Iff.rfl

@[simp] theorem after_atEnd {Q : Bool → Parser → Prop} : After atEnd p Q E ↔ Q p.atEnd p :=
  Iff.rfl

@[simp] theorem after_body {Q : Body → Parser → Prop} : After body p Q E ↔ Q p.body p :=
  Iff.rfl

@[simp] theorem after_resolve (name : String) {Q : Variable → Parser → Prop} :
    After (resolve name) p Q E ↔
      Q ⟨name, p.body.scopeOf name⟩ { p with body := p.body.refer name } :=
  Iff.rfl

/-- A token that may stand here or not is taken if it does. -/
theorem after_eat (kind : TokenKind) {Q : Bool → Parser → Prop} :
    After (eat kind) p Q E ↔
      (p.current.kind = kind → Q true p.advance) ∧ (p.current.kind ≠ kind → Q false p) := by
  unfold After eat
  by_cases h : p.current.kind = kind <;> simp [h]

/-- A token that has to stand here is taken, or its absence is a problem. -/
theorem after_expect (kind : TokenKind) {Q : Token → Parser → Prop} :
    After (expect kind) p Q E ↔
      (p.current.kind = kind → Q p.current p.advance) ∧
        (p.current.kind ≠ kind → E .rejected (p.complain p.current (.expected kind))) := by
  unfold After expect
  by_cases h : p.current.kind = kind
  · simp [h]
  · simp [h, reject, rejectAt]

theorem after_identifier {Q : String × Span → Parser → Prop} :
    After identifier p Q E ↔
      (∀ name, p.current.kind = .identifier name → Q (name, p.current.span) p.advance) ∧
        ((∀ name, p.current.kind ≠ .identifier name) →
          E .rejected (p.complain p.current .expectedIdentifier)) := by
  unfold After identifier
  cases h : p.current.kind <;> simp [reject, rejectAt]

theorem after_lineEnd {Q : Unit → Parser → Prop} :
    After lineEnd p Q E ↔
      (p.current.kind = .newline → Q () p.advance) ∧
        (p.current.kind ≠ .newline → p.atEnd = true → Q () p) ∧
        (p.current.kind ≠ .newline → p.atEnd = false →
          E .rejected (p.complain p.current .expectedLineEnd)) := by
  unfold After lineEnd
  by_cases h : p.current.kind = .newline
  · simp [h]
  · cases he : p.atEnd <;> simp [h, reject, rejectAt]

theorem after_declare (name : String) (scope : Scope) (t : Token) {Q : Unit → Parser → Prop} :
    After (declare name scope t) p Q E ↔
      (p.body.objection? name scope = none →
        Q () { p with body := p.body.declare name scope }) ∧
        ∀ problem, p.body.objection? name scope = some problem →
          E .rejected (p.complain t problem) := by
  unfold After declare
  cases h : p.body.objection? name scope <;> simp [rejectAt]

/-- Reading inside a function ends in the function around it, whatever comes of it. -/
theorem after_inFunction (params : List String) (x : Parse β) :
    After (inFunction params x) p Q E ↔
      After x (p.enterFunction params) (fun b q => Q b q.leaveFunction)
        (fun e q => E e q.leaveFunction) := by
  unfold After inFunction
  cases x (p.enterFunction params) <;> rfl

/-- Reading inside a loop ends outside of it, whatever comes of it. -/
theorem after_inLoop (x : Parse β) :
    After (inLoop x) p Q E ↔
      After x p.enterLoop (fun b q => Q b q.leaveLoop) (fun e q => E e q.leaveLoop) := by
  unfold After inLoop
  cases x p.enterLoop <;> rfl

/-- Behind a rejected statement reading goes on with a `bad` one in its place. -/
theorem after_recovering (x : Parse (Option (Stmt Span)))
    {Q : Option (Stmt Span) → Parser → Prop} :
    After (recovering x) p Q E ↔
      After x p Q fun e q =>
        match e with
        | .rejected => Q (some (.bad p.current.span (p.complaintSince q))) (p.recover q)
        | .outOfFuel => E .outOfFuel q := by
  unfold After recovering
  cases h : x p with
  | ok s q => simp
  | error e q => cases e <;> simp

end Parse

end DocScript
