import DocScript.Grammar.Expr

/-!
# More fuel for readers

The bound on the recursion decides nothing but whether reading comes to its end : with a larger one, a reader of
expressions that was not out of fuel does the same as before. `Parse.Extends x y` says this of two readers. It is kept
by sequences and by functions, so it goes through the grammar of expressions.
-/

namespace DocScript

namespace Parse

variable {β γ : Type}

/-- `y` does the same as `x`, unless `x` is out of fuel. -/
def Extends (x y : Parse β) : Prop := ∀ p, (∃ q, x p = .error .outOfFuel q) ∨ y p = x p

namespace Extends

theorem refl (x : Parse β) : Extends x x := fun _ => .inr rfl

theorem outOfFuel (y : Parse β) : Extends Parse.outOfFuel y := fun p => .inl ⟨p, rfl⟩

theorem trans {x y z : Parse β} (h : Extends x y) (h' : Extends y z) : Extends x z := by
  intro p
  rcases h p with hx | hy
  · exact .inl hx
  · rcases h' p with ⟨q, hq⟩ | hz
    · exact .inl ⟨q, hy.symm.trans hq⟩
    · exact .inr (hz.trans hy)

theorem bind {x y : Parse β} {f g : β → Parse γ} (h : Extends x y) (hf : ∀ b, Extends (f b) (g b)) :
    Extends (x >>= f) (y >>= g) := by
  intro p
  rcases h p with ⟨q, hx⟩ | hy
  · exact .inl ⟨q, by simp only [Bind.bind, EStateM.bind, hx]⟩
  · simp only [Bind.bind, EStateM.bind, hy]
    rcases x p with ⟨b, q⟩ | ⟨e, q⟩
    · exact hf b q
    · exact .inr rfl

/-- The same step first, and then readers that may differ. -/
theorem after (x : Parse β) {f g : β → Parse γ} (hf : ∀ b, Extends (f b) (g b)) : Extends (x >>= f) (x >>= g) :=
  (refl x).bind hf

/-- What is done with the result is the same. -/
theorem andThen {x y : Parse β} (h : Extends x y) (f : β → Parse γ) : Extends (x >>= f) (y >>= f) :=
  h.bind fun b => refl (f b)

theorem inFunction {x y : Parse β} (params : List String) (h : Extends x y) :
    Extends (Parse.inFunction params x) (Parse.inFunction params y) := by
  intro p
  rcases h (p.enterFunction params) with ⟨q, hx⟩ | hy
  · exact .inl ⟨q.leaveFunction, by simp only [Parse.inFunction, hx]⟩
  · exact .inr (by simp only [Parse.inFunction, hy])

end Extends

variable (m : Nat)

theorem params_extends (close : TokenKind) (n : Nat) : Extends (params close n) (params close (m + n)) := by
  induction n with
  | zero => exact .outOfFuel _
  | succ n ih =>
    rw [← Nat.add_assoc, params, params]
    refine .after _ fun b => ?_
    split
    · exact .refl _
    · refine .after _ fun x => .after _ fun comma => ?_
      split
      · exact ih.andThen _
      · exact .refl _

mutual

theorem expression_extends (n : Nat) : Extends (expression n) (expression (m + n)) := by
  cases n with
  | zero => exact .outOfFuel _
  | succ n => exact operation_extends n 0

theorem operation_extends (n min : Nat) : Extends (operation n min) (operation (m + n) min) := by
  cases n with
  | zero => exact .outOfFuel _
  | succ n =>
    rw [← Nat.add_assoc, operation, operation]
    exact (unary_extends n).bind fun left => operators_extends n min left

theorem operators_extends (n min : Nat) (left : Expr Span) :
    Extends (operators n min left) (operators (m + n) min left) := by
  cases n with
  | zero => exact .outOfFuel _
  | succ n =>
    rw [← Nat.add_assoc, operators, operators]
    refine .after _ fun k => ?_
    split
    · exact .refl _
    · split
      · exact .refl _
      · refine .after _ fun _ => (operation_extends n _).bind fun right => ?_
        exact operators_extends n min _

theorem unary_extends (n : Nat) : Extends (unary n) (unary (m + n)) := by
  cases n with
  | zero => exact .outOfFuel _
  | succ n =>
    rw [← Nat.add_assoc, unary, unary]
    refine .after _ fun t => ?_
    split
    · exact .after _ fun _ => (unary_extends n).andThen _
    · split
      · exact lambda_extends n
      · exact (primary_extends n).bind fun e => postfixes_extends n e

theorem lambda_extends (n : Nat) : Extends (lambda n) (lambda (m + n)) := by
  cases n with
  | zero => exact .outOfFuel _
  | succ n =>
    rw [← Nat.add_assoc, lambda, lambda]
    refine .after _ fun start => (params_extends m _ n).bind fun ps => .after _ fun _ => ?_
    exact ((expression_extends n).inFunction ps).andThen _

theorem postfixes_extends (n : Nat) (e : Expr Span) : Extends (postfixes n e) (postfixes (m + n) e) := by
  cases n with
  | zero => exact .outOfFuel _
  | succ n =>
    rw [← Nat.add_assoc, postfixes, postfixes]
    refine .after _ fun k => ?_
    split
    · refine .after _ fun _ => (commaList_extends _ n).bind fun args => .after _ fun close => ?_
      exact postfixes_extends n _
    · refine .after _ fun _ => (expression_extends n).bind fun key => .after _ fun close => ?_
      exact postfixes_extends n _
    · exact .after _ fun _ => .after _ fun key => postfixes_extends n _
    · refine .after _ fun _ => (arrowKey_extends n).bind fun key => .after _ fun last => ?_
      exact postfixes_extends n _
    · exact (dictBody_extends n).bind fun x => postfixes_extends n _
    · exact .refl _

theorem arrowKey_extends (n : Nat) : Extends (arrowKey n) (arrowKey (m + n)) := by
  cases n with
  | zero => exact .outOfFuel _
  | succ n =>
    rw [← Nat.add_assoc, arrowKey, arrowKey]
    refine .after _ fun bracket => ?_
    split
    · exact (expression_extends n).andThen _
    · exact .refl _

theorem primary_extends (n : Nat) : Extends (primary n) (primary (m + n)) := by
  cases n with
  | zero => exact .outOfFuel _
  | succ n =>
    rw [← Nat.add_assoc, primary, primary]
    refine .after _ fun t => ?_
    -- only what stands in brackets is read with fuel
    split
    case h_7 => exact .after _ fun _ => (expression_extends n).andThen _
    case h_8 => exact .after _ fun _ => (commaList_extends _ n).andThen _
    case h_9 => exact (dictBody_extends n).andThen _
    all_goals exact .refl _

theorem commaList_extends (close : TokenKind) (n : Nat) :
    Extends (commaList close n) (commaList close (m + n)) := by
  cases n with
  | zero => exact .outOfFuel _
  | succ n =>
    rw [← Nat.add_assoc, commaList, commaList]
    refine .after _ fun b => ?_
    split
    · exact .refl _
    · refine (expression_extends n).bind fun e => .after _ fun comma => ?_
      split
      · exact (commaList_extends close n).andThen _
      · exact .refl _

theorem dictBody_extends (n : Nat) : Extends (dictBody n) (dictBody (m + n)) := by
  cases n with
  | zero => exact .outOfFuel _
  | succ n =>
    rw [← Nat.add_assoc, dictBody, dictBody]
    exact .after _ fun _ => (dictEntries_extends n).andThen _

theorem dictEntries_extends (n : Nat) : Extends (dictEntries n) (dictEntries (m + n)) := by
  cases n with
  | zero => exact .outOfFuel _
  | succ n =>
    rw [← Nat.add_assoc, dictEntries, dictEntries]
    refine .after _ fun b => ?_
    split
    · exact .refl _
    · refine (dictKey_extends n).bind fun key => .after _ fun _ => ?_
      refine (expression_extends n).bind fun value => .after _ fun comma => ?_
      split
      · exact (dictEntries_extends n).andThen _
      · exact .refl _

theorem dictKey_extends (n : Nat) : Extends (dictKey n) (dictKey (m + n)) := by
  cases n with
  | zero => exact .outOfFuel _
  | succ n =>
    rw [← Nat.add_assoc, dictKey, dictKey]
    refine .after _ fun t => ?_
    split
    · refine .after _ fun _ => .after _ fun colon => ?_
      split
      · exact .refl _
      · refine .after _ fun v => (postfixes_extends n _).bind fun e => ?_
        exact operators_extends n 0 e
    · exact expression_extends n

end

end Parse

end DocScript
