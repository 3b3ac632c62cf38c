import DocScript.Proofs.Number.Equality
import DocScript.Proofs.Print.RoundTrip

/-!
# Expressions as scripts

The text of an expression is a script of its own, and is read as this expression (`Expr.parse_standalone`). It has to be
free of declarations : its variables are dynamic, and its lambdas are named like lambdas and return one expression.
Apart from that it must not be printed as the text of another expression, and its numbers must be finite and not
negative. A zero may have a sign, but its text has none. So it is read as the positive zero, which is equal to it;
`Expr.unsigned` makes all zeros positive.
-/

namespace DocScript

variable {α : Type}

/-! ## Zeros -/

namespace Number

/-- The number, without its sign if it is zero. -/
def unsigned (x : Float) : Float := if x == 0 then 0 else x

theorem unsigned_of_zero {x : Float} (h : x = 0 ∨ x = -0) : unsigned x = 0 := by
  rcases h with rfl | rfl <;> decide +kernel

/-- A zero is written without its sign. -/
theorem text_unsigned (x : Float) : text (unsigned x) = text x := by
  cases h : x == 0 with
  | false => rw [unsigned, h]; rfl
  | true =>
    have hx := eq_zero_of_beq h
    rw [unsigned_of_zero hx]
    rcases hx with rfl | rfl <;> decide +kernel

open Float.Model Float.Model.UnpackedFloat Rounding in
/-- A number that is finite and not negative is unsigned, or a zero. -/
theorem finite_of_nonneg {x : Float} (hf : Check.isFinite x = true) (h : 0 ≤ x) :
    (∃ m e, 0 < m ∧ Parts.ofFloat x = .finite false m e) ∨ x = 0 ∨ x = -0 := by
  unfold Check.isFinite at hf
  split at hf
  · next n m e hx =>
    rcases Nat.eq_zero_or_pos m with rfl | hm
    · exact .inr (Parts.eq_zero_of_finite hx)
    · obtain ⟨s, hc, rfl, rfl⟩ := Parts.exists_eq_pack hx hm
      cases s with
      | positive => exact .inl ⟨m, e, hm, hx⟩
      | negative =>
        -- zero is greater than a negative number
        have hle : UnpackedFloat.le (Float.Model.unpack (Float.toModel 0)) (Float.Model.unpack _) = true :=
          of_decide_eq_true h
        have hzero : Float.Model.unpack (Float.toModel 0) = .zero .positive := rfl
        rw [Parts.unpack_pack .negative hc, hzero] at hle
        simp [UnpackedFloat.le, UnpackedFloat.compare] at hle
  · contradiction

theorem unsigned_of_pos {x : Float} {m : Nat} {e : Int} (hx : Parts.ofFloat x = .finite false m e) (hm : 0 < m) :
    unsigned x = x := by
  rw [unsigned, Parts.beq_zero_of_finite hx hm]
  rfl

/-- Without the sign of a zero, it is a number that the scanner reads. -/
theorem unsigned_of_nonneg {x : Float} (hf : Check.isFinite x = true) (h : 0 ≤ x) :
    Check.isUnsigned (unsigned x) = true ∧ Check.isFinite (unsigned x) = true := by
  rcases finite_of_nonneg hf h with ⟨m, e, hm, hx⟩ | hx
  · rw [unsigned_of_pos hx hm]
    exact ⟨by simp [Check.isUnsigned, hx], hf⟩
  · rw [unsigned_of_zero hx]
    rcases hx with rfl | rfl <;> decide +kernel

theorem unsigned_eq {x : Float} (h : Check.isUnsigned x = true) : unsigned x = x := by
  cases hx : x == 0 with
  | false => rw [unsigned, hx]; rfl
  | true =>
    rcases eq_zero_of_beq hx with rfl | rfl
    · decide +kernel
    · have hn : Check.isUnsigned (-0) = false := by decide +kernel
      rw [hn] at h
      contradiction

/-- Equality of numbers does not see the sign of a zero. -/
theorem unsigned_beq {x : Float} (hf : Check.isFinite x = true) (h : 0 ≤ x) : (unsigned x == x) = true := by
  rcases finite_of_nonneg hf h with ⟨m, e, hm, hx⟩ | hx
  · rw [unsigned_of_pos hx hm]
    exact Parts.beq_self_of_finite hx
  · rw [unsigned_of_zero hx]
    rcases hx with rfl | rfl <;> decide +kernel

end Number

mutual

/-- The expression with all its zeros unsigned. -/
def Expr.unsigned : Expr α → Expr α
  | .none a => .none a
  | .bool a b => .bool a b
  | .number a n => .number a (Number.unsigned n)
  | .str a s => .str a s
  | .var a v => .var a v
  | .binary a op l r => .binary a op l.unsigned r.unsigned
  | .unary a op e => .unary a op e.unsigned
  | .call a c as => .call a c.unsigned (unsignedExprs as)
  | .index a o k => .index a o.unsigned k.unsigned
  | .arrow a o k => .arrow a o.unsigned k.unsigned
  | .protoDict a p es => .protoDict a p.unsigned (unsignedEntries es)
  | .list a is => .list a (unsignedExprs is)
  | .dict a es => .dict a (unsignedEntries es)
  | .lambda a f => .lambda a f.unsigned

def unsignedExprs : List (Expr α) → List (Expr α)
  | [] => []
  | e :: es => e.unsigned :: unsignedExprs es

def unsignedEntries : List (Expr α × Expr α) → List (Expr α × Expr α)
  | [] => []
  | (k, v) :: es => (k.unsigned, v.unsigned) :: unsignedEntries es

/-- The function with the zeros unsigned in what it returns. -/
def Function.unsigned : Function α → Function α
  | ⟨n, ps, ⟨a, ss⟩⟩ => ⟨n, ps, ⟨a, unsignedResult ss⟩⟩

def unsignedResult : List (Stmt α) → List (Stmt α)
  | .ret a vs :: ss => .ret a (unsignedExprs vs) :: ss
  | ss => ss

end

/-! ## Expressions that can stand alone -/

/-- An expression can be read back by itself : its numbers are finite and not negative, its variables are dynamic and
have names, its lambdas are such as the grammar makes, and it is not printed as the text of another expression. -/
def Check.standalone : Check α where
  expr
    | .number _ n => isFinite n && (0 ≤ n)
    | .var _ v => Lexeme.isName v.name && v.scope = .dynamic
    | .lambda _ f => f.name == "lambda" && f.params.all Lexeme.isName && f.returnsOne
    | .call _ e _ | .index _ e _ | .arrow _ e _ => !e.isCompound
    | .protoDict _ e es => !e.isCompound && es.all (!isVar ·.1)
    | .dict _ es => es.all (!isVar ·.1)
    | _ => true
  stmt _ := true

/-- Where nothing is declared the code can be read back, and nothing is declared behind it. -/
def Plain (lexical clear : Bool) (placed : Prop) (ms : List (Mention α)) : Prop :=
  ∀ b : Body, b.declared = [] → ∃ b', Legible lexical clear placed ms b b' ∧ b'.declared = []

namespace Plain

variable {l l' c c' : Bool} {P P' : Prop} {ms ms' : List (Mention α)}

theorem leaf (hl : l = true) (hc : c = true) : Plain l c True ([] : List (Mention α)) :=
  fun b hb => ⟨b, ⟨hl, hc, trivial, rfl, by simp⟩, hb⟩

theorem join (h : Plain l c P ms) (h' : Plain l' c' P' ms') :
    Plain (l && l') (c && c') (P ∧ P') (ms ++ ms') := by
  intro b hb
  obtain ⟨b₁, h₁, hb₁⟩ := h b hb
  obtain ⟨b₂, h₂, hb₂⟩ := h' b₁ hb₁
  refine ⟨b₂, ⟨?_, ?_, ⟨h₁.placed, h₂.placed⟩, ?_, fun f hf => ?_⟩, hb₂⟩
  · rw [h₁.lexical, h₂.lexical, Bool.and_self]
  · rw [h₁.clear, h₂.clear, Bool.and_self]
  · rw [Body.follow?_append, h₁.follows]
    exact h₂.follows
  · exact (List.mem_append.1 hf).elim (h₁.stamped f) (h₂.stamped f)

theorem node (hl : l = true) (hc : c = true) (h : Plain l' c' P ms) : Plain (l && l') (c && c') P ms := by
  subst hl hc
  simpa using h

theorem occurrence {v : Variable} (hn : Lexeme.isName v.name = true) (hd : v.scope = .dynamic) :
    Plain (Lexeme.isName v.name) true True [(.occurrence v : Mention α)] := by
  intro b hb
  refine ⟨b.refer v.name, ⟨hn, rfl, trivial, ?_, by simp⟩, hb⟩
  simp [Body.follow?, Body.scopeOf, hb, hd]

end Plain

def Expr.Plain (e : Expr α) : Prop :=
  DocScript.Plain (e.passes .lexical) (e.passes .clear) e.Placed e.mentions

/-- A function can stand alone if what it returns can. -/
theorem Plain.lambda {a b c : α} {n : String} {ps : List String} {e : Expr α}
    (hn : (n == "lambda" && ps.all Lexeme.isName) = true) (h : e.Plain) :
    (Expr.lambda a ⟨n, ps, ⟨b, [.ret c [e]]⟩⟩).Plain := by
  obtain ⟨b', h', -⟩ := h (.function ps) rfl
  intro b hb
  refine ⟨b, ⟨?_, ?_, ⟨rfl, ?_⟩, rfl, ?_⟩, hb⟩
  · have hs : Check.lexical.stmt (.ret c [e]) = true := rfl
    exact Bool.and_eq_true_iff.2 ⟨hn, by simp [hs, h'.lexical]⟩
  · have hs : Check.clear.stmt (.ret c [e]) = true := rfl
    exact Bool.and_eq_true_iff.2 ⟨rfl, by simp [hs, h'.clear]⟩
  · simpa [Function.Placed, Block.Placed, StmtsPlaced, Stmt.Placed, ExprsPlaced, Place.function] using h'.placed
  · intro f hf
    obtain rfl : f = _ := by simpa using hf
    refine .intro ?_ fun g hg => h'.stamped g (by simpa using hg)
    simp [h'.follows]

theorem Expr.isCompound_unsigned (e : Expr α) : e.unsigned.isCompound = e.isCompound := by
  cases e <;> rfl

theorem Expr.not_isCompound_unsigned (e : Expr α) (h : (!e.isCompound) = true) : (!e.unsigned.isCompound) = true :=
  e.isCompound_unsigned.symm ▸ h

theorem Expr.isVar_unsigned (e : Expr α) : Check.isVar e.unsigned = Check.isVar e := by
  cases e <;> rfl

theorem not_isVar_unsigned {es : List (Expr α × Expr α)} (h : es.all (!Check.isVar ·.1) = true) :
    (unsignedEntries es).all (!Check.isVar ·.1) = true := by
  induction es with
  | nil => rfl
  | cons e es ih =>
    rw [List.all_cons, Bool.and_eq_true_iff] at h
    rw [unsignedEntries, List.all_cons, Expr.isVar_unsigned, h.1, ih h.2]
    rfl

theorem Function.exists_of_returnsOne {n : String} {ps : List String} {a : α} {ss : List (Stmt α)}
    (h : Function.returnsOne ⟨n, ps, ⟨a, ss⟩⟩ = true) : ∃ b e, ss = [.ret b [e]] := by
  unfold returnsOne at h
  split at h
  · next hss =>
    cases hss
    exact ⟨_, _, rfl⟩
  · contradiction

mutual

/-- The signs of zeros are not printed. -/
theorem Expr.print_unsigned : ∀ e : Expr α, e.unsigned.print = e.print
  | .none _ | .bool _ _ | .str _ _ | .var _ _ => rfl
  | .number _ n => Number.text_unsigned n
  | .binary _ op l r => by
    simp only [Expr.unsigned, Expr.print, Expr.parenthesize, Expr.isCompound_unsigned, l.print_unsigned,
      r.print_unsigned]
  | .unary _ op e => by
    simp only [Expr.unsigned, Expr.print, Expr.parenthesize, Expr.isCompound_unsigned, e.print_unsigned]
  | .call _ c as => by simp only [Expr.unsigned, Expr.print, c.print_unsigned, printExprs_unsigned as]
  | .index _ o k => by simp only [Expr.unsigned, Expr.print, o.print_unsigned, k.print_unsigned]
  | .arrow _ o k => by simp only [Expr.unsigned, Expr.print, o.print_unsigned, k.print_unsigned]
  | .protoDict _ p es => by simp only [Expr.unsigned, Expr.print, p.print_unsigned, printEntries_unsigned es]
  | .list _ is => by simp only [Expr.unsigned, Expr.print, printExprs_unsigned is]
  | .dict _ es => by simp only [Expr.unsigned, Expr.print, printEntries_unsigned es]
  | .lambda _ f => by simp only [Expr.unsigned, Expr.print, f.printLambda_unsigned]

theorem printExprs_unsigned : ∀ es : List (Expr α), printExprs (unsignedExprs es) = printExprs es
  | [] => rfl
  | e :: es => by simp only [unsignedExprs, printExprs, e.print_unsigned, printExprs_unsigned es]

theorem printEntries_unsigned : ∀ es : List (Expr α × Expr α),
    printEntries (unsignedEntries es) = printEntries es
  | [] => rfl
  | (k, v) :: es => by
    simp only [unsignedEntries, printEntries, k.print_unsigned, v.print_unsigned, printEntries_unsigned es]

theorem Function.printLambda_unsigned : ∀ f : Function α, f.unsigned.printLambda = f.printLambda
  | ⟨_, _, ⟨_, ss⟩⟩ => by simp only [Function.unsigned, Function.printLambda, printResult_unsigned ss]

theorem printResult_unsigned : ∀ ss : List (Stmt α), printResult (unsignedResult ss) = printResult ss
  | .ret _ vs :: ss => by simp only [unsignedResult, printResult, printExprs_unsigned vs]
  | [] | .expr .. :: _ | .assign .. :: _ | .define .. :: _ | .ifElse .. :: _ | .whileLoop .. :: _ | .forLoop .. :: _
  | .attempt .. :: _ | .raise .. :: _ | .break_ _ :: _ | .continue_ _ :: _ | .declare .. :: _ | .bad .. :: _ => rfl

end

mutual

/-- An expression that can stand alone is plain once its zeros are unsigned. -/
theorem Expr.plain_unsigned : ∀ {e : Expr α}, e.passes .standalone = true → e.unsigned.Plain
  | .none _, _ | .bool _ _, _ | .str _ _, _ => .leaf rfl rfl
  | .number _ n, h => by
    obtain ⟨hf, hn⟩ := Bool.and_eq_true_iff.1 h
    obtain ⟨hu, hf⟩ := Number.unsigned_of_nonneg hf (of_decide_eq_true hn)
    exact .leaf hu hf
  | .var _ v, h => by
    obtain ⟨hn, hd⟩ := Bool.and_eq_true_iff.1 h
    exact .occurrence hn (of_decide_eq_true hd)
  | .binary _ op l r, h => by
    obtain ⟨hl, hr⟩ := Bool.and_eq_true_iff.1 (Bool.and_eq_true_iff.1 h).2
    exact .node rfl rfl ((Expr.plain_unsigned hl).join (Expr.plain_unsigned hr))
  | .unary _ op e, h => .node rfl rfl (Expr.plain_unsigned (e := e) h)
  | .call _ c as, h => by
    obtain ⟨hn, h⟩ := Bool.and_eq_true_iff.1 h
    obtain ⟨hc, has⟩ := Bool.and_eq_true_iff.1 h
    exact .node rfl (c.not_isCompound_unsigned hn) ((Expr.plain_unsigned hc).join (plain_unsignedExprs has))
  | .index _ o k, h => by
    obtain ⟨hn, h⟩ := Bool.and_eq_true_iff.1 h
    obtain ⟨ho, hk⟩ := Bool.and_eq_true_iff.1 h
    exact .node rfl (o.not_isCompound_unsigned hn) ((Expr.plain_unsigned ho).join (Expr.plain_unsigned hk))
  | .arrow _ o k, h => by
    obtain ⟨hn, h⟩ := Bool.and_eq_true_iff.1 h
    obtain ⟨ho, hk⟩ := Bool.and_eq_true_iff.1 h
    exact .node rfl (o.not_isCompound_unsigned hn) ((Expr.plain_unsigned ho).join (Expr.plain_unsigned hk))
  | .protoDict _ p es, h => by
    obtain ⟨hn, h⟩ := Bool.and_eq_true_iff.1 h
    obtain ⟨hn, hv⟩ := Bool.and_eq_true_iff.1 hn
    obtain ⟨hp, hes⟩ := Bool.and_eq_true_iff.1 h
    refine .node rfl ?_ ((Expr.plain_unsigned hp).join (plain_unsignedEntries hes))
    exact Bool.and_eq_true_iff.2 ⟨p.not_isCompound_unsigned hn, not_isVar_unsigned hv⟩
  | .list _ is, h => .node rfl rfl (plain_unsignedExprs (show exprsPass .standalone is = true from h))
  | .dict _ es, h => by
    obtain ⟨hn, hes⟩ := Bool.and_eq_true_iff.1 h
    exact .node rfl (not_isVar_unsigned hn) (plain_unsignedEntries hes)
  | .lambda _ ⟨n, ps, ⟨a, ss⟩⟩, h => by
    obtain ⟨hn, hf⟩ := Bool.and_eq_true_iff.1 h
    obtain ⟨hn, hr⟩ := Bool.and_eq_true_iff.1 hn
    obtain ⟨b, e, rfl⟩ := Function.exists_of_returnsOne hr
    have he : e.passes .standalone = true := by simp_all
    exact .lambda hn (Expr.plain_unsigned he)

theorem plain_unsignedExprs : ∀ {es : List (Expr α)}, exprsPass .standalone es = true →
    Plain (exprsPass .lexical (unsignedExprs es)) (exprsPass .clear (unsignedExprs es))
      (ExprsPlaced (unsignedExprs es)) (mentionsOfExprs (unsignedExprs es))
  | [], _ => .leaf rfl rfl
  | e :: es, h => by
    obtain ⟨he, hes⟩ := Bool.and_eq_true_iff.1 h
    exact (Expr.plain_unsigned he).join (plain_unsignedExprs hes)

theorem plain_unsignedEntries : ∀ {es : List (Expr α × Expr α)}, entriesPass .standalone es = true →
    Plain (entriesPass .lexical (unsignedEntries es)) (entriesPass .clear (unsignedEntries es))
      (EntriesPlaced (unsignedEntries es)) (mentionsOfEntries (unsignedEntries es))
  | [], _ => .leaf rfl rfl
  | (k, v) :: es, h => by
    obtain ⟨hkv, hes⟩ := Bool.and_eq_true_iff.1 h
    obtain ⟨hk, hv⟩ := Bool.and_eq_true_iff.1 hkv
    exact ((Expr.plain_unsigned hk).join (Expr.plain_unsigned hv)).join (plain_unsignedEntries hes)

end

/-! ## The round trip -/

mutual

/-- Nothing changes where no number has a sign. -/
theorem Expr.unsigned_eq : ∀ {e : Expr α}, e.passes .lexical = true → e.unsigned = e
  | .none _, _ | .bool _ _, _ | .str _ _, _ | .var _ _, _ => rfl
  | .number _ n, h => congrArg _ (Number.unsigned_eq h)
  | .binary _ op l r, h => by
    obtain ⟨hl, hr⟩ := Bool.and_eq_true_iff.1 (Bool.and_eq_true_iff.1 h).2
    rw [Expr.unsigned, Expr.unsigned_eq hl, Expr.unsigned_eq hr]
  | .unary _ op e, h => by rw [Expr.unsigned, Expr.unsigned_eq (e := e) h]
  | .call _ c as, h => by
    obtain ⟨hc, has⟩ := Bool.and_eq_true_iff.1 (Bool.and_eq_true_iff.1 h).2
    rw [Expr.unsigned, Expr.unsigned_eq hc, unsignedExprs_eq has]
  | .index _ o k, h => by
    obtain ⟨ho, hk⟩ := Bool.and_eq_true_iff.1 (Bool.and_eq_true_iff.1 h).2
    rw [Expr.unsigned, Expr.unsigned_eq ho, Expr.unsigned_eq hk]
  | .arrow _ o k, h => by
    obtain ⟨ho, hk⟩ := Bool.and_eq_true_iff.1 (Bool.and_eq_true_iff.1 h).2
    rw [Expr.unsigned, Expr.unsigned_eq ho, Expr.unsigned_eq hk]
  | .protoDict _ p es, h => by
    obtain ⟨hp, hes⟩ := Bool.and_eq_true_iff.1 (Bool.and_eq_true_iff.1 h).2
    rw [Expr.unsigned, Expr.unsigned_eq hp, unsignedEntries_eq hes]
  | .list _ is, h => by rw [Expr.unsigned, unsignedExprs_eq (show exprsPass .lexical is = true from h)]
  | .dict _ es, h => by rw [Expr.unsigned, unsignedEntries_eq (show entriesPass .lexical es = true from h)]
  | .lambda _ f, h => by rw [Expr.unsigned, Function.unsigned_eq (Bool.and_eq_true_iff.1 h).2]

theorem unsignedExprs_eq : ∀ {es : List (Expr α)}, exprsPass .lexical es = true → unsignedExprs es = es
  | [], _ => rfl
  | e :: es, h => by
    obtain ⟨he, hes⟩ := Bool.and_eq_true_iff.1 h
    rw [unsignedExprs, Expr.unsigned_eq he, unsignedExprs_eq hes]

theorem unsignedEntries_eq : ∀ {es : List (Expr α × Expr α)}, entriesPass .lexical es = true →
    unsignedEntries es = es
  | [], _ => rfl
  | (k, v) :: es, h => by
    obtain ⟨hkv, hes⟩ := Bool.and_eq_true_iff.1 h
    obtain ⟨hk, hv⟩ := Bool.and_eq_true_iff.1 hkv
    rw [unsignedEntries, Expr.unsigned_eq hk, Expr.unsigned_eq hv, unsignedEntries_eq hes]

theorem Function.unsigned_eq : ∀ {f : Function α}, f.passes .lexical = true → f.unsigned = f
  | ⟨_, _, ⟨_, ss⟩⟩, h => by rw [Function.unsigned, unsignedResult_eq (show stmtsPass .lexical ss = true from h)]

theorem unsignedResult_eq : ∀ {ss : List (Stmt α)}, stmtsPass .lexical ss = true → unsignedResult ss = ss
  | .ret _ vs :: ss, h => by
    have hvs : exprsPass .lexical vs = true := (Bool.and_eq_true_iff.1 h).1
    rw [unsignedResult, unsignedExprs_eq hvs]
  | [], _ | .expr .. :: _, _ | .assign .. :: _, _ | .define .. :: _, _ | .ifElse .. :: _, _ | .whileLoop .. :: _, _
  | .forLoop .. :: _, _ | .attempt .. :: _, _ | .raise .. :: _, _ | .break_ _ :: _, _ | .continue_ _ :: _, _
  | .declare .. :: _, _ | .bad .. :: _, _ => rfl

end

theorem Program.legible_expr {e : Expr α} (h : e.Plain) (a : α) : Program.Legible [.expr a e] := by
  obtain ⟨b', h, -⟩ := h .module rfl
  have hl : Check.lexical.stmt (.expr a e) = true := rfl
  have hc : Check.clear.stmt (.expr a e) = true := rfl
  refine ⟨b', ?_, ?_, ⟨h.placed, trivial⟩, ?_, ?_⟩
  · simp [hl, h.lexical]
  · simp [hc, h.clear]
  · simpa using h.follows
  · simpa using h.stamped

/-- An expression that can stand alone is printed as a script that is read without a diagnostic, as a single
statement, which is this expression with its zeros unsigned : this expression itself if no number of it has a sign, and
equal to it in all its numbers otherwise. -/
theorem Expr.parse_standalone (e : Expr α) (h : e.passes .standalone = true) (name : String) :
    (Source.parse ⟨name, e.print⟩).errors = .empty ∧
      (Source.parse ⟨name, e.print⟩).program.erase = [.expr () e.unsigned.erase] ∧
      (e.passes .lexical = true → e.unsigned = e) ∧
      ∀ x, Check.isFinite x = true → 0 ≤ x → (Number.unsigned x == x) = true := by
  have hp : Program.print [.expr e.ann e.unsigned] = e.print := by
    change String.intercalate "\n" [e.unsigned.print] = _
    rw [String.intercalate_singleton, e.print_unsigned]
  obtain ⟨he, hr⟩ := (Program.legible_expr (plain_unsigned h) e.ann).parse_print name
  rw [hp] at he hr
  exact ⟨he, hr, unsigned_eq, fun _ => Number.unsigned_beq⟩

/-- An operator in both nestings, a zero with a sign, a lambda as an operand, as an argument and in a key, a string
with an escape, and all postfix forms. -/
theorem Expr.parse_standalone_nested :
    let x : Expr Unit := .var () ⟨"x", .dynamic⟩
    let p : Expr Unit := .binary () .pow x (.binary () .pow x x)
    let f : Expr Unit := .lambda () ⟨"lambda", ["a", "b"], ⟨(), [.ret () [p]]⟩⟩
    let c : Expr Unit := .call () x [.binary () .add f (.number () (-0.0)), f, .unary () .neg f]
    let e : Expr Unit := .arrow () (.index () c
      (.list () [.str () "a\"\n", .none ()])) (.protoDict () x [(.index () x f, .dict () [(f, .bool () true)])])
    e.passes .standalone = true ∧
      (Source.parse ⟨"main", e.print⟩).errors = .empty ∧
      (Source.parse ⟨"main", e.print⟩).program.erase = [.expr () e.unsigned.erase] ∧
      (e.passes .lexical = true → e.unsigned = e) ∧
      ∀ x, Check.isFinite x = true → 0 ≤ x → (Number.unsigned x == x) = true := by
  intro x p f c e
  have h : e.passes .standalone = true := by decide +kernel
  exact ⟨h, e.parse_standalone h "main"⟩

end DocScript
