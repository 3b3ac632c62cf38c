import DocScript.Grammar.Expr
import DocScript.Proofs.Print.Legible

/-!
# The tokens of a printed expression

`Expr.kinds` lists the kinds of the tokens that an expression is written with. `Expr.spells_print` says that the
text of an expression that is legible has these lexemes, wherever it stands.
-/

namespace DocScript

open Lexeme

variable {α : Type}

/-! ## Kinds -/

/-- The token that stands for an operator between its operands. -/
def BinaryOp.kind : BinaryOp → TokenKind
  | or => .keyword .or
  | and => .keyword .and
  | eq => .symbol .eqEq
  | notEq => .symbol .bangEq
  | less => .symbol .less
  | lessEq => .symbol .lessEq
  | greater => .symbol .greater
  | greaterEq => .symbol .greaterEq
  | add => .symbol .plus
  | sub => .symbol .minus
  | mul => .symbol .star
  | div => .symbol .slash
  | pow => .symbol .starStar

/-- The token that stands for an operator in front of its operand. -/
def UnaryOp.kind : UnaryOp → TokenKind
  | neg => .symbol .minus
  | plus => .symbol .plus
  | not => .keyword .not

@[simp] theorem BinaryOp.ofToken?_kind (op : BinaryOp) : ofToken? op.kind = some op := by
  cases op <;> rfl

@[simp] theorem UnaryOp.ofToken?_kind (op : UnaryOp) : ofToken? op.kind = some op := by
  cases op <;> rfl

/-- Items with commas between them. -/
def commaKinds : List (List TokenKind) → List TokenKind
  | [] => []
  | [ks] => ks
  | ks :: ks' :: kss => ks ++ .symbol .comma :: commaKinds (ks' :: kss)

/-- The items of a list of names. -/
def nameKinds (names : List String) : List (List TokenKind) := names.map fun x => [.identifier x]

/-- Operations and lambdas stand in parentheses. -/
def Expr.enclose (e : Expr α) (ks : List TokenKind) : List TokenKind :=
  if e.isCompound then .symbol .lparen :: (ks ++ [.symbol .rparen]) else ks

mutual

/-- The tokens of an expression. -/
def Expr.kinds : Expr α → List TokenKind
  | .none _ => [.keyword .none]
  | .bool _ true => [.keyword .true]
  | .bool _ false => [.keyword .false]
  | .number _ n => [.number n]
  | .str _ s => [.string s]
  | .var _ v => [.identifier v.name]
  | .binary _ op l r => l.enclose l.kinds ++ op.kind :: r.enclose r.kinds
  | .unary _ op e => op.kind :: e.enclose e.kinds
  | .call _ c as => c.kinds ++ .symbol .lparen :: (commaKinds (kindsOfExprs as) ++ [.symbol .rparen])
  | .index _ o k => o.kinds ++ .symbol .lbracket :: (k.kinds ++ [.symbol .rbracket])
  | .arrow _ o k => o.kinds ++ .symbol .arrow :: .symbol .lbracket :: (k.kinds ++ [.symbol .rbracket])
  | .protoDict _ p es => p.kinds ++ .symbol .lbrace :: (commaKinds (kindsOfEntries es) ++ [.symbol .rbrace])
  | .list _ is => .symbol .lbracket :: (commaKinds (kindsOfExprs is) ++ [.symbol .rbracket])
  | .dict _ es => .symbol .lbrace :: (commaKinds (kindsOfEntries es) ++ [.symbol .rbrace])
  | .lambda _ f => f.lambdaKinds

def kindsOfExprs : List (Expr α) → List (List TokenKind)
  | [] => []
  | e :: es => e.kinds :: kindsOfExprs es

def kindsOfEntries : List (Expr α × Expr α) → List (List TokenKind)
  | [] => []
  | (k, v) :: es => (k.kinds ++ .symbol .colon :: v.kinds) :: kindsOfEntries es

def Function.lambdaKinds : Function α → List TokenKind
  | ⟨_, ps, ⟨_, ss⟩⟩ =>
    .keyword .lambda :: (commaKinds (nameKinds ps) ++ .symbol .colon :: commaKinds (kindsOfResult ss))

def kindsOfResult : List (Stmt α) → List (List TokenKind)
  | .ret _ vs :: _ => kindsOfExprs vs
  | _ => []

end

/-! ## Texts of symbols -/

theorem stands_lparen : Stands "(" (words [.symbol .lparen]) := stands_symbol rfl (by decide)

theorem stands_rparen : Stands ")" (words [.symbol .rparen]) := stands_symbol rfl (by decide)

theorem stands_lbracket : Stands "[" (words [.symbol .lbracket]) := stands_symbol rfl (by decide)

theorem stands_rbracket : Stands "]" (words [.symbol .rbracket]) := stands_symbol rfl (by decide)

theorem stands_lbrace : Stands "\x7b" (words [.symbol .lbrace]) := stands_symbol rfl (by decide)

theorem stands_rbrace : Stands "\x7d" (words [.symbol .rbrace]) := stands_symbol rfl (by decide)

theorem stands_comma : Stands ", " (words [.symbol .comma]) := stands_symbolSpace rfl (by decide)

theorem stands_colon : Stands ": " (words [.symbol .colon]) := stands_symbolSpace rfl (by decide)

theorem stands_arrow : Stands "->[" (words [.symbol .arrow, .symbol .lbracket]) := by
  intro rest
  have hbreak : Breaks ('[' :: rest) := fun c hc => by
    obtain rfl : '[' = c := by simpa using hc
    decide
  exact (spells_symbol .arrow _ hbreak).trans (congrArg _ (stands_lbracket rest))

/-! ## Texts of operators and lists -/

theorem BinaryOp.spells_text (op : BinaryOp) : Spells op.text (words [op.kind]) := by
  cases op
  case or => exact spells_keyword .or
  case and => exact spells_keyword .and
  case eq => exact spells_symbol .eqEq
  case notEq => exact spells_symbol .bangEq
  case less => exact spells_symbol .less
  case lessEq => exact spells_symbol .lessEq
  case greater => exact spells_symbol .greater
  case greaterEq => exact spells_symbol .greaterEq
  case add => exact spells_symbol .plus
  case sub => exact spells_symbol .minus
  case mul => exact spells_symbol .star
  case div => exact spells_symbol .slash
  case pow => exact spells_symbol .starStar

/-- A text with a blank behind it stands. -/
theorem Spells.space {a : String} {ps : List Piece} (h : Spells a ps) : Stands (a ++ " ") ps := by
  simpa using h.append_stands stands_space (by decide)

/-- A reserved word with a blank behind it. -/
theorem stands_keyword (k : Keyword) (text : String) (ht : k.text ++ " " = text) :
    Stands text (words [.keyword k]) :=
  ht ▸ (spells_keyword k).space

/-- The first character of an expression or a statement. -/
def isOpening (c : Char) : Bool :=
  isNameChar c || c == '"' || c == '(' || c == '[' || c == '\x7b' || c == '-' || c == '+' || c == '@'

/-- The text begins like an expression or a statement. -/
def Opens (text : String) : Prop := text.toList.head?.any isOpening = true

instance (text : String) : Decidable (Opens text) := inferInstanceAs (Decidable (_ = true))

theorem Opens.append {a : String} (h : Opens a) (b : String) : Opens (a ++ b) := by
  unfold Opens at h ⊢
  rw [String.toList_append, List.head?_append]
  cases ha : a.toList.head? with
  | none => simp [ha] at h
  | some c => simpa [ha] using h

theorem opens_keyword (k : Keyword) : Opens k.text := by
  cases k <;> decide

theorem Opens.exists_cons {a : String} (h : Opens a) : ∃ c cs, a.toList = c :: cs ∧ isOpening c = true := by
  unfold Opens at h
  cases ha : a.toList with
  | nil => simp [ha] at h
  | cons c cs => exact ⟨c, cs, rfl, by simpa [ha] using h⟩

theorem visible_of_isOpening {c : Char} (h : isOpening c = true) (cs : List Char) : Visible c cs := by
  refine ⟨?_, ?_, ?_, ?_, ?_⟩ <;> rintro rfl <;> exact absurd h (by decide)

/-- An operator in front of its operand is not taken for a part of a longer symbol. -/
theorem UnaryOp.spells_lead (op : UnaryOp) {a : String} {ps : List Piece} (ha : Opens a) (h : Spells a ps) :
    Spells (op.lead ++ a) (.word op.kind :: ps) := by
  obtain ⟨c, cs, hc, ho⟩ := ha.exists_cons
  cases op
  case not => exact (spells_keyword .not).space.append_spells h
  case plus => exact (stands_symbol (c := '+') rfl (by decide) : Stands "+" _).append_spells h
  case neg =>
    intro rest hr
    have hpair : symbol2? '-' c = none := by
      have : c ≠ '>' := by
        rintro rfl
        exact absurd ho (by decide)
      simp [symbol2?, this]
    have htext : (UnaryOp.neg.lead ++ a).toList ++ rest = '-' :: (c :: (cs ++ rest)) := by
      rw [String.toList_append, hc]
      rfl
    rw [htext, outline_of_opensSymbol (by decide) (by simp), symbol_eq_single (by simpa using hpair),
      ← List.cons_append, ← hc]
    exact congrArg _ (h rest hr)

/-- Items with commas between them. -/
theorem spells_commaSeparated {items : List String} {kss : List (List TokenKind)}
    (h : List.Forall₂ (fun text ks => Spells text (words ks)) items kss) :
    Spells (commaSeparated items) (words (commaKinds kss)) := by
  induction h with
  | nil => exact .nil
  | @cons text ks items kss h hs ih =>
    cases hs with
    | nil => simpa [commaSeparated, commaKinds] using h
    | cons h' hs' =>
      rw [commaSeparated, String.intercalate_cons_cons, commaKinds, words_append, words_cons]
      rw [String.append_assoc]
      exact h.append (stands_comma.append_spells ih) (.append (by decide) _)

/-! ## Texts of expressions -/

theorem Opens.of_isName {name : String} (h : isName name = true) : Opens name := by
  rw [isName, Bool.and_eq_true, isWord] at h
  unfold Opens
  split at h
  · simp at h
  · next c cs heq =>
    simp only [Bool.and_eq_true] at h
    simp [heq, isOpening, isNameChar_of_isNameStart h.1.1]

theorem opens_text {x : Float} {m : Nat} {e : Int} (hx : Parts.ofFloat x = .finite false m e) :
    Opens (Number.text x) := by
  obtain ⟨ds, fraction, hd, hne, -, htext, -⟩ := Number.reads_text hx
  obtain ⟨d, ds, rfl⟩ := List.exists_cons_of_ne_nil hne
  simp [Opens, htext, isOpening, isNameChar_of_isDigit (hd d (by simp))]

/-- A number that passes both checks is finite and not negative. -/
theorem Check.exists_finite {x : Float} (hl : isUnsigned x = true) (hc : isFinite x = true) :
    ∃ m e, Parts.ofFloat x = .finite false m e := by
  unfold isUnsigned at hl
  unfold isFinite at hc
  cases h : Parts.ofFloat x with
  | finite negative m e =>
    obtain rfl : negative = false := by simpa [h] using hl
    exact ⟨m, e, rfl⟩
  | infinite negative => simp [h] at hc
  | nan => simp [h] at hc

theorem forall₂_nameKinds {names : List String} (h : names.all isName = true) :
    List.Forall₂ (fun text ks => Spells text (words ks)) names (nameKinds names) := by
  induction names with
  | nil => exact .nil
  | cons x xs ih =>
    rw [List.all_cons, Bool.and_eq_true] at h
    exact .cons (spells_name h.1) (ih h.2)

/-- Operands in parentheses. -/
theorem Expr.spells_parenthesize {e : Expr α} (h : Spells e.print (words e.kinds) ∧ Opens e.print) :
    Spells (e.parenthesize e.print) (words (e.enclose e.kinds)) ∧ Opens (e.parenthesize e.print) := by
  unfold parenthesize enclose
  split
  · refine ⟨?_, .append (.append (by decide) _) _⟩
    have hp := (stands_lparen.append_spells h.1).append_stands stands_rparen (by decide)
    simpa using hp.spells
  · exact h

mutual

/-- The text of an expression is made of its tokens. -/
theorem Expr.spells_print : ∀ {e : Expr α}, e.passes .lexical = true → e.passes .clear = true →
    Spells e.print (words e.kinds) ∧ Opens e.print
  | .none _, _, _ => ⟨spells_keyword .none, opens_keyword .none⟩
  | .bool _ true, _, _ => ⟨spells_keyword .true, opens_keyword .true⟩
  | .bool _ false, _, _ => ⟨spells_keyword .false, opens_keyword .false⟩
  | .number _ n, hl, hc => by
    obtain ⟨m, e, hn⟩ := Check.exists_finite hl hc
    exact ⟨spells_number hn, opens_text hn⟩
  | .str _ s, _, _ => ⟨(stands_quote s).spells, by simp [Expr.print, Opens, Quoted.quote, Quoted.encode, isOpening]⟩
  | .var _ v, hl, _ => ⟨spells_name hl, .of_isName hl⟩
  | .binary _ op l r, hl, hc => by
    simp only [Expr.passes, Bool.and_eq_true] at hl hc
    have hL := l.spells_parenthesize (l.spells_print hl.2.1 hc.2.1)
    have hR := r.spells_parenthesize (r.spells_print hl.2.2 hc.2.2)
    refine ⟨?_, (((hL.2.append _).append _).append _).append _⟩
    have h := hL.1.space.append_spells op.spells_text
    simpa [Expr.print, Expr.kinds, String.append_assoc] using h.space.append_spells hR.1
  | .unary _ op e, hl, hc => by
    simp only [Expr.passes, Bool.and_eq_true] at hl hc
    have h := e.spells_parenthesize (e.spells_print hl.2 hc.2)
    exact ⟨op.spells_lead h.2 h.1, .append (by cases op <;> decide) _⟩
  | .call _ c as, hl, hc => by
    simp only [Expr.passes, Bool.and_eq_true] at hl hc
    have hC := c.spells_print hl.2.1 hc.2.1
    have hA := spells_commaSeparated (spells_printExprs hl.2.2 hc.2.2)
    have h := ((hC.1.append_stands stands_lparen (by decide)).append_spells hA).append_stands stands_rparen (by decide)
    exact ⟨by simpa [Expr.print, Expr.kinds] using h.spells, ((hC.2.append _).append _).append _⟩
  | .index _ o k, hl, hc => by
    simp only [Expr.passes, Bool.and_eq_true] at hl hc
    have hO := o.spells_print hl.2.1 hc.2.1
    have hK := (k.spells_print hl.2.2 hc.2.2).1
    have h := ((hO.1.append_stands stands_lbracket (by decide)).append_spells hK).append_stands stands_rbracket (by decide)
    exact ⟨by simpa [Expr.print, Expr.kinds] using h.spells, ((hO.2.append _).append _).append _⟩
  | .arrow _ o k, hl, hc => by
    simp only [Expr.passes, Bool.and_eq_true] at hl hc
    have hO := o.spells_print hl.2.1 hc.2.1
    have hK := (k.spells_print hl.2.2 hc.2.2).1
    have h := ((hO.1.append_stands stands_arrow (by decide)).append_spells hK).append_stands stands_rbracket (by decide)
    exact ⟨by simpa [Expr.print, Expr.kinds] using h.spells, ((hO.2.append _).append _).append _⟩
  | .protoDict _ p es, hl, hc => by
    simp only [Expr.passes, Bool.and_eq_true] at hl hc
    have hP := p.spells_print hl.2.1 hc.2.1
    have hE := spells_commaSeparated (spells_printEntries hl.2.2 hc.2.2)
    have h := ((hP.1.append_stands stands_lbrace (by decide)).append_spells hE).append_stands stands_rbrace (by decide)
    exact ⟨by simpa [Expr.print, Expr.kinds] using h.spells, ((hP.2.append _).append _).append _⟩
  | .list _ is, hl, hc => by
    simp only [Expr.passes, Bool.and_eq_true] at hl hc
    have hI := spells_commaSeparated (spells_printExprs hl.2 hc.2)
    have h := (stands_lbracket.append_spells hI).append_stands stands_rbracket (by decide)
    exact ⟨by simpa [Expr.print, Expr.kinds] using h.spells, .append (.append (by decide) _) _⟩
  | .dict _ es, hl, hc => by
    simp only [Expr.passes, Bool.and_eq_true] at hl hc
    have hE := spells_commaSeparated (spells_printEntries hl.2 hc.2)
    have h := (stands_lbrace.append_spells hE).append_stands stands_rbrace (by decide)
    exact ⟨by simpa [Expr.print, Expr.kinds] using h.spells, .append (.append (by decide) _) _⟩
  | .lambda _ f, hl, hc => by
    simp only [Expr.passes, Check.lexical, Bool.and_eq_true] at hl hc
    exact f.spells_printLambda hl.1.2 hl.2 hc.2

theorem spells_printExprs : ∀ {es : List (Expr α)}, exprsPass .lexical es = true → exprsPass .clear es = true →
    List.Forall₂ (fun text ks => Spells text (words ks)) (printExprs es) (kindsOfExprs es)
  | [], _, _ => .nil
  | e :: es, hl, hc => by
    simp only [exprsPass, Bool.and_eq_true] at hl hc
    exact .cons (e.spells_print hl.1 hc.1).1 (spells_printExprs hl.2 hc.2)

theorem spells_printEntries : ∀ {es : List (Expr α × Expr α)}, entriesPass .lexical es = true →
    entriesPass .clear es = true →
    List.Forall₂ (fun text ks => Spells text (words ks)) (printEntries es) (kindsOfEntries es)
  | [], _, _ => .nil
  | (k, v) :: es, hl, hc => by
    simp only [entriesPass, Bool.and_eq_true] at hl hc
    have hK := (k.spells_print hl.1.1 hc.1.1).1
    have hV := (v.spells_print hl.1.2 hc.1.2).1
    refine .cons ?_ (spells_printEntries hl.2 hc.2)
    simpa using (hK.append_stands stands_colon (by decide)).append_spells hV

theorem Function.spells_printLambda : ∀ {f : Function α}, f.params.all isName = true →
    f.passes .lexical = true → f.passes .clear = true →
    Spells f.printLambda (words f.lambdaKinds) ∧ Opens f.printLambda
  | ⟨_, ps, ⟨_, ss⟩⟩, hp, hl, hc => by
    have hR := spells_commaSeparated (spells_printResult hl hc)
    have hP := spells_commaSeparated (forall₂_nameKinds hp)
    rw [Function.printLambda, Function.lambdaKinds]
    split
    · next he =>
      obtain rfl : ps = [] := by simpa using he
      have h := ((spells_keyword .lambda).append_stands stands_colon (by decide)).append_spells hR
      exact ⟨h, .append (.append (by decide) _) _⟩
    · have h := ((stands_keyword .lambda "lambda " rfl).append_spells hP).append_stands stands_colon (by decide)
      exact ⟨by simpa using h.append_spells hR, .append (.append (.append (by decide) _) _) _⟩

theorem spells_printResult : ∀ {ss : List (Stmt α)}, stmtsPass .lexical ss = true → stmtsPass .clear ss = true →
    List.Forall₂ (fun text ks => Spells text (words ks)) (printResult ss) (kindsOfResult ss)
  | [], _, _ => .nil
  | s :: _, hl, hc => by
    simp only [stmtsPass, Bool.and_eq_true] at hl hc
    cases s
    case ret vs =>
      simp only [Stmt.passes, Bool.and_eq_true] at hl hc
      exact spells_printExprs hl.1.2 hc.1.2
    all_goals exact .nil

end

end DocScript
