import DocScript.Proofs.Placement
import DocScript.Proofs.Print.Kinds
import DocScript.Proofs.Print.Layout

/-!
# The tokens of printed code

`Stmt.kinds` lists the kinds of the tokens that a statement is written with, the marks of its lines and blocks
among them. `Prints text ks d` says that `text` is the text of code of depth `d`, with the tokens `ks`; it holds of
single lines, of code below other code and of heads with their blocks, and so of all statements
(`Stmt.prints`).
-/

namespace DocScript

variable {α : Type}

/-! ## Kinds -/

/-- The word that a declaration begins with. -/
def Scope.kind : Scope → TokenKind
  | dynamic => .newline
  | local_ => .keyword .local_
  | nonlocal => .keyword .nonlocal
  | global_ => .keyword .global_

/-- Decorators, each on a line of its own. -/
def kindsOfDecorators : List (Expr α) → List TokenKind
  | [] => []
  | e :: es => .symbol .at_ :: (e.kinds ++ .newline :: kindsOfDecorators es)

mutual

/-- The tokens of a statement. -/
def Stmt.kinds : Stmt α → List TokenKind
  | .expr _ e => e.kinds ++ [.newline]
  | .assign _ ts vs =>
    commaKinds (kindsOfExprs ts) ++ .symbol .eq :: (commaKinds (kindsOfExprs vs) ++ [.newline])
  | .define _ ds v ⟨_, ps, b⟩ =>
    kindsOfDecorators ds ++ .keyword .def_ :: .identifier v.name :: .symbol .lparen ::
      (commaKinds (nameKinds ps) ++ .symbol .rparen :: b.kinds)
  | .ifElse _ e y n => .keyword .if_ :: (e.kinds ++ (y.kinds ++ .keyword .else_ :: n.kinds))
  | .whileLoop _ e b => .keyword .while_ :: (e.kinds ++ b.kinds)
  | .forLoop _ vs e b =>
    .keyword .for_ :: (commaKinds (nameKinds (vs.map Variable.name)) ++ .keyword .in_ :: (e.kinds ++ b.kinds))
  | .attempt _ b h c => .keyword .try_ :: (b.kinds ++ (kindsOfHandler h ++ kindsOfCleanup c))
  | .raise _ e => .keyword .raise :: (e.kinds ++ [.newline])
  | .ret _ vs => .keyword .return_ :: (commaKinds (kindsOfExprs vs) ++ [.newline])
  | .break_ _ => [.keyword .break_, .newline]
  | .continue_ _ => [.keyword .continue_, .newline]
  | .declare _ s ns => s.kind :: (commaKinds (nameKinds ns) ++ [.newline])
  | .bad _ _ => []

def kindsOfStmts : List (Stmt α) → List TokenKind
  | [] => []
  | s :: ss => s.kinds ++ kindsOfStmts ss

/-- The tokens of a block, from its colon on. -/
def Block.kinds : Block α → List TokenKind
  | ⟨_, []⟩ => [.symbol .colon, .newline, .indent, .keyword .pass, .newline, .dedent]
  | ⟨_, s :: ss⟩ => .symbol .colon :: .newline :: .indent :: (s.kinds ++ kindsOfStmts ss ++ [.dedent])

def kindsOfHandler : Option (Handler α) → List TokenKind
  | none => []
  | some ⟨none, b⟩ => .keyword .except :: b.kinds
  | some ⟨some v, b⟩ => .keyword .except :: .keyword .as_ :: .identifier v.name :: b.kinds

def kindsOfCleanup : Option (Block α) → List TokenKind
  | none => []
  | some b => .keyword .finally_ :: b.kinds

end

/-! ## Lines -/

/-- Tokens that make up a line. -/
structure Compact (ks : List TokenKind) : Prop extends Balanced ks where
  ends : EndsLine ks

namespace Compact

variable {ks ks' : List TokenKind} {kss : List (List TokenKind)}

/-- A single token that is no bracket. -/
theorem single {k : TokenKind} (he : k.isError = false) (hb : ∀ depth, Layout.bracket depth k = depth)
    (hk : k.canEndLine = true) : Compact [k] :=
  ⟨.cons he hb .nil, hk⟩

theorem keyword {k : Keyword} (hk : (TokenKind.keyword k).canEndLine = true) : Compact [.keyword k] :=
  single rfl (fun _ => rfl) hk

theorem append (h : Balanced ks) (h' : Compact ks') : Compact (ks ++ ks') :=
  ⟨h.append h'.toBalanced, h'.ends.append ks⟩

theorem cons {k : TokenKind} (he : k.isError = false) (hb : ∀ depth, Layout.bracket depth k = depth)
    (h : Compact ks) : Compact (k :: ks) :=
  append (.cons he hb .nil) h

/-- Tokens behind a symbol or a word that is no bracket. -/
theorem behind {ks' : List TokenKind} (h : Compact ks) {k : TokenKind} (he : k.isError = false)
    (hb : ∀ depth, Layout.bracket depth k = depth) (h' : Compact ks') : Compact (ks ++ k :: ks') :=
  append h.toBalanced (cons he hb h')

theorem parens (h : Balanced ks) : Compact (.symbol .lparen :: (ks ++ [.symbol .rparen])) :=
  ⟨h.enclosed rfl rfl (fun _ => rfl) fun _ => rfl, .cons _ (.append ks rfl)⟩

theorem brackets (h : Balanced ks) : Compact (.symbol .lbracket :: (ks ++ [.symbol .rbracket])) :=
  ⟨h.enclosed rfl rfl (fun _ => rfl) fun _ => rfl, .cons _ (.append ks rfl)⟩

theorem braces (h : Balanced ks) : Compact (.symbol .lbrace :: (ks ++ [.symbol .rbrace])) :=
  ⟨h.enclosed rfl rfl (fun _ => rfl) fun _ => rfl, .cons _ (.append ks rfl)⟩

theorem commaKinds (h : ∀ ks ∈ kss, Compact ks) (hne : kss ≠ []) : Compact (commaKinds kss) := by
  induction kss with
  | nil => exact absurd rfl hne
  | cons ks kss ih =>
    obtain ⟨hk, hks⟩ := List.forall_mem_cons.1 h
    cases kss with
    | nil => exact hk
    | cons ks' kss => exact hk.behind rfl (fun _ => rfl) (ih hks (List.cons_ne_nil _ _))

end Compact

theorem Balanced.commaKinds {kss : List (List TokenKind)} (h : ∀ ks ∈ kss, Compact ks) :
    Balanced (commaKinds kss) := by
  cases kss with
  | nil => exact .nil
  | cons ks kss => exact (Compact.commaKinds h (List.cons_ne_nil _ _)).toBalanced

theorem compact_nameKinds (names : List String) : ∀ ks ∈ nameKinds names, Compact ks := by
  intro ks hks
  obtain ⟨x, -, rfl⟩ := List.mem_map.1 hks
  exact .single rfl (fun _ => rfl) rfl

theorem Expr.compact_enclose {e : Expr α} (h : Compact e.kinds) : Compact (e.enclose e.kinds) := by
  unfold enclose
  split
  · exact .parens h.toBalanced
  · exact h

mutual

/-- An expression closes its brackets, and a line can end behind it. -/
theorem Expr.compact_kinds : ∀ e : Expr α, Compact e.kinds
  | .none _ => .keyword rfl
  | .bool _ true => .keyword rfl
  | .bool _ false => .keyword rfl
  | .number _ _ => .single rfl (fun _ => rfl) rfl
  | .str _ _ => .single rfl (fun _ => rfl) rfl
  | .var _ _ => .single rfl (fun _ => rfl) rfl
  | .binary _ op l r =>
    (Expr.compact_enclose l.compact_kinds).behind (by cases op <;> rfl) (fun _ => by cases op <;> rfl)
      (Expr.compact_enclose r.compact_kinds)
  | .unary _ op e =>
    .cons (by cases op <;> rfl) (fun _ => by cases op <;> rfl) (Expr.compact_enclose e.compact_kinds)
  | .call _ c as => .append c.compact_kinds.toBalanced (.parens (.commaKinds (compact_kindsOfExprs as)))
  | .index _ o k => .append o.compact_kinds.toBalanced (.brackets k.compact_kinds.toBalanced)
  | .arrow _ o k => o.compact_kinds.behind rfl (fun _ => rfl) (.brackets k.compact_kinds.toBalanced)
  | .protoDict _ p es => .append p.compact_kinds.toBalanced (.braces (.commaKinds (compact_kindsOfEntries es)))
  | .list _ is => .brackets (.commaKinds (compact_kindsOfExprs is))
  | .dict _ es => .braces (.commaKinds (compact_kindsOfEntries es))
  | .lambda _ f => f.compact_lambdaKinds

theorem compact_kindsOfExprs : ∀ es : List (Expr α), ∀ ks ∈ kindsOfExprs es, Compact ks
  | [] => nofun
  | e :: es => List.forall_mem_cons.2 ⟨e.compact_kinds, compact_kindsOfExprs es⟩

theorem compact_kindsOfEntries : ∀ es : List (Expr α × Expr α), ∀ ks ∈ kindsOfEntries es, Compact ks
  | [] => nofun
  | (k, v) :: es => List.forall_mem_cons.2
    ⟨k.compact_kinds.behind rfl (fun _ => rfl) v.compact_kinds, compact_kindsOfEntries es⟩

theorem Function.compact_lambdaKinds : ∀ f : Function α, Compact f.lambdaKinds
  | ⟨_, ps, ⟨_, ss⟩⟩ => by
    have hp : Balanced (commaKinds (nameKinds ps)) := .commaKinds (compact_nameKinds ps)
    refine .cons rfl (fun _ => rfl) (.append hp ?_)
    have hr := compact_kindsOfResult ss
    cases h : kindsOfResult ss with
    | nil => exact .single rfl (fun _ => rfl) rfl
    | cons ks kss => exact .cons rfl (fun _ => rfl) (.commaKinds (h ▸ hr) (List.cons_ne_nil _ _))

theorem compact_kindsOfResult : ∀ ss : List (Stmt α), ∀ ks ∈ kindsOfResult ss, Compact ks
  | [] => nofun
  | s :: _ => by
    cases s
    case ret vs => exact compact_kindsOfExprs vs
    all_goals exact nofun

end

/-! ## Texts of lines -/

theorem delimits_lineAt (d : Nat) (text : String) : Delimits (lineAt d ++ text) := by
  have hbreak : Lexeme.isBreak '\n' = true := by decide
  simp [Delimits, lineAt, hbreak]

/-- A line break and the blanks behind it, in front of code. -/
theorem spells_lineAt (d : Nat) {text : String} {ps : List Piece} (ho : Opens text) (h : Spells text ps) :
    Spells (lineAt d ++ text) (.line (.spaced (4 * d)) :: ps) := by
  intro rest hr
  obtain ⟨c, cs, hc, hopen⟩ := ho.exists_cons
  have htext : (lineAt d ++ text).toList ++ rest =
      '\n' :: (List.replicate (4 * d) ' ' ++ c :: (cs ++ rest)) := by
    simp [lineAt, hc]
  rw [htext, outline_line (visible_of_isOpening hopen _), ← List.cons_append, ← hc, h rest hr]
  rfl

/-- The text is that of code of depth `d`, with the tokens `ks`. -/
structure Prints (text : String) (ks : List TokenKind) (d : Nat) : Prop where
  opens : Opens text
  emits : ∃ ps, Spells text ps ∧ Emits ps ks d

namespace Prints

variable {text text' : String} {hs ks ks' : List TokenKind} {d : Nat}

theorem line (ho : Opens text) (h : Spells text (words ks)) (hk : Compact ks) : Prints text (ks ++ [.newline]) d :=
  ⟨ho, _, h, .line hk.toBalanced hk.ends⟩

theorem next (h : Prints text ks d) (h' : Prints text' ks' d) : Prints (text ++ (lineAt d ++ text')) (ks ++ ks') d := by
  obtain ⟨ps, hps, he⟩ := h.emits
  obtain ⟨qs, hqs, he'⟩ := h'.emits
  exact ⟨h.opens.append _, _, hps.append (spells_lineAt d h'.opens hqs) (delimits_lineAt d _), he.next he'⟩

/-- A line that consists of one word. -/
theorem word (k : Keyword) (hk : (TokenKind.keyword k).canEndLine = true) :
    Prints k.text [.keyword k, .newline] d := by
  have hword : Spells k.text (words [.keyword k]) := Lexeme.spells_keyword k
  exact line (opens_keyword k) hword (.keyword hk)

/-- A head, its colon and the block below it. -/
theorem block (ho : Opens text) (h : Spells text (words hs)) (hb : Balanced hs) (h' : Prints text' ks (d + 1)) :
    Prints (text ++ (":" ++ (lineAt (d + 1) ++ text')))
      (hs ++ .symbol .colon :: .newline :: .indent :: (ks ++ [.dedent])) d := by
  obtain ⟨ps, hps, he⟩ := h'.emits
  have hcolon : Stands ":" (words [.symbol .colon]) := Lexeme.stands_symbol rfl (by decide)
  have hhead : Compact (hs ++ [.symbol .colon]) := .append hb (.single rfl (fun _ => rfl) rfl)
  have hspell := (h.append_stands hcolon (by decide)).append_spells (spells_lineAt (d + 1) h'.opens hps)
  refine ⟨ho.append _, _, ?_, by simpa using Emits.block hhead.toBalanced hhead.ends he⟩
  simpa [String.append_assoc] using hspell

end Prints

/-! ## Texts of statements -/

theorem opens_commaSeparated {text : String} (h : Opens text) (texts : List String) :
    Opens (commaSeparated (text :: texts)) := by
  cases texts with
  | nil => simpa [commaSeparated] using h
  | cons text' texts =>
    rw [commaSeparated, String.intercalate_cons_cons]
    exact (h.append _).append _

/-- A list of expressions that is not empty. -/
theorem spells_exprs {es : List (Expr α)} (hne : es ≠ []) (hl : exprsPass .lexical es = true)
    (hc : exprsPass .clear es = true) :
    Opens (commaSeparated (printExprs es)) ∧
      Spells (commaSeparated (printExprs es)) (words (commaKinds (kindsOfExprs es))) ∧
        Compact (commaKinds (kindsOfExprs es)) := by
  obtain ⟨e, es, rfl⟩ := List.exists_cons_of_ne_nil hne
  refine ⟨?_, spells_commaSeparated (spells_printExprs hl hc), .commaKinds (compact_kindsOfExprs _) ?_⟩
  · simp only [exprsPass, Bool.and_eq_true] at hl hc
    exact opens_commaSeparated (e.spells_print hl.1 hc.1).2 _
  · exact List.cons_ne_nil _ _

/-- A text that is made of two parts. -/
theorem Stands.append_eq {a b text : String} {ps qs : List Piece} (ha : Stands a ps) (hb : Stands b qs)
    (ht : a ++ b = text) : Stands text (ps ++ qs) :=
  ht ▸ ha.append hb

theorem stands_equals : Stands " = " (words [.symbol .eq]) :=
  Lexeme.stands_space.append_eq (Lexeme.spells_symbol .eq).space rfl

theorem stands_in : Stands " in " (words [.keyword .in_]) :=
  Lexeme.stands_space.append_eq (stands_keyword .in_ "in " rfl) rfl

theorem stands_exceptAs : Stands "except as " (words [.keyword .except, .keyword .as_]) :=
  (stands_keyword .except "except " rfl).append_eq (stands_keyword .as_ "as " rfl) rfl

theorem stands_at : Stands "@" (words [.symbol .at_]) := Lexeme.stands_symbol rfl (by decide)

/-- The lines of decorators, in front of other code. -/
theorem prints_decorators {d : Nat} {text : String} {ks : List TokenKind} (h : Prints text ks d) :
    ∀ {ds : List (Expr α)}, exprsPass .lexical ds = true → exprsPass .clear ds = true →
      Prints (printDecorators d ds ++ text) (kindsOfDecorators ds ++ ks) d := by
  intro ds hl hc
  induction ds with
  | nil => simpa [printDecorators, kindsOfDecorators] using h
  | cons e ds ih =>
    simp only [exprsPass, Bool.and_eq_true] at hl hc
    have hline : Prints ("@" ++ e.print) (.symbol .at_ :: e.kinds ++ [.newline]) d :=
      .line (.append (by decide) _) (stands_at.append_spells (e.spells_print hl.1 hc.1).1)
        (.cons rfl (fun _ => rfl) e.compact_kinds)
    have hnext := hline.next (ih hl.2 hc.2)
    simpa [printDecorators, kindsOfDecorators, String.append_assoc] using hnext

/-- The text of a block, below any head. -/
def Block.Prints (b : Block α) : Prop :=
  ∀ {d : Nat} {text : String} {hs : List TokenKind}, Opens text → Spells text (words hs) → Balanced hs →
    DocScript.Prints (text ++ b.print d) (hs ++ b.kinds) d

/-- A block below a single word. -/
theorem Block.prints_word (b : Block α) (k : Keyword) (h : b.Prints)
    (hb : ∀ depth, Layout.bracket depth (.keyword k) = depth) {d : Nat} :
    DocScript.Prints (k.text ++ b.print d) (.keyword k :: b.kinds) d := by
  have hword : Spells k.text (words [.keyword k]) := Lexeme.spells_keyword k
  exact h (opens_keyword k) hword (.cons rfl hb .nil)

theorem Expr.prints_head {e : Expr α} (hl : e.passes .lexical = true) (hc : e.passes .clear = true) (k : Keyword)
    (text : String) (ht : k.text ++ " " = text) (hb : ∀ depth, Layout.bracket depth (.keyword k) = depth) :
    Opens (text ++ e.print) ∧ Spells (text ++ e.print) (words (.keyword k :: e.kinds)) ∧
      Compact (.keyword k :: e.kinds) :=
  ⟨.append (ht ▸ (opens_keyword k).append " ") _, (stands_keyword k text ht).append_spells (e.spells_print hl hc).1,
    .cons rfl hb e.compact_kinds⟩

theorem Scope.spells_text {s : Scope} (h : s ≠ .dynamic) :
    Opens s.text ∧ Spells s.text (words [s.kind]) ∧ Balanced [s.kind] := by
  cases s with
  | dynamic => exact absurd rfl h
  | local_ => exact ⟨by decide, Lexeme.spells_keyword .local_, .cons rfl (fun _ => rfl) .nil⟩
  | nonlocal => exact ⟨by decide, Lexeme.spells_keyword .nonlocal, .cons rfl (fun _ => rfl) .nil⟩
  | global_ => exact ⟨by decide, Lexeme.spells_keyword .global_, .cons rfl (fun _ => rfl) .nil⟩

/-- The head of a definition. -/
theorem spells_def {name : String} {ps : List String} (hn : Lexeme.isName name = true)
    (hp : ps.all Lexeme.isName = true) :
    Spells ("def " ++ name ++ "(" ++ commaSeparated ps ++ ")") (words (.keyword .def_ :: .identifier name ::
      .symbol .lparen :: (commaKinds (nameKinds ps) ++ [.symbol .rparen]))) ∧
    Balanced (.keyword .def_ :: .identifier name ::
      .symbol .lparen :: (commaKinds (nameKinds ps) ++ [.symbol .rparen])) := by
  constructor
  · have hname := (stands_keyword .def_ "def " rfl).append_spells (Lexeme.spells_name hn)
    have hparams := spells_commaSeparated (forall₂_nameKinds hp)
    have h := ((hname.append_stands stands_lparen (by decide)).append_spells hparams).append_stands stands_rparen
      (by decide)
    simpa using h.spells
  · have hparams : Balanced (commaKinds (nameKinds ps)) := .commaKinds (compact_nameKinds ps)
    exact .cons rfl (fun _ => rfl) (.cons rfl (fun _ => rfl) (Compact.parens hparams).toBalanced)

theorem lexical_handler {a : α} {b : Block α} {h : Option (Handler α)} {f : Option (Block α)}
    (hl : Check.lexical.stmt (.attempt a b h f) = true) :
    ∀ v b', h = some ⟨some v, b'⟩ → Lexeme.isName v.name = true := by
  rintro v b' rfl
  exact hl

mutual

/-- The text of a statement is made of its tokens. -/
theorem Stmt.prints : ∀ {s : Stmt α} {c : Place} (d : Nat), s.passes .lexical = true → s.passes .clear = true →
    s.Placed c → Prints (s.print d) s.kinds d
  | .expr _ e, _, d, hl, hc, _ => by
    simp only [Stmt.passes, Bool.and_eq_true] at hl hc
    have he := e.spells_print hl.2 hc.2
    exact .line he.2 he.1 e.compact_kinds
  | .assign _ ts vs, _, d, hl, hc, hp => by
    simp only [Stmt.passes, Bool.and_eq_true] at hl hc
    obtain ⟨hot, hst, hct⟩ := spells_exprs hp.1.1 hl.2.1 hc.2.1
    obtain ⟨-, hsv, hcv⟩ := spells_exprs hp.2.1 hl.2.2 hc.2.2
    have h := (hst.append_stands stands_equals (by decide)).append_spells hsv
    have hk := hct.behind (k := .symbol .eq) rfl (fun _ => rfl) hcv
    rw [← words_append, ← words_append, List.append_assoc, List.singleton_append] at h
    change Prints (commaSeparated (printExprs ts) ++ " = " ++ commaSeparated (printExprs vs)) _ d
    simpa [Stmt.kinds] using Prints.line (d := d) ((hot.append _).append _) h hk
  | .define _ ds v ⟨_, ps, b⟩, _, d, hl, hc, hp => by
    simp only [Stmt.passes, Bool.and_eq_true, Check.lexical] at hl hc
    obtain ⟨hs, hb⟩ := spells_def hl.1.1.2 hl.1.2
    have hdef := b.prints (c := .function) hl.2.2 hc.2.2 hp.2 (d := d) (.append (.append (.append (.append
      (by decide) _) _) _) _) hs hb
    change Prints (printDecorators d ds ++ "def " ++ v.name ++ "(" ++ commaSeparated ps ++ ")" ++ b.print d) _ d
    simpa [Stmt.kinds, String.append_assoc] using prints_decorators hdef hl.2.1 hc.2.1
  | .ifElse _ e y n, c, d, hl, hc, hp => by
    simp only [Stmt.passes, Bool.and_eq_true] at hl hc
    obtain ⟨ho, hs, hk⟩ := e.prints_head hl.2.1 hc.2.1 .if_ "if " rfl fun _ => rfl
    have hy := y.prints hl.2.2.1 hc.2.2.1 hp.2.1 (d := d) ho hs hk.toBalanced
    have hn : Prints ("else" ++ n.print d) (.keyword .else_ :: n.kinds) d :=
      n.prints_word .else_ (n.prints hl.2.2.2 hc.2.2.2 hp.2.2) fun _ => rfl
    change Prints ("if " ++ e.print ++ y.print d ++ lineAt d ++ "else" ++ n.print d) _ d
    simpa [Stmt.kinds, String.append_assoc] using hy.next hn
  | .whileLoop _ e b, c, d, hl, hc, hp => by
    simp only [Stmt.passes, Bool.and_eq_true] at hl hc
    obtain ⟨ho, hs, hk⟩ := e.prints_head hl.2.1 hc.2.1 .while_ "while " rfl fun _ => rfl
    exact b.prints hl.2.2 hc.2.2 hp.2 ho hs hk.toBalanced
  | .forLoop _ vs e b, c, d, hl, hc, hp => by
    simp only [Stmt.passes, Bool.and_eq_true, Check.lexical] at hl hc
    have hvs : (vs.map Variable.name).all Lexeme.isName = true := by simpa using hl.1
    have hnames := (stands_keyword .for_ "for " rfl).append_spells (spells_commaSeparated (forall₂_nameKinds hvs))
    have he := (hnames.append_stands stands_in (by decide)).append_spells (e.spells_print hl.2.1 hc.2.1).1
    have hb : Balanced (.keyword .for_ :: (commaKinds (nameKinds (vs.map Variable.name)) ++
        .keyword .in_ :: e.kinds)) :=
      .cons rfl (fun _ => rfl) (.append (.commaKinds (compact_nameKinds _))
        (.cons rfl (fun _ => rfl) e.compact_kinds.toBalanced))
    have ho : Opens "for " := by decide
    have h := b.prints hl.2.2 hc.2.2 hp.2.2 (d := d) (((ho.append _).append _).append _) (by simpa using he) hb
    change Prints ("for " ++ commaSeparated (vs.map Variable.name) ++ " in " ++ e.print ++ b.print d) _ d
    simpa [Stmt.kinds] using h
  | .attempt _ b h f, c, d, hl, hc, hp => by
    simp only [Stmt.passes, Bool.and_eq_true] at hl hc
    have hb : Prints ("try" ++ b.print d) (.keyword .try_ :: b.kinds) d :=
      b.prints_word .try_ (b.prints hl.2.1 hc.2.1 hp.2.1) fun _ => rfl
    have hh := prints_handler (lexical_handler hl.1) hl.2.2.1 hc.2.2.1 hp.2.2.1 hb
    change Prints ("try" ++ b.print d ++ printHandler d h ++ printCleanup d f) _ d
    simpa [Stmt.kinds] using prints_cleanup hl.2.2.2 hc.2.2.2 hp.2.2.2 hh
  | .raise _ e, _, d, hl, hc, _ => by
    simp only [Stmt.passes, Bool.and_eq_true] at hl hc
    obtain ⟨ho, hs, hk⟩ := e.prints_head hl.2 hc.2 .raise "raise " rfl fun _ => rfl
    exact .line ho hs hk
  | .ret _ [], _, _, _, _, _ => .word .return_ rfl
  | .ret _ (v :: vs), _, d, hl, hc, _ => by
    simp only [Stmt.passes, Bool.and_eq_true] at hl hc
    obtain ⟨-, hs, hk⟩ := spells_exprs (List.cons_ne_nil v vs) hl.2 hc.2
    exact .line (.append (by decide) _) ((stands_keyword .return_ "return " rfl).append_spells hs)
      (.cons rfl (fun _ => rfl) hk)
  | .break_ _, _, _, _, _, _ => .word .break_ rfl
  | .continue_ _, _, _, _, _, _ => .word .continue_ rfl
  | .declare _ s ns, _, d, hl, _, hp => by
    obtain ⟨ho, hs, hb⟩ := Scope.spells_text hp.2.1
    have hns := spells_commaSeparated (forall₂_nameKinds hl)
    have hk : Compact (commaKinds (nameKinds ns)) :=
      .commaKinds (compact_nameKinds ns) fun h => hp.2.2 (List.map_eq_nil_iff.1 h)
    exact .line ((ho.append _).append _) (hs.space.append_spells hns) (.append hb hk)
  | .bad _ _, _, _, hl, _, _ => nomatch hl

theorem prints_stmts : ∀ {ss : List (Stmt α)} {c : Place} {d : Nat} {text : String} {ks : List TokenKind},
    stmtsPass .lexical ss = true → stmtsPass .clear ss = true → StmtsPlaced c ss → Prints text ks d →
    Prints (text ++ printStmts d ss) (ks ++ kindsOfStmts ss) d
  | [], _, _, _, _, _, _, _, h => by simpa [printStmts, kindsOfStmts] using h
  | s :: ss, _, d, _, _, hl, hc, hp, h => by
    simp only [stmtsPass, Bool.and_eq_true] at hl hc
    have hnext := prints_stmts hl.2 hc.2 hp.2 (h.next (s.prints d hl.1 hc.1 hp.1))
    simpa [printStmts, kindsOfStmts, String.append_assoc] using hnext

theorem Block.prints : ∀ {b : Block α} {c : Place}, b.passes .lexical = true → b.passes .clear = true →
    b.Placed c → b.Prints
  | ⟨_, []⟩, _, _, _, _, d, text, hs, ho, hsp, hb => by
    have hpass : DocScript.Prints "pass" [.keyword .pass, .newline] (d + 1) := .word .pass rfl
    simpa [Block.print, Block.kinds, String.append_assoc] using DocScript.Prints.block ho hsp hb hpass
  | ⟨_, s :: ss⟩, c, hl, hc, hp, d, text, hs, ho, hsp, hb => by
    simp only [Block.passes, stmtsPass, Bool.and_eq_true] at hl hc
    have hbody := prints_stmts hl.2 hc.2 hp.2 (s.prints (d + 1) hl.1 hc.1 hp.1)
    simpa [Block.print, Block.kinds, String.append_assoc] using DocScript.Prints.block ho hsp hb hbody

theorem prints_handler : ∀ {h : Option (Handler α)} {c : Place} {d : Nat} {text : String} {ks : List TokenKind},
    (∀ v b, h = some ⟨some v, b⟩ → Lexeme.isName v.name = true) → handlerPasses .lexical h = true →
    handlerPasses .clear h = true → HandlerPlaced c h → Prints text ks d →
    Prints (text ++ printHandler d h) (ks ++ kindsOfHandler h) d
  | none, _, _, _, _, _, _, _, _, ht => by simpa [printHandler, kindsOfHandler] using ht
  | some ⟨none, b⟩, _, d, _, _, _, hl, hc, hp, ht => by
    have hb : Prints ("except" ++ b.print d) (.keyword .except :: b.kinds) d :=
      b.prints_word .except (b.prints hl hc hp) fun _ => rfl
    simpa [printHandler, kindsOfHandler, String.append_assoc] using ht.next hb
  | some ⟨some v, b⟩, _, d, _, _, hn, hl, hc, hp, ht => by
    have hhead : Spells ("except as " ++ v.name) (words [.keyword .except, .keyword .as_, .identifier v.name]) :=
      stands_exceptAs.append_spells (Lexeme.spells_name (hn v b rfl))
    have hb := b.prints hl hc hp (d := d) (.append (by decide) _) hhead
      (.cons rfl (fun _ => rfl) (.cons rfl (fun _ => rfl) (.cons rfl (fun _ => rfl) .nil)))
    simpa [printHandler, kindsOfHandler, String.append_assoc] using ht.next hb

theorem prints_cleanup : ∀ {f : Option (Block α)} {c : Place} {d : Nat} {text : String} {ks : List TokenKind},
    cleanupPasses .lexical f = true → cleanupPasses .clear f = true → CleanupPlaced c f → Prints text ks d →
    Prints (text ++ printCleanup d f) (ks ++ kindsOfCleanup f) d
  | none, _, _, _, _, _, _, _, ht => by simpa [printCleanup, kindsOfCleanup] using ht
  | some b, _, d, _, _, hl, hc, hp, ht => by
    have hb : Prints ("finally" ++ b.print d) (.keyword .finally_ :: b.kinds) d :=
      b.prints_word .finally_ (b.prints hl hc hp) fun _ => rfl
    simpa [printCleanup, kindsOfCleanup, String.append_assoc] using ht.next hb

end

theorem intercalate_printStmts (text : String) (ss : List (Stmt α)) :
    String.intercalate "\n" (text :: ss.map (Stmt.print 0)) = text ++ printStmts 0 ss := by
  induction ss generalizing text with
  | nil => simp [printStmts]
  | cons s ss ih =>
    rw [List.map_cons, String.intercalate_cons_cons, ih, printStmts, String.append_assoc, String.append_assoc]
    rfl

theorem Program.print_cons (s : Stmt α) (ss : List (Stmt α)) :
    Program.print (s :: ss) = s.print 0 ++ printStmts 0 ss :=
  intercalate_printStmts _ _

/-- The tokens of a whole script, which can all be read. -/
theorem Program.kinds_tokens {p : Program α} (hl : stmtsPass .lexical p = true) (hc : stmtsPass .clear p = true)
    (hp : p.Placed) (name : String) :
    (Source.tokens ⟨name, p.print⟩).map Token.kind = kindsOfStmts p ++ [.endOfFile] ∧
      ∀ k ∈ kindsOfStmts p ++ [.endOfFile], k.isError = false := by
  rw [Source.kinds_tokens]
  cases p with
  | nil =>
    change kindsFrom .start none (outline "".toList) = _ ∧ _
    rw [String.toList_empty, outline_nil]
    exact ⟨rfl, by simp [kindsOfStmts, TokenKind.isError]⟩
  | cons s ss =>
    simp only [stmtsPass, Bool.and_eq_true] at hl hc
    obtain ⟨-, ps, hspell, hemit⟩ := prints_stmts hl.2 hc.2 hp.2 (s.prints 0 hl.1 hc.1 hp.1)
    have := hspell [] (by simp [Lexeme.Breaks])
    rw [List.append_nil, outline_nil, List.append_nil] at this
    rw [print_cons, this, hemit.kinds_eq, kindsOfStmts]
    exact ⟨rfl, List.forall_mem_append.2 ⟨hemit.sound, by simp [TokenKind.isError]⟩⟩

end DocScript
