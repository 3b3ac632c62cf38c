import DocScript.Proofs.Print.Kinds
import DocScript.Proofs.Print.Positions

/-!
# Expressions are read back from their tokens
-/

namespace DocScript

open Parse

variable {α : Type}

/-! ## Where expressions begin and end -/

/-- The token goes on with the operand in front of it. -/
def isPostfix : TokenKind → Bool
  | .symbol .lparen | .symbol .lbracket | .symbol .dot | .symbol .arrow | .symbol .lbrace => true
  | _ => false

/-- The token does not go on with the expression in front of it. -/
def endsExpr (k : TokenKind) : Bool := !isPostfix k && (BinaryOp.ofToken? k).isNone

theorem endsExpr_iff {k : TokenKind} :
    endsExpr k = true ↔ isPostfix k = false ∧ BinaryOp.ofToken? k = none := by
  simp [endsExpr]

/-- An expression can begin with the token. -/
def startsExpr : TokenKind → Bool
  | .number _ | .string _ | .identifier _ => true
  | .keyword k => k ∈ [.none, .true, .false, .lambda, .not]
  | .symbol s => s ∈ [.lparen, .lbracket, .lbrace, .minus, .plus]
  | _ => false

theorem BinaryOp.isPostfix_kind (op : BinaryOp) : isPostfix op.kind = false := by
  cases op <;> rfl

theorem Expr.exists_kinds_eq : ∀ e : Expr α, ∃ k ks, e.kinds = k :: ks ∧ startsExpr k = true
  | .none _ => ⟨_, _, rfl, rfl⟩
  | .bool _ true => ⟨_, _, rfl, rfl⟩
  | .bool _ false => ⟨_, _, rfl, rfl⟩
  | .number _ _ => ⟨_, _, rfl, rfl⟩
  | .str _ _ => ⟨_, _, rfl, rfl⟩
  | .var _ _ => ⟨_, _, rfl, rfl⟩
  | .binary _ op l r => by
    obtain ⟨k, ks, h, hk⟩ := l.exists_kinds_eq
    rw [Expr.kinds, enclose]
    split
    · exact ⟨_, _, rfl, rfl⟩
    · exact ⟨k, _, by rw [h, List.cons_append], hk⟩
  | .unary _ op _ => ⟨_, _, rfl, by cases op <;> rfl⟩
  | .call _ c _ => by
    obtain ⟨k, ks, h, hk⟩ := c.exists_kinds_eq
    exact ⟨k, _, by rw [Expr.kinds, h, List.cons_append], hk⟩
  | .index _ o _ => by
    obtain ⟨k, ks, h, hk⟩ := o.exists_kinds_eq
    exact ⟨k, _, by rw [Expr.kinds, h, List.cons_append], hk⟩
  | .arrow _ o _ => by
    obtain ⟨k, ks, h, hk⟩ := o.exists_kinds_eq
    exact ⟨k, _, by rw [Expr.kinds, h, List.cons_append], hk⟩
  | .protoDict _ p _ => by
    obtain ⟨k, ks, h, hk⟩ := p.exists_kinds_eq
    exact ⟨k, _, by rw [Expr.kinds, h, List.cons_append], hk⟩
  | .list _ _ => ⟨_, _, rfl, rfl⟩
  | .dict _ _ => ⟨_, _, rfl, rfl⟩
  | .lambda _ ⟨_, _, ⟨_, _⟩⟩ => ⟨_, _, rfl, rfl⟩

/-- Literals, variables, lists and dicts. -/
def Expr.isAtom : Expr α → Bool
  | .none _ | .bool _ _ | .number _ _ | .str _ _ | .var _ _ | .list _ _ | .dict _ _ => true
  | _ => false

/-- What the calls, indices, arrows and entry lists of an operand are written behind. -/
def Expr.base : Expr α → Expr α
  | .call _ c _ => c.base
  | .index _ o _ => o.base
  | .arrow _ o _ => o.base
  | .protoDict _ p _ => p.base
  | e => e

/-- The tokens behind the base of an operand. -/
def Expr.trail : Expr α → List TokenKind
  | .call _ c as => c.trail ++ .symbol .lparen :: (commaKinds (kindsOfExprs as) ++ [.symbol .rparen])
  | .index _ o k => o.trail ++ .symbol .lbracket :: (k.kinds ++ [.symbol .rbracket])
  | .arrow _ o k => o.trail ++ .symbol .arrow :: .symbol .lbracket :: (k.kinds ++ [.symbol .rbracket])
  | .protoDict _ p es => p.trail ++ .symbol .lbrace :: (commaKinds (kindsOfEntries es) ++ [.symbol .rbrace])
  | _ => []

theorem Expr.kinds_base_trail : ∀ e : Expr α, e.kinds = e.base.kinds ++ e.trail
  | .none _ | .bool _ true | .bool _ false | .number _ _ | .str _ _ | .var _ _ | .binary .. | .unary ..
  | .list _ _ | .dict _ _ | .lambda _ _ => (List.append_nil _).symm
  | .call _ c _ => by rw [Expr.kinds, c.kinds_base_trail, base, trail, List.append_assoc]
  | .index _ o _ => by rw [Expr.kinds, o.kinds_base_trail, base, trail, List.append_assoc]
  | .arrow _ o _ => by rw [Expr.kinds, o.kinds_base_trail, base, trail, List.append_assoc]
  | .protoDict _ p _ => by rw [Expr.kinds, p.kinds_base_trail, base, trail, List.append_assoc]

/-- The tokens behind the base begin with one that goes on with an operand. -/
theorem Expr.trail_cases : ∀ e : Expr α,
    e.base = e ∧ e.trail = [] ∨ ∃ k ks, e.trail = k :: ks ∧ isPostfix k = true
  | .none _ | .bool _ _ | .number _ _ | .str _ _ | .var _ _ | .binary .. | .unary ..
  | .list _ _ | .dict _ _ | .lambda _ _ => .inl ⟨rfl, rfl⟩
  | .call _ c _ => .inr (by
    obtain ⟨-, h⟩ | ⟨k, ks, h, hk⟩ := c.trail_cases
    · exact ⟨_, _, by rw [trail, h, List.nil_append], rfl⟩
    · exact ⟨k, _, by rw [trail, h, List.cons_append], hk⟩)
  | .index _ o _ => .inr (by
    obtain ⟨-, h⟩ | ⟨k, ks, h, hk⟩ := o.trail_cases
    · exact ⟨_, _, by rw [trail, h, List.nil_append], rfl⟩
    · exact ⟨k, _, by rw [trail, h, List.cons_append], hk⟩)
  | .arrow _ o _ => .inr (by
    obtain ⟨-, h⟩ | ⟨k, ks, h, hk⟩ := o.trail_cases
    · exact ⟨_, _, by rw [trail, h, List.nil_append], rfl⟩
    · exact ⟨k, _, by rw [trail, h, List.cons_append], hk⟩)
  | .protoDict _ p _ => .inr (by
    obtain ⟨-, h⟩ | ⟨k, ks, h, hk⟩ := p.trail_cases
    · exact ⟨_, _, by rw [trail, h, List.nil_append], rfl⟩
    · exact ⟨k, _, by rw [trail, h, List.cons_append], hk⟩)

/-! ## Readers at the end of an expression -/

namespace Parse.Gets

variable {k : TokenKind} {K : List TokenKind} {b : Body}

theorem postfixes_stop (h : isPostfix k = false) (n : Nat) (e : Expr Span) :
    (postfixes n e).Gets (k :: K) (k :: K) b b (· = e) := by
  cases n with
  | zero => exact .outOfFuel
  | succ n =>
    rw [postfixes]
    refine Gets.peekKind.bind ?_
    rintro _ rfl
    split
    · simp [isPostfix] at h
    · simp [isPostfix] at h
    · simp [isPostfix] at h
    · simp [isPostfix] at h
    · simp [isPostfix] at h
    · exact .pure rfl

theorem operators_stop (h : BinaryOp.ofToken? k = none) (n min : Nat) (e : Expr Span) :
    (operators n min e).Gets (k :: K) (k :: K) b b (· = e) := by
  cases n with
  | zero => exact .outOfFuel
  | succ n =>
    rw [operators]
    refine Gets.peekKind.bind ?_
    rintro _ rfl
    rw [h]
    exact .pure rfl

end Parse.Gets

/-! ## What it means to read an expression back -/

/-- The operand `e` is read in two steps : its base by `primary`, up to the body `b₁`, and what follows the base
by `postfixes`, which goes on behind `e` from an expression that is `e` again. -/
structure Expr.Links (e : Expr α) (b b₁ b' : Body) : Prop where
  atom : e.base.isAtom = true
  base : ∀ n k K, (primary n).Gets (e.base.kinds ++ k :: K) (k :: K) b b₁ (·.erase = e.base.erase)
  name : ∀ a v, e.base = .var a v → b.scopeOf v.name = v.scope ∧ b₁ = b.refer v.name
  trail : ∀ {k ks K b'' Q}, (∀ m x, x.erase = e.erase → (postfixes m x).Gets (k :: ks) K b' b'' Q) →
    ∀ m x, x.erase = e.base.erase → (postfixes m x).Gets (e.trail ++ k :: ks) K b₁ b'' Q

/-- The expression is read back from its tokens, as an operand, as a whole, and as a key. -/
structure Expr.ReadBack (e : Expr α) : Prop where
  operand : e.isCompound = false → ∀ {b b'}, e.Legible b b' → ∃ b₁, e.Links b b₁ b'
  whole : ∀ {b b'}, e.Legible b b' → ∀ n {k K}, endsExpr k = true →
    (expression n).Gets (e.kinds ++ k :: K) (k :: K) b b' (·.erase = e.erase)
  key : Check.isVar e = false → ∀ {b b'}, e.Legible b b' → ∀ n {K},
    (dictKey n).Gets (e.kinds ++ .symbol .colon :: K) (.symbol .colon :: K) b b' (·.erase = e.erase)

variable {e l r : Expr α} {b b₁ b' : Body} {k : TokenKind} {K : List TokenKind}

theorem Expr.isAtom_head (h : e.isAtom = true) {ks : List TokenKind} (hk : e.kinds = k :: ks) :
    UnaryOp.ofToken? k = .none ∧ k ≠ .keyword .lambda ∧
      ∀ x, k = .identifier x → ks = [] ∧ ∃ a v, e = .var a v ∧ v.name = x := by
  cases e with
  | bool a b => cases b <;> cases hk <;> simp [UnaryOp.ofToken?]
  | none | number | str | list | dict => cases hk; simp [UnaryOp.ofToken?]
  | var a v => cases hk; simp [UnaryOp.ofToken?]
  | _ => simp [isAtom] at h

theorem exists_cons_of_append_cons (ks : List TokenKind) (k : TokenKind) (K : List TokenKind) :
    ∃ k₁ K₁, ks ++ k :: K = k₁ :: K₁ := by
  cases ks with
  | nil => exact ⟨_, _, rfl⟩
  | cons k₁ ks => exact ⟨_, _, rfl⟩

/-- An operand is read by `unary`. -/
theorem Expr.Links.unary_gets (h : e.Links b b₁ b') (hk : isPostfix k = false) (n : Nat) :
    (Parse.unary n).Gets (e.kinds ++ k :: K) (k :: K) b b' (·.erase = e.erase) := by
  cases n with
  | zero => exact .outOfFuel
  | succ n =>
    obtain ⟨k₀, ks, hks, -⟩ := e.base.exists_kinds_eq
    obtain ⟨hu, hl, -⟩ := isAtom_head h.atom hks
    obtain ⟨k₁, K₁, hrest⟩ := exists_cons_of_append_cons e.trail k K
    have hbase := h.base n k₁ K₁
    rw [← hrest, hks, List.cons_append] at hbase
    rw [kinds_base_trail, hks, List.append_assoc, List.cons_append, Parse.unary]
    refine Gets.peek.bind ?_
    rintro t rfl
    rw [hu]
    simp only [if_neg hl]
    refine hbase.bind fun x hx => h.trail (fun m y hy => ?_) n x hx
    exact (Gets.postfixes_stop hk m y).mono fun z hz => hz ▸ hy

theorem Expr.erase_reannotate (a : α) (e : Expr α) : (e.reannotate a).erase = e.erase := by
  cases e <;> simp [reannotate, erase]

/-- An expression in parentheses is read by `primary`. -/
theorem Expr.ReadBack.parenthesized (h : e.ReadBack) (he : e.Legible b b') (n : Nat) :
    (primary n).Gets (.symbol .lparen :: (e.kinds ++ [.symbol .rparen]) ++ k :: K) (k :: K) b b'
      (·.erase = e.erase) := by
  cases n with
  | zero => exact .outOfFuel
  | succ n =>
    rw [primary, List.cons_append, List.append_assoc, List.singleton_append]
    refine Gets.peek.bind fun t ht => ?_
    simp only [ht]
    refine (Gets.advance (by simp)).bind fun _ _ => (h.whole he n rfl).bind fun x hx => ?_
    exact (Gets.expect (by simp)).bind fun close _ => .pure ((erase_reannotate _ x).trans hx)

/-- An operand in its parentheses, if it needs them, is read by `unary`. -/
theorem Expr.ReadBack.enclosed (h : e.ReadBack) (he : e.Legible b b') (hk : isPostfix k = false) (n : Nat) :
    (Parse.unary n).Gets (e.enclose e.kinds ++ k :: K) (k :: K) b b' (·.erase = e.erase) := by
  unfold enclose
  split
  · cases n with
    | zero => exact .outOfFuel
    | succ n =>
      have hp := h.parenthesized he n (k := k) (K := K)
      rw [List.cons_append] at hp ⊢
      rw [Parse.unary]
      refine Gets.peek.bind fun t ht => ?_
      simp only [ht, UnaryOp.ofToken?]
      rw [if_neg (by simp)]
      refine hp.bind fun x hx => ?_
      exact (Gets.postfixes_stop hk n x).mono fun z hz => hz ▸ hx
  · next hc =>
    obtain ⟨b₁, hl⟩ := h.operand (by simpa using hc) he
    exact hl.unary_gets hk n

/-- Behind the left operand of an operation, its operator and its right operand are read. -/
theorem Expr.ReadBack.operators_gets (hr : r.ReadBack) (h : r.Legible b b') (hk : endsExpr k = true) (op : BinaryOp)
    (n : Nat) (x : Expr Span) : (operators n 0 x).Gets (op.kind :: (r.enclose r.kinds ++ k :: K)) (k :: K) b b'
      fun y => ∃ a z, y = .binary a op x z ∧ z.erase = r.erase := by
  rw [endsExpr_iff] at hk
  cases n with
  | zero => exact .outOfFuel
  | succ n =>
    rw [operators]
    refine Gets.peekKind.bind ?_
    rintro _ rfl
    rw [BinaryOp.ofToken?_kind]
    simp only [Nat.not_lt_zero, if_false]
    refine (Gets.advance (by simp)).bind fun _ _ => ?_
    have hop : (operation n (op.level + 1)).Gets (r.enclose r.kinds ++ k :: K) (k :: K) b b' (·.erase = r.erase) := by
      cases n with
      | zero => exact .outOfFuel
      | succ n =>
        rw [operation]
        refine (hr.enclosed h hk.1 n).bind fun z hz => ?_
        exact (Gets.operators_stop hk.2 n _ z).mono fun _ hy => hy ▸ hz
    refine hop.bind fun z hz => ?_
    exact (Gets.operators_stop hk.2 n 0 _).mono fun y hy => ⟨_, z, hy, hz⟩

/-! ## Lists -/

/-- The token ends a list : no item begins with it, and it goes on with none. -/
def closesList (k : TokenKind) : Bool := endsExpr k && k != .symbol .comma && !startsExpr k

theorem closesList_iff {k : TokenKind} :
    closesList k = true ↔ endsExpr k = true ∧ k ≠ .symbol .comma ∧ startsExpr k = false := by
  simp [closesList, and_assoc]

theorem params_gets {close : TokenKind} (hc : closesList close = true) :
    ∀ (n : Nat) (ps : List String), (params close n).Gets (commaKinds (nameKinds ps) ++ close :: K) (close :: K) b b
      (· = ps)
  | 0, _ => .outOfFuel
  | n + 1, ps => by
    obtain ⟨-, hcomma, hstart⟩ := closesList_iff.1 hc
    have hname : ∀ x, TokenKind.identifier x ≠ close := by
      rintro x rfl
      simp [startsExpr] at hstart
    rw [params]
    match ps with
    | [] =>
      refine (Gets.at? close).bind ?_
      rintro _ rfl
      simp only [decide_true, if_true]
      exact .pure rfl
    | [x] =>
      refine (Gets.at? close).bind ?_
      rintro _ rfl
      simp only [hname, decide_false, Bool.false_eq_true, if_false]
      refine (Gets.identifier (by simp)).bind ?_
      rintro ⟨_, _⟩ rfl
      refine (Gets.eat_other hcomma).bind ?_
      rintro _ rfl
      exact .pure rfl
    | x :: y :: ps =>
      refine (Gets.at? close).bind ?_
      rintro _ rfl
      simp only [hname, decide_false, Bool.false_eq_true, if_false]
      refine (Gets.identifier (by simp)).bind ?_
      rintro ⟨_, _⟩ rfl
      refine (Gets.eat (by simp)).bind ?_
      rintro _ rfl
      refine (params_gets hc n (y :: ps)).bind ?_
      rintro _ rfl
      exact .pure rfl

/-- The tokens of several expressions begin like those of the first one. -/
theorem exists_commaKinds_eq (e : Expr α) (es : List (Expr α)) :
    ∃ k ks, commaKinds (kindsOfExprs (e :: es)) = k :: ks ∧ startsExpr k = true := by
  obtain ⟨k, ks, h, hk⟩ := e.exists_kinds_eq
  cases es with
  | nil => exact ⟨k, ks, h, hk⟩
  | cons e' es => exact ⟨k, _, by rw [kindsOfExprs, kindsOfExprs, commaKinds, h, List.cons_append], hk⟩

/-- In front of a list that is not empty its closing token is not found. -/
theorem Parse.Gets.at?_other {β : Type} {close : TokenKind} {ks K K' : List TokenKind} {f : Bool → Parse β}
    {Q : β → Prop} (hks : ∃ k ks', ks = k :: ks' ∧ startsExpr k = true) (hc : startsExpr close = false)
    (h : (f false).Gets (ks ++ K) K' b b' Q) : (Parse.at? close >>= f).Gets (ks ++ K) K' b b' Q := by
  obtain ⟨k, ks', rfl, hk⟩ := hks
  refine (Gets.at? close).bind ?_
  rintro _ rfl
  have hne : k ≠ close := by
    rintro rfl
    simp [hk] at hc
  rw [decide_eq_false hne]
  exact h

theorem commaList_gets {close : TokenKind} (hc : closesList close = true) :
    ∀ (n : Nat) {es : List (Expr α)} {b : Body}, (∀ e ∈ es, e.ReadBack) → ExprsLegible es b b' →
      (commaList close n).Gets (commaKinds (kindsOfExprs es) ++ close :: K) (close :: K) b b'
        (eraseExprs · = eraseExprs es)
  | 0, _, _, _, _ => .outOfFuel
  | n + 1, [], b, _, hl => by
    rw [commaList, hl.eq_of_nil]
    refine (Gets.at? close).bind ?_
    rintro _ rfl
    simp only [decide_true, if_true]
    exact .pure rfl
  | n + 1, e :: es, b, he, hl => by
    obtain ⟨hend, hcomma, hstart⟩ := closesList_iff.1 hc
    obtain ⟨b₁, h₁, h₂⟩ := hl.split
    have hes : ∀ e' ∈ es, e'.ReadBack := fun e' h => he e' (by simp [h])
    rw [commaList]
    refine .at?_other (exists_commaKinds_eq e es) hstart ?_
    simp only [Bool.false_eq_true, if_false]
    cases es with
    | nil =>
      obtain rfl := h₂.eq_of_nil
      refine ((he e (by simp)).whole h₁ n hend).bind fun x hx => (Gets.eat_other hcomma).bind ?_
      rintro _ rfl
      exact .pure (congrArg (fun y => [y]) hx)
    | cons e' es =>
      rw [kindsOfExprs, kindsOfExprs, commaKinds, List.append_assoc, List.cons_append]
      refine ((he e (by simp)).whole h₁ n rfl).bind fun x hx => ?_
      refine (Gets.eat (by simp)).bind ?_
      rintro _ rfl
      refine (commaList_gets hc n hes h₂).bind fun xs hxs => ?_
      exact .pure (congrArg₂ List.cons hx hxs)

/-! ## Keys and entries -/

/-- A key that begins with a name is the expression that goes on behind it, unless it ends there. -/
theorem dictKey_named {x : String} {k : TokenKind} {ks K : List TokenKind} {Q : Expr Span → Prop}
    (hk : k ≠ .symbol .colon)
    (h : ∀ n span, (do
      let v ← resolve x
      let e ← postfixes n (.var span v)
      operators n 0 e).Gets (k :: ks) K b b' Q) (n : Nat) :
    (dictKey n).Gets (.identifier x :: k :: ks) K b b' Q := by
  cases n with
  | zero => exact .outOfFuel
  | succ n =>
    rw [dictKey]
    refine Gets.peek.bind fun t ht => ?_
    simp only [ht]
    refine (Gets.advance (by simp)).bind fun _ _ => (Gets.at? _).bind ?_
    rintro _ rfl
    simp only [hk, decide_false, Bool.false_eq_true, if_false]
    exact h n t.span

/-- Any other key is read as an expression. -/
theorem dictKey_other {ks K : List TokenKind} {Q : Expr Span → Prop} (hk : ∀ x, k ≠ .identifier x)
    (h : ∀ n, (expression n).Gets (k :: ks) K b b' Q) (n : Nat) : (dictKey n).Gets (k :: ks) K b b' Q := by
  cases n with
  | zero => exact .outOfFuel
  | succ n =>
    rw [dictKey]
    refine Gets.peek.bind fun t ht => ?_
    split
    · next x hx => exact absurd (ht.symm.trans hx) (hk x)
    · exact h n

/-- Behind its name, an operand that begins with one is read by `postfixes`. -/
theorem Expr.Links.named (h : e.Links b b₁ b') (hk : isPostfix k = false) {a : α} {v : Variable}
    (hv : e.base = .var a v) {b'' : Body} {K' : List TokenKind} {f : Expr Span → Parse (Expr Span)}
    {Q : Expr Span → Prop} (hf : ∀ x, x.erase = e.erase → (f x).Gets (k :: K) K' b' b'' Q) (n : Nat)
    (span : Span) :
    (do
      let v ← resolve v.name
      let x ← postfixes n (.var span v)
      f x).Gets (e.trail ++ k :: K) K' b b'' Q := by
  obtain ⟨hs, rfl⟩ := h.name a v hv
  refine (Gets.resolve v.name).bind ?_
  rintro _ rfl
  refine Gets.bind (Q := fun x => x.erase = e.erase) ?_ hf
  refine h.trail (fun m y hy => (Gets.postfixes_stop hk m y).mono fun z hz => hz ▸ hy) n _ ?_
  rw [hv, hs]
  rfl

/-- An operand either begins with a name, and then its tokens are the name and the trail, or with something
else. -/
theorem Expr.Links.kinds_cases (h : e.Links b b₁ b') :
    (∃ a v, e.base = .var a v ∧ e.kinds = .identifier v.name :: e.trail) ∨
      ∃ k ks, e.kinds = k :: ks ∧ ∀ x, k ≠ .identifier x := by
  obtain ⟨k, ks, hks, -⟩ := e.base.exists_kinds_eq
  obtain ⟨-, -, hname⟩ := isAtom_head h.atom hks
  have hkinds : e.kinds = k :: (ks ++ e.trail) := by rw [kinds_base_trail, hks, List.cons_append]
  by_cases hid : ∃ x, k = .identifier x
  · obtain ⟨x, rfl⟩ := hid
    obtain ⟨rfl, a, v, hv, rfl⟩ := hname x rfl
    exact .inl ⟨a, v, hv, hkinds⟩
  · exact .inr ⟨k, _, hkinds, fun x hx => hid ⟨x, hx⟩⟩

/-- An operand other than a variable is read as a key. -/
theorem Expr.Links.key (h : e.Links b b₁ b') (hv : Check.isVar e = false)
    (hw : ∀ n, (expression n).Gets (e.kinds ++ .symbol .colon :: K) (.symbol .colon :: K) b b' (·.erase = e.erase))
    (n : Nat) : (dictKey n).Gets (e.kinds ++ .symbol .colon :: K) (.symbol .colon :: K) b b' (·.erase = e.erase) := by
  obtain ⟨a, v, hbase, hkinds⟩ | ⟨k, ks, hkinds, hk⟩ := h.kinds_cases
  · obtain ⟨he, -⟩ | ⟨k₁, ks₁, ht, hk₁⟩ := e.trail_cases
    · rw [← he, hbase] at hv
      simp [Check.isVar] at hv
    · rw [hkinds, ht, List.cons_append, List.cons_append]
      refine dictKey_named (by rintro rfl; simp [isPostfix] at hk₁) (fun m span => ?_) n
      rw [← List.cons_append, ← ht]
      refine h.named rfl hbase (fun x hx => ?_) m span
      exact (Gets.operators_stop rfl m 0 x).mono fun y hy => hy ▸ hx
  · rw [hkinds, List.cons_append] at hw ⊢
    exact dictKey_other hk hw n

/-! ## Operands and operations -/

/-- Operands are read back as soon as their links are. -/
theorem Expr.ReadBack.of_links (h : ∀ {b b'}, e.Legible b b' → ∃ b₁, e.Links b b₁ b') :
    e.ReadBack := by
  have whole : ∀ {b b'}, e.Legible b b' → ∀ n {k K}, endsExpr k = true →
      (expression n).Gets (e.kinds ++ k :: K) (k :: K) b b' (·.erase = e.erase) := by
    intro b b' he n k K hk
    obtain ⟨b₁, hl⟩ := h he
    obtain ⟨hp, ho⟩ := endsExpr_iff.1 hk
    match n with
    | 0 => exact .outOfFuel
    | 1 => exact .outOfFuel
    | n + 2 =>
      rw [expression, operation]
      exact (hl.unary_gets hp n).bind fun x hx => (Gets.operators_stop ho n 0 x).mono fun y hy => hy ▸ hx
  refine ⟨fun _ => h, whole, fun hv b b' he n K => ?_⟩
  obtain ⟨b₁, hl⟩ := h he
  exact hl.key hv (fun m => whole he m rfl) n

/-- The left operand and what follows it, as a whole expression and as a key. -/
theorem readBack_binary (a : α) (op : BinaryOp) (hl : l.ReadBack) (hr : r.ReadBack) :
    (Expr.binary a op l r).ReadBack := by
  have hop : isPostfix op.kind = false := op.isPostfix_kind
  have whole : ∀ {b b'}, (Expr.binary a op l r).Legible b b' → ∀ n {k K}, endsExpr k = true →
      (expression n).Gets ((Expr.binary a op l r).kinds ++ k :: K) (k :: K) b b'
        (·.erase = (Expr.binary a op l r).erase) := by
    intro b b' he n k K hk
    obtain ⟨-, -, he⟩ := he.node
    obtain ⟨b₁, h₁, h₂⟩ := he.split
    obtain _ | _ | n := n
    · exact .outOfFuel
    · exact .outOfFuel
    · rw [expression, operation, Expr.kinds, List.append_assoc, List.cons_append]
      refine (hl.enclosed h₁ hop n).bind fun x hx => (hr.operators_gets h₂ hk op n x).mono ?_
      rintro _ ⟨a', z, rfl, hz⟩
      rw [Expr.erase, Expr.erase, hx, hz]
  refine ⟨by simp [Expr.isCompound], whole, fun _ b b' he n K => ?_⟩
  obtain ⟨-, -, he'⟩ := he.node
  obtain ⟨b₁, h₁, h₂⟩ := he'.split
  -- only a left operand without parentheses can begin with a name
  have other : ∀ {k ks}, (∀ x, k ≠ .identifier x) → (Expr.binary a op l r).kinds = k :: ks →
      (dictKey n).Gets ((Expr.binary a op l r).kinds ++ .symbol .colon :: K) (.symbol .colon :: K) b b'
        (·.erase = (Expr.binary a op l r).erase) := by
    intro k ks hk hks
    have hw : ∀ m, (expression m).Gets ((Expr.binary a op l r).kinds ++ .symbol .colon :: K)
        (.symbol .colon :: K) b b' (·.erase = (Expr.binary a op l r).erase) := fun m => whole he m rfl
    rw [hks, List.cons_append] at hw ⊢
    exact dictKey_other hk hw n
  cases hc : l.isCompound with
  | true => exact other (k := .symbol .lparen) (by simp) (by rw [Expr.kinds, Expr.enclose, if_pos hc]; rfl)
  | false =>
    obtain ⟨b₂, hlinks⟩ := hl.operand hc h₁
    have hkinds : (Expr.binary a op l r).kinds = l.kinds ++ op.kind :: r.enclose r.kinds := by
      rw [Expr.kinds, Expr.enclose, if_neg (by simp [hc])]
    obtain ⟨a', v, hbase, hl'⟩ | ⟨k, ks, hl', hk⟩ := hlinks.kinds_cases
    · obtain ⟨k₁, K₁, hrest⟩ := exists_cons_of_append_cons l.trail op.kind
        (r.enclose r.kinds ++ .symbol .colon :: K)
      have hcolon : k₁ ≠ .symbol .colon := by
        obtain ⟨-, ht⟩ | ⟨k₂, ks₂, ht, hk₂⟩ := l.trail_cases
        · rw [ht, List.nil_append] at hrest
          rw [← (List.cons.inj hrest).1]
          cases op <;> simp [BinaryOp.kind]
        · rw [ht, List.cons_append] at hrest
          rw [← (List.cons.inj hrest).1]
          rintro rfl
          simp [isPostfix] at hk₂
      rw [hkinds, hl', List.append_assoc, List.cons_append, List.cons_append, hrest]
      refine dictKey_named hcolon (fun m span => ?_) n
      rw [← hrest]
      refine hlinks.named hop hbase (fun x hx => (hr.operators_gets h₂ rfl op m x).mono ?_) m span
      rintro _ ⟨a'', z, rfl, hz⟩
      rw [Expr.erase, Expr.erase, hx, hz]
    · exact other hk (by rw [hkinds, hl', List.cons_append])

theorem readBack_unary (a : α) (op : UnaryOp) (h : e.ReadBack) : (Expr.unary a op e).ReadBack := by
  have hne : ∀ x, op.kind ≠ .identifier x := fun x => by cases op <;> simp [UnaryOp.kind]
  have whole : ∀ {b b'}, (Expr.unary a op e).Legible b b' → ∀ n {k K}, endsExpr k = true →
      (expression n).Gets ((Expr.unary a op e).kinds ++ k :: K) (k :: K) b b'
        (·.erase = (Expr.unary a op e).erase) := by
    intro b b' he n k K hk
    obtain ⟨-, -, he⟩ := he.node
    obtain ⟨hp, ho⟩ := endsExpr_iff.1 hk
    obtain _ | _ | _ | n := n
    · exact .outOfFuel
    · exact .outOfFuel
    · exact .outOfFuel
    · rw [expression, operation, Parse.unary, Expr.kinds, List.cons_append]
      refine Gets.bind (Q := (·.erase = (Expr.unary a op e).erase)) ?_ fun x hx =>
        (Gets.operators_stop ho _ 0 x).mono fun y hy => hy ▸ hx
      refine Gets.peek.bind fun t ht => ?_
      rw [ht, UnaryOp.ofToken?_kind]
      refine (Gets.advance (by simp)).bind fun _ _ => (h.enclosed he hp n).bind fun x hx => .pure ?_
      rw [Expr.erase, Expr.erase, hx]
  refine ⟨by simp [Expr.isCompound], whole, fun _ b b' he n K => ?_⟩
  have hw : ∀ m, (expression m).Gets ((Expr.unary a op e).kinds ++ .symbol .colon :: K)
      (.symbol .colon :: K) b b' (·.erase = (Expr.unary a op e).erase) := fun m => whole he m rfl
  exact dictKey_other hne hw n

/-- The result of a lambda is legible in the body of the lambda. -/
theorem Expr.Legible.lambda_result {a a₁ a₂ : α} {name : String} {ps : List String}
    (h : (Expr.lambda a ⟨name, ps, ⟨a₁, [.ret a₂ [e]]⟩⟩).Legible b b') :
    name = "lambda" ∧ b' = b ∧ ∃ b₁, e.Legible (.function ps) b₁ := by
  obtain ⟨hnode, -, hl, hc, hp, hf, hs⟩ := h.node
  have hname : name = "lambda" := by
    simp only [Check.lexical, Bool.and_eq_true, beq_iff_eq] at hnode
    exact hnode.1
  simp only [Function.passes, Block.passes, stmtsPass, Stmt.passes, exprsPass, Bool.and_true,
    Bool.and_eq_true] at hl hc
  obtain ⟨hown, hinner⟩ : (Body.function ps).follow? e.mentions ≠ .none ∧
      ∀ g, .function g ∈ e.mentions → g.Stamped := by
    cases hs ⟨name, ps, ⟨a₁, [.ret a₂ [e]]⟩⟩ (by simp) with
    | intro own inner =>
      simp only [Block.mentions, mentionsOfStmts, Stmt.mentions, mentionsOfExprs, List.append_nil] at own inner
      exact ⟨own, inner⟩
  obtain ⟨b₁, hb₁⟩ := Option.ne_none_iff_exists'.1 hown
  refine ⟨hname, (Option.some.inj hf).symm, b₁, hl.2, hc.2, ?_, hb₁, hinner⟩
  simp only [Placed, Function.Placed, Block.Placed, StmtsPlaced, Stmt.Placed, ExprsPlaced] at hp
  exact hp.2.1.2.1

/-- The result of a lambda is read in the body of the lambda. -/
theorem Expr.ReadBack.lambda_gets (h : e.ReadBack) {ps : List String} (he : e.Legible (.function ps) b')
    (hk : endsExpr k = true) (n : Nat) :
    (Parse.lambda n).Gets
      (.keyword .lambda :: (commaKinds (nameKinds ps) ++ .symbol .colon :: (e.kinds ++ k :: K))) (k :: K) b b
      (·.erase = .lambda () ⟨"lambda", ps, ⟨(), [.ret () [e.erase]]⟩⟩) := by
  cases n with
  | zero => exact .outOfFuel
  | succ n =>
    rw [Parse.lambda]
    refine (Gets.advance (by simp)).bind fun start _ => (params_gets rfl n ps).bind ?_
    rintro _ rfl
    refine (Gets.expect (by simp)).bind fun _ _ => ?_
    refine (Gets.inFunction (h.whole he n hk)).bind fun x hx => .pure ?_
    simp [lambdaOf, Expr.erase, Function.erase, Block.erase, eraseStmts, Stmt.erase, eraseExprs, hx]

theorem readBack_lambda (a a₁ a₂ : α) (name : String) (ps : List String) (h : e.ReadBack) :
    (Expr.lambda a ⟨name, ps, ⟨a₁, [.ret a₂ [e]]⟩⟩).ReadBack := by
  have hkinds : ∀ K : List TokenKind, (Expr.lambda a ⟨name, ps, ⟨a₁, [.ret a₂ [e]]⟩⟩).kinds ++ K =
      .keyword .lambda :: (commaKinds (nameKinds ps) ++ .symbol .colon :: (e.kinds ++ K)) := by
    simp [Expr.kinds, Function.lambdaKinds, kindsOfResult, kindsOfExprs, commaKinds]
  have whole : ∀ {b b'}, (Expr.lambda a ⟨name, ps, ⟨a₁, [.ret a₂ [e]]⟩⟩).Legible b b' → ∀ n {k K},
      endsExpr k = true → (expression n).Gets
        (.keyword .lambda :: (commaKinds (nameKinds ps) ++ .symbol .colon :: (e.kinds ++ k :: K))) (k :: K) b b'
        (·.erase = (Expr.lambda a ⟨name, ps, ⟨a₁, [.ret a₂ [e]]⟩⟩).erase) := by
    intro b b' he n k K hk
    obtain ⟨rfl, rfl, b₁, he⟩ := he.lambda_result
    obtain ⟨-, ho⟩ := endsExpr_iff.1 hk
    obtain _ | _ | _ | n := n
    · exact .outOfFuel
    · exact .outOfFuel
    · exact .outOfFuel
    · rw [expression, operation, Parse.unary]
      refine Gets.bind (Q := (·.erase = (Expr.lambda a ⟨"lambda", ps, ⟨a₁, [.ret a₂ [e]]⟩⟩).erase)) ?_
        fun x hx => (Gets.operators_stop ho _ 0 x).mono fun y hy => hy ▸ hx
      refine Gets.peek.bind fun t ht => ?_
      rw [ht]
      simp only [UnaryOp.ofToken?, if_true]
      refine (h.lambda_gets he hk n).mono fun x hx => ?_
      simp [hx, Expr.erase, Function.erase, Block.erase, eraseStmts, Stmt.erase, eraseExprs]
  refine ⟨by simp [Expr.isCompound], fun he n k K hk => ?_, fun _ b b' he n K => ?_⟩
  · rw [hkinds]
    exact whole he n hk
  · rw [hkinds]
    exact dictKey_other (by simp) (fun m => whole he m rfl) n

/-! ## Entries -/

theorem exists_commaKinds_entries (kv : Expr α × Expr α) (es : List (Expr α × Expr α)) :
    ∃ k ks, commaKinds (kindsOfEntries (kv :: es)) = k :: ks ∧ startsExpr k = true := by
  obtain ⟨k, ks, h, hk⟩ := kv.1.exists_kinds_eq
  cases es with
  | nil => exact ⟨k, _, by rw [kindsOfEntries, kindsOfEntries, commaKinds, h, List.cons_append], hk⟩
  | cons kv' es =>
    exact ⟨k, _, by
      rw [kindsOfEntries, kindsOfEntries, commaKinds, h, List.cons_append, List.cons_append], hk⟩

theorem dictEntries_gets : ∀ (n : Nat) {es : List (Expr α × Expr α)} {b : Body},
    (∀ kv ∈ es, kv.1.ReadBack ∧ kv.2.ReadBack) → es.all (!Check.isVar ·.1) = true → EntriesLegible es b b' →
      (dictEntries n).Gets (commaKinds (kindsOfEntries es) ++ .symbol .rbrace :: K) (.symbol .rbrace :: K) b b'
        (eraseEntries · = eraseEntries es)
  | 0, _, _, _, _, _ => .outOfFuel
  | n + 1, [], b, _, _, hl => by
    rw [dictEntries, hl.eq_of_nil]
    refine (Gets.at? _).bind ?_
    rintro _ rfl
    simp only [decide_true, if_true]
    exact .pure rfl
  | n + 1, (ek, ev) :: es, b, he, hv, hl => by
    rw [List.all_cons, Bool.and_eq_true, Bool.not_eq_true'] at hv
    obtain ⟨b₂, hkv, h₃⟩ := hl.split
    obtain ⟨b₁, h₁, h₂⟩ := hkv.split
    obtain ⟨hek, hev⟩ := he (ek, ev) (by simp)
    have hes : ∀ kv ∈ es, kv.1.ReadBack ∧ kv.2.ReadBack := fun kv h => he kv (by simp [h])
    rw [dictEntries]
    refine .at?_other (exists_commaKinds_entries (ek, ev) es) rfl ?_
    simp only [Bool.false_eq_true, if_false]
    cases es with
    | nil =>
      obtain rfl := h₃.eq_of_nil
      rw [kindsOfEntries, kindsOfEntries, commaKinds, List.append_assoc, List.cons_append]
      refine (hek.key hv.1 h₁ n).bind fun x hx => (Gets.expect (by simp)).bind fun _ _ => ?_
      refine (hev.whole h₂ n rfl).bind fun y hy => (Gets.eat_other (by simp)).bind ?_
      rintro _ rfl
      exact .pure (by rw [eraseEntries, eraseEntries, hx, hy]; rfl)
    | cons kv es =>
      rw [kindsOfEntries, kindsOfEntries, commaKinds, List.append_assoc, List.append_assoc, List.cons_append,
        List.cons_append]
      refine (hek.key hv.1 h₁ n).bind fun x hx => (Gets.expect (by simp)).bind fun _ _ => ?_
      refine (hev.whole h₂ n rfl).bind fun y hy => (Gets.eat (by simp)).bind ?_
      rintro _ rfl
      refine (dictEntries_gets n hes hv.2 h₃).bind fun ys hys => .pure ?_
      rw [eraseEntries, hx, hy, hys]
      rfl

theorem dictBody_gets {es : List (Expr α × Expr α)} (he : ∀ kv ∈ es, kv.1.ReadBack ∧ kv.2.ReadBack)
    (hv : es.all (!Check.isVar ·.1) = true) (hl : EntriesLegible es b b') (n : Nat) :
    (dictBody n).Gets (.symbol .lbrace :: (commaKinds (kindsOfEntries es) ++ [.symbol .rbrace]) ++ k :: K) (k :: K)
      b b' (eraseEntries ·.1 = eraseEntries es) := by
  cases n with
  | zero => exact .outOfFuel
  | succ n =>
    rw [dictBody, List.cons_append, List.append_assoc, List.singleton_append]
    refine (Gets.expect (by simp)).bind fun _ _ => (dictEntries_gets n he hv hl).bind fun ys hys => ?_
    exact (Gets.expect (by simp)).bind fun _ _ => .pure hys

/-! ## Operands, one by one -/

theorem Expr.base_of_isAtom (h : e.isAtom = true) : e.base = e ∧ e.trail = [] := by
  cases e <;> simp_all [isAtom, base, trail]

/-- An atom is its own base. -/
theorem Expr.Links.of_atom (ha : e.isAtom = true)
    (hp : ∀ n k K, (primary n).Gets (e.kinds ++ k :: K) (k :: K) b b' (·.erase = e.erase))
    (hv : ∀ a v, e = .var a v → b.scopeOf v.name = v.scope ∧ b' = b.refer v.name) : e.Links b b' b' := by
  obtain ⟨hb, ht⟩ := base_of_isAtom ha
  refine ⟨by rw [hb]; exact ha, by rw [hb]; exact hp, by rw [hb]; exact hv, fun h m x hx => ?_⟩
  rw [ht, List.nil_append]
  exact h m x (by rwa [hb] at hx)

/-- None, booleans, numbers and strings. -/
def Expr.isLiteral : Expr α → Bool
  | .none _ | .bool _ _ | .number _ _ | .str _ _ => true
  | _ => false

/-- A literal is one token, and mentions nothing. -/
theorem Expr.ReadBack.of_literal (h : e.isLiteral = true) : e.ReadBack := by
  have hatom : e.isAtom = true := by cases e <;> simp_all [isLiteral, isAtom]
  have hmentions : e.mentions = [] := by cases e <;> simp_all [isLiteral]
  refine .of_links fun {b b'} he => ?_
  unfold Legible at he
  rw [hmentions] at he
  obtain rfl := he.eq_of_nil
  refine ⟨b', .of_atom hatom (fun n k K => ?_) fun a v hv => by simp [hv, isLiteral] at h⟩
  cases n with
  | zero => exact .outOfFuel
  | succ n =>
    rw [primary]
    have take : ∀ {k₀ : TokenKind} (f : Span → Expr Span) (s : Span), (∀ s, (f s).erase = e.erase) →
        (do let _ ← advance; return f s : Parse (Expr Span)).Gets (k₀ :: k :: K) (k :: K) b' b'
          (·.erase = e.erase) :=
      fun f s hf => (Gets.advance (by simp)).bind fun _ _ => .pure (hf s)
    cases e with
    | none a =>
      refine Gets.peek.bind fun t ht => ?_
      simp only [ht]
      exact take .none t.span fun _ => rfl
    | bool a c =>
      cases c with
      | true =>
        refine Gets.peek.bind fun t ht => ?_
        simp only [ht]
        exact take (.bool · true) t.span fun _ => rfl
      | false =>
        refine Gets.peek.bind fun t ht => ?_
        simp only [ht]
        exact take (.bool · false) t.span fun _ => rfl
    | number a x =>
      refine Gets.peek.bind fun t ht => ?_
      simp only [ht]
      exact take (.number · x) t.span fun _ => rfl
    | str a s =>
      refine Gets.peek.bind fun t ht => ?_
      simp only [ht]
      exact take (.str · s) t.span fun _ => rfl
    | _ => simp [isLiteral] at h

theorem Body.follow?_occurrence {v : Variable} (h : b.follow? ([.occurrence v] : List (Mention α)) = some b') :
    b.scopeOf v.name = v.scope ∧ b' = b.refer v.name := by
  rw [follow?] at h
  split at h
  · next hs => exact ⟨hs, (Option.some.inj h).symm⟩
  · contradiction

theorem readBack_var (a : α) (v : Variable) : (Expr.var a v).ReadBack := by
  refine .of_links fun {b b'} he => ?_
  obtain ⟨hs, rfl⟩ := Body.follow?_occurrence he.follows
  refine ⟨b.refer v.name, .of_atom rfl (fun n k K => ?_) ?_⟩
  · cases n with
    | zero => exact .outOfFuel
    | succ n =>
      rw [primary]
      refine Gets.peek.bind fun t ht => ?_
      simp only [ht]
      refine (Gets.resolve v.name).bind ?_
      rintro _ rfl
      refine (Gets.advance (by simp)).bind fun _ _ => .pure ?_
      rw [hs]
      rfl
  · rintro a v ⟨⟩
    exact ⟨hs, rfl⟩

theorem readBack_list (a : α) {is : List (Expr α)} (h : ∀ e ∈ is, e.ReadBack) : (Expr.list a is).ReadBack := by
  refine .of_links fun {b b'} he => ?_
  obtain ⟨-, -, he⟩ := he.node
  refine ⟨b', .of_atom rfl (fun n k K => ?_) nofun⟩
  cases n with
  | zero => exact .outOfFuel
  | succ n =>
    rw [primary, Expr.kinds, List.cons_append, List.append_assoc, List.singleton_append]
    refine Gets.peek.bind fun t ht => ?_
    simp only [ht]
    refine (Gets.advance (by simp)).bind fun _ _ => (commaList_gets rfl n h he).bind fun xs hxs => ?_
    refine (Gets.expect (by simp)).bind fun _ _ => .pure ?_
    rw [Expr.erase, Expr.erase, hxs]

theorem readBack_dict (a : α) {es : List (Expr α × Expr α)} (h : ∀ kv ∈ es, kv.1.ReadBack ∧ kv.2.ReadBack) :
    (Expr.dict a es).ReadBack := by
  refine .of_links fun {b b'} he => ?_
  obtain ⟨-, hv, he⟩ := he.node
  refine ⟨b', .of_atom rfl (fun n k K => ?_) nofun⟩
  cases n with
  | zero => exact .outOfFuel
  | succ n =>
    have hbody := dictBody_gets h hv he n (k := k) (K := K)
    rw [primary, Expr.kinds]
    rw [List.cons_append] at hbody ⊢
    refine Gets.peek.bind fun t ht => ?_
    simp only [ht]
    refine hbody.bind ?_
    rintro ⟨ys, s⟩ hys
    exact .pure (by rw [Expr.erase, Expr.erase, hys])

/-- One more form behind an operand whose base and forms so far are linked. -/
theorem Expr.Links.extend {e' : Expr α} {b₂ : Body} {k₀ : TokenKind} {ks : List TokenKind} (h : e.Links b b₁ b₂)
    (hb : e'.base = e.base) (ht : e'.trail = e.trail ++ k₀ :: ks)
    (hp : ∀ {k K K' b'' Q}, (∀ m x, x.erase = e'.erase → (postfixes m x).Gets (k :: K) K' b' b'' Q) →
      ∀ m x, x.erase = e.erase → (postfixes m x).Gets (k₀ :: (ks ++ k :: K)) K' b₂ b'' Q) :
    e'.Links b b₁ b' := by
  refine ⟨by rw [hb]; exact h.atom, by rw [hb]; exact h.base, by rw [hb]; exact h.name, fun hq m x hx => ?_⟩
  rw [ht, List.append_assoc, List.cons_append]
  rw [hb] at hx
  exact h.trail (hp hq) m x hx

theorem readBack_call (a : α) {as : List (Expr α)} (h : e.ReadBack) (has : ∀ x ∈ as, x.ReadBack) :
    (Expr.call a e as).ReadBack := by
  refine .of_links fun {b b'} he => ?_
  obtain ⟨-, hc, he⟩ := he.node
  obtain ⟨b₂, h₁, h₂⟩ := he.split
  obtain ⟨b₁, hl⟩ := h.operand (by simpa [Check.clear] using hc) h₁
  refine ⟨b₁, hl.extend rfl rfl fun hq m x hx => ?_⟩
  cases m with
  | zero => exact .outOfFuel
  | succ m =>
    rw [postfixes, List.append_assoc, List.singleton_append]
    refine Gets.peekKind.bind ?_
    rintro _ rfl
    refine (Gets.advance (by simp)).bind fun _ _ => (commaList_gets rfl m has h₂).bind fun xs hxs => ?_
    refine (Gets.expect (by simp)).bind fun _ _ => hq m _ ?_
    rw [Expr.erase, Expr.erase, hx, hxs]

theorem readBack_index (a : α) {i : Expr α} (h : e.ReadBack) (hi : i.ReadBack) : (Expr.index a e i).ReadBack := by
  refine .of_links fun {b b'} he => ?_
  obtain ⟨-, hc, he⟩ := he.node
  obtain ⟨b₂, h₁, h₂⟩ := he.split
  obtain ⟨b₁, hl⟩ := h.operand (by simpa [Check.clear] using hc) h₁
  refine ⟨b₁, hl.extend rfl rfl fun hq m x hx => ?_⟩
  cases m with
  | zero => exact .outOfFuel
  | succ m =>
    rw [postfixes, List.append_assoc, List.singleton_append]
    refine Gets.peekKind.bind ?_
    rintro _ rfl
    refine (Gets.advance (by simp)).bind fun _ _ => (hi.whole h₂ m rfl).bind fun y hy => ?_
    refine (Gets.expect (by simp)).bind fun _ _ => hq m _ ?_
    rw [Expr.erase, Expr.erase, hx, hy]

theorem readBack_arrow (a : α) {i : Expr α} (h : e.ReadBack) (hi : i.ReadBack) : (Expr.arrow a e i).ReadBack := by
  refine .of_links fun {b b'} he => ?_
  obtain ⟨-, hc, he⟩ := he.node
  obtain ⟨b₂, h₁, h₂⟩ := he.split
  obtain ⟨b₁, hl⟩ := h.operand (by simpa [Check.clear] using hc) h₁
  refine ⟨b₁, hl.extend rfl rfl fun {k K K' b'' Q} hq m x hx => ?_⟩
  have hkey : ∀ n, (arrowKey n).Gets (.symbol .lbracket :: (i.kinds ++ .symbol .rbracket :: k :: K)) (k :: K) b₂ b'
      (·.erase = i.erase) := by
    intro n
    cases n with
    | zero => exact .outOfFuel
    | succ n =>
      rw [arrowKey]
      refine (Gets.eat (by simp)).bind ?_
      rintro _ rfl
      refine (hi.whole h₂ n rfl).bind fun y hy => ?_
      exact (Gets.expect (by simp)).bind fun _ _ => .pure hy
  cases m with
  | zero => exact .outOfFuel
  | succ m =>
    rw [postfixes, List.cons_append, List.append_assoc, List.singleton_append]
    refine Gets.peekKind.bind ?_
    rintro _ rfl
    refine (Gets.advance (by simp)).bind fun _ _ => (hkey m).bind fun y hy => ?_
    refine Gets.previous.bind fun _ _ => hq m _ ?_
    rw [Expr.erase, Expr.erase, hx, hy]

theorem readBack_protoDict (a : α) {es : List (Expr α × Expr α)} (h : e.ReadBack)
    (hes : ∀ kv ∈ es, kv.1.ReadBack ∧ kv.2.ReadBack) : (Expr.protoDict a e es).ReadBack := by
  refine .of_links fun {b b'} he => ?_
  obtain ⟨-, hc, he⟩ := he.node
  obtain ⟨b₂, h₁, h₂⟩ := he.split
  simp only [Check.clear, Bool.and_eq_true, Bool.not_eq_true'] at hc
  obtain ⟨b₁, hl⟩ := h.operand hc.1 h₁
  refine ⟨b₁, hl.extend rfl rfl fun hq m x hx => ?_⟩
  cases m with
  | zero => exact .outOfFuel
  | succ m =>
    rw [postfixes]
    refine Gets.peekKind.bind ?_
    rintro _ rfl
    refine (dictBody_gets hes hc.2 h₂ m).bind ?_
    rintro ⟨ys, s⟩ hys
    refine hq m _ ?_
    rw [Expr.erase, Expr.erase, hx, hys]

/-! ## All expressions -/

/-- Nothing has to be read back if nothing is legible : a lambda returns one expression. -/
theorem readBack_of_not_returnsOne (a : α) {f : Function α} (h : f.returnsOne = false) :
    (Expr.lambda a f).ReadBack := by
  have hf : ∀ {b b'}, ¬ (Expr.lambda a f).Legible b b' := by
    intro b b' he
    have := he.placed.1
    simp [h] at this
  exact ⟨nofun, fun he => absurd he hf, fun _ _ _ he => absurd he hf⟩

mutual

/-- Every expression is read back from its tokens. -/
theorem Expr.readBack : ∀ e : Expr α, e.ReadBack
  | .none _ => .of_literal rfl
  | .bool _ _ => .of_literal rfl
  | .number _ _ => .of_literal rfl
  | .str _ _ => .of_literal rfl
  | .var a v => readBack_var a v
  | .binary a op l r => readBack_binary a op l.readBack r.readBack
  | .unary a op e => readBack_unary a op e.readBack
  | .call a c as => readBack_call a c.readBack (readBack_exprs as)
  | .index a o i => readBack_index a o.readBack i.readBack
  | .arrow a o i => readBack_arrow a o.readBack i.readBack
  | .protoDict a p es => readBack_protoDict a p.readBack (readBack_entries es)
  | .list a is => readBack_list a (readBack_exprs is)
  | .dict a es => readBack_dict a (readBack_entries es)
  | .lambda a f => f.readBack a

theorem readBack_exprs : ∀ es : List (Expr α), ∀ e ∈ es, e.ReadBack
  | [] => nofun
  | e :: es => List.forall_mem_cons.2 ⟨e.readBack, readBack_exprs es⟩

theorem readBack_entries : ∀ es : List (Expr α × Expr α), ∀ kv ∈ es, kv.1.ReadBack ∧ kv.2.ReadBack
  | [] => nofun
  | (k, v) :: es => List.forall_mem_cons.2 ⟨⟨k.readBack, v.readBack⟩, readBack_entries es⟩

theorem Function.readBack (a : α) (f : Function α) : (Expr.lambda a f).ReadBack := by
  cases h : f.returnsOne with
  | false => exact readBack_of_not_returnsOne a h
  | true =>
    unfold Function.returnsOne at h
    split at h
    · next name ps a₁ a₂ e => exact readBack_lambda a a₁ a₂ name ps e.readBack
    · nomatch h

end

end DocScript
