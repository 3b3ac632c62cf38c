import DocScript.Proofs.Grammar.Order
import DocScript.Proofs.Spans

/-!
# Scripts are read with nested spans

What a reader gives lies between the token that it started at and the one that it stopped at. So parts that are read one
behind the other lie one behind the other, and a span that is merged from the first and the last of them covers those in
between.
-/

namespace DocScript

open DocScript.Parser

attribute [grind →] Expr.Within.holds Stmt.Within.holds Block.Within.holds

namespace Parse

/-! ## Expressions

The tokens that a reader takes are in order (`Parser.Stands`, `Parser.Onward`). What is left of each case is a chain of
inequalities between places, which `grind` puts together. -/

/-- The expression lies between the place `a` and the place that the parser has reached, at the end of a lexeme. -/
structure Reaches (a : Pos) (e : Expr Span) (q : Parser) : Prop where
  within : e.Within ⟨a, q.behind⟩
  lexeme : q.previous.kind.isLexeme = true

/-- The entries lie between the current token of `p` and the closing brace, which is the last token in front of `q`. -/
structure Encloses (p : Parser) (x : List (Expr Span × Expr Span) × Span) (q : Parser) : Prop where
  within : EntriesWithin ⟨p.here, q.behind⟩ x.1
  open_le : p.current.span.stop ≤ q.behind
  close : x.2 = q.previous.span
  here_le : p.here ≤ x.2.start
  lexeme : q.previous.kind.isLexeme = true

attribute [grind →] Reaches.within Encloses.open_le Encloses.close Encloses.here_le

variable {s : Source} {p : Parser}

/-- A token that is an expression. -/
theorem Reaches.token {e : Expr Span} {q : Parser} (hp : p.Stands s) (hk : p.current.kind.isLexeme = true)
    (hq : q.previous = p.current) (he : ∀ o : Span, o.Holds p.current.span → e.Within o) : Reaches p.here e q :=
  ⟨he _ (by grind), hq ▸ hk⟩

theorem Reaches.leaveFunction {a : Pos} {e : Expr Span} {q : Parser} (h : Reaches a e q) :
    Reaches a e q.leaveFunction :=
  ⟨by simpa [behind] using h.within, by simpa using h.lexeme⟩

theorem token_lays {e : Expr Span} (hk : p.current.kind.isLexeme = true)
    (he : ∀ o : Span, o.Holds p.current.span → e.Within o) :
    (do let _ ← advance; return e : Parse (Expr Span)).Lays s p (Reaches p.here) :=
  Lays.advance.bind fun _ _ hp _ _ hq => .pure (.token hp hk hq.2 he)

theorem params_lays (close : TokenKind) : ∀ n (p : Parser), (params close n).Lays s p fun _ _ => True
  | 0, _ => .outOfFuel
  | n + 1, p => by
    rw [params]
    refine .at?_bind ?_
    split
    · exact .pure trivial
    · refine Lays.identifier.bind fun _ q _ _ _ _ => ?_
      refine .eat_bind (fun r _ _ _ _ _ => ?_) (.pure trivial)
      exact (params_lays close n r).bind fun _ _ _ _ _ _ => .pure trivial

theorem nameKey_lays (p : Parser) : nameKey.Lays s p fun e q => Reaches p.here e q ∧ e.ann = q.previous.span := by
  refine Lays.identifier.bind fun x q hp _ _ h => ?_
  obtain ⟨name, span⟩ := x
  obtain ⟨rfl, hk, hq⟩ := h
  exact .pure ⟨.token hp hk hq fun _ => id, by rw [hq]; rfl⟩

theorem within_lambdaOf {o o' start : Span} {ps : List String} {e : Expr Span} (he : e.Within o')
    (ho : o.Holds (start.merge e.ann)) (hm : (start.merge e.ann).Holds e.ann) : (lambdaOf start ps e).Within o :=
  ⟨ho, ho.self, ⟨ho.self, he.of_holds hm, trivial⟩, trivial⟩

mutual

theorem expression_lays : ∀ n (p : Parser), (expression n).Lays s p (Reaches p.here)
  | 0, _ => .outOfFuel
  | n + 1, p => operation_lays n 0 p

theorem operation_lays : ∀ n min (p : Parser), (operation n min).Lays s p (Reaches p.here)
  | 0, _, _ => .outOfFuel
  | n + 1, min, p => by
    rw [operation]
    exact (unary_lays n p).bind fun left q _ _ _ hl => operators_lays n min q hl

theorem operators_lays : ∀ n min (p : Parser) {a : Pos} {left : Expr Span}, Reaches a left p →
    (operators n min left).Lays s p (Reaches a)
  | 0, _, _, _, _, _ => .outOfFuel
  | n + 1, min, p, a, left, hl => by
    rw [operators]
    refine .peekKind_bind ?_
    split
    · exact .pure hl
    · split
      · exact .pure hl
      · refine Lays.advance.bind fun _ q hp hq hpq _ => ?_
        refine (operation_lays n _ q).bind fun right r _ hr hqr hright => ?_
        refine operators_lays n min r ⟨⟨?_, hl.within.of_holds ?_, hright.within.of_holds ?_⟩, hright.lexeme⟩
        all_goals grind

theorem unary_lays : ∀ n (p : Parser), (unary n).Lays s p (Reaches p.here)
  | 0, _ => .outOfFuel
  | n + 1, p => by
    rw [unary]
    refine .peek_bind fun _ => ?_
    split
    · refine Lays.advance.bind fun _ q hp hq hpq ht => ?_
      refine (unary_lays n q).bind fun e r _ hr hqr he => .pure ⟨⟨?_, he.within.of_holds ?_⟩, he.lexeme⟩
      all_goals grind
    · split
      · exact lambda_lays n p
      · exact (primary_lays n p).bind fun e q _ _ _ he => postfixes_lays n q he

theorem lambda_lays : ∀ n (p : Parser), (lambda n).Lays s p (Reaches p.here)
  | 0, _ => .outOfFuel
  | n + 1, p => by
    rw [lambda]
    refine Lays.advance.bind fun t q hp hq hpq ht => ?_
    refine (params_lays _ n q).bind fun ps r _ hr hqr _ => ?_
    refine (Lays.expect _).bind fun _ u _ hu hru _ => ?_
    refine (Lays.inFunction ps (expression_lays n _) fun _ _ => .leaveFunction).bind fun e v _ hv huv he => ?_
    have he : Reaches u.here e v := he
    refine .pure ⟨within_lambdaOf he.within ?_ ?_, he.lexeme⟩
    all_goals grind

theorem postfixes_lays : ∀ n (p : Parser) {a : Pos} {e : Expr Span}, Reaches a e p →
    (postfixes n e).Lays s p (Reaches a)
  | 0, _, _, _, _ => .outOfFuel
  | n + 1, p, a, e, he => by
    rw [postfixes]
    refine .peekKind_bind ?_
    split
    · refine Lays.advance.bind fun _ q hp hq hpq _ => ?_
      refine (commaList_lays _ n q).bind fun as r _ hr hqr has => ?_
      refine (Lays.expect _).bind fun close u _ hu hru hc => ?_
      refine postfixes_lays n u ⟨⟨?_, he.within.of_holds ?_, has.mono ?_⟩, hc.lexeme rfl⟩
      all_goals grind
    · refine Lays.advance.bind fun _ q hp hq hpq _ => ?_
      refine (expression_lays n q).bind fun k r _ hr hqr hk => ?_
      refine (Lays.expect _).bind fun close u _ hu hru hc => ?_
      refine postfixes_lays n u ⟨⟨?_, he.within.of_holds ?_, hk.within.mono ?_⟩, hc.lexeme rfl⟩
      all_goals grind
    · refine Lays.advance.bind fun _ q hp hq hpq _ => ?_
      refine (nameKey_lays q).bind fun k r _ hr hqr hk => ?_
      refine postfixes_lays n r ⟨⟨?_, he.within.of_holds ?_, hk.1.within.of_holds ?_⟩, hk.1.lexeme⟩
      all_goals grind
    · refine Lays.advance.bind fun _ q hp hq hpq _ => ?_
      refine (arrowKey_lays n q).bind fun k r _ hr hqr hk => .previous_bind ?_
      refine postfixes_lays n r ⟨⟨?_, he.within.of_holds ?_, hk.1.within.mono ?_⟩, hk.1.lexeme⟩
      all_goals grind
    · refine (dictBody_lays n p).bind fun x q hp hq hpq hx => ?_
      obtain ⟨entries, close⟩ := x
      refine postfixes_lays n q ⟨⟨?_, he.within.of_holds ?_, hx.within.mono ?_⟩, hx.lexeme⟩
      all_goals grind
    · exact .pure he

theorem arrowKey_lays : ∀ n (p : Parser), (arrowKey n).Lays s p fun e q =>
    Reaches p.here e q ∧ p.here ≤ q.previous.span.start
  | 0, _ => .outOfFuel
  | n + 1, p => by
    rw [arrowKey]
    refine .eat_bind (fun q _ hp hq hpq _ => ?_) ((nameKey_lays p).mono fun e q _ _ he => ⟨he.1, ?_⟩)
    · refine (expression_lays n q).bind fun k r _ hr hqr hk => ?_
      refine (Lays.expect _).bind fun _ u _ hu hru hc => .pure ⟨⟨hk.within.mono ?_, hc.lexeme rfl⟩, ?_⟩
      all_goals grind
    · grind

theorem primary_lays : ∀ n (p : Parser), (primary n).Lays s p (Reaches p.here)
  | 0, _ => .outOfFuel
  | n + 1, p => by
    rw [primary]
    refine .peek_bind fun hp => ?_
    split
    · next hk => exact token_lays (by rw [hk]; rfl) fun _ => id
    · next hk => exact token_lays (by rw [hk]; rfl) fun _ => id
    · next hk => exact token_lays (by rw [hk]; rfl) fun _ => id
    · next hk => exact token_lays (by rw [hk]; rfl) fun _ => id
    · next hk => exact token_lays (by rw [hk]; rfl) fun _ => id
    · next hk =>
      refine (Lays.resolve _).bind fun v q _ _ _ hq => Lays.advance.bind fun _ r _ _ _ hr => .pure ?_
      exact .token hp (by rw [hk]; rfl) (hr.2.trans hq.1) fun _ => id
    · refine Lays.advance.bind fun _ q _ hq hpq _ => ?_
      refine (expression_lays n q).bind fun e r _ hr hqr he => ?_
      refine (Lays.expect _).bind fun close u _ hu hru hc => .pure ⟨he.within.reannotate ?_ ?_, hc.lexeme rfl⟩
      all_goals grind
    · refine Lays.advance.bind fun _ q _ hq hpq _ => ?_
      refine (commaList_lays _ n q).bind fun is r _ hr hqr his => ?_
      refine (Lays.expect _).bind fun close u _ hu hru hc => .pure ⟨⟨?_, his.mono ?_⟩, hc.lexeme rfl⟩
      all_goals grind
    · refine (dictBody_lays n p).bind fun x q _ hq hpq hx => ?_
      obtain ⟨entries, close⟩ := x
      refine .pure ⟨⟨?_, hx.within.mono ?_⟩, hx.lexeme⟩
      all_goals grind
    · exact .reject _

theorem commaList_lays (close : TokenKind) : ∀ n (p : Parser), (commaList close n).Lays s p fun es q =>
    ExprsWithin ⟨p.here, q.behind⟩ es
  | 0, _ => .outOfFuel
  | n + 1, p => by
    rw [commaList]
    refine .at?_bind ?_
    split
    · exact .pure trivial
    · refine (expression_lays n p).bind fun e q hp hq hpq he => ?_
      refine .eat_bind (fun r _ _ hr hqr _ => ?_) (.pure ⟨he.within, trivial⟩)
      refine (commaList_lays close n r).bind fun es u _ hu hru hes => .pure ⟨he.within.mono ?_, hes.mono ?_⟩
      all_goals grind

theorem dictBody_lays : ∀ n (p : Parser), (dictBody n).Lays s p (Encloses p)
  | 0, _ => .outOfFuel
  | n + 1, p => by
    rw [dictBody]
    refine (Lays.expect _).bind fun _ q hp hq hpq _ => ?_
    refine (dictEntries_lays n q).bind fun es r _ hr hqr hes => ?_
    refine (Lays.expect _).bind fun close u _ hu hru hc => .pure ⟨hes.mono ?_, ?_, ?_, ?_, hc.lexeme rfl⟩
    all_goals grind

theorem dictEntries_lays : ∀ n (p : Parser), (dictEntries n).Lays s p fun es q =>
    EntriesWithin ⟨p.here, q.behind⟩ es
  | 0, _ => .outOfFuel
  | n + 1, p => by
    rw [dictEntries]
    refine .at?_bind ?_
    split
    · exact .pure trivial
    · refine (dictKey_lays n p).bind fun k q hp hq hpq hk => ?_
      refine (Lays.expect _).bind fun _ r _ hr hqr _ => ?_
      refine (expression_lays n r).bind fun v u _ hu hru hv => ?_
      refine .eat_bind (fun w _ _ hw huw _ => ?_) (.pure ⟨⟨hk.within.mono ?_, hv.within.mono ?_⟩, trivial⟩)
      · refine (dictEntries_lays n w).bind fun es x _ hx hwx hes => .pure ⟨⟨hk.within.mono ?_, hv.within.mono ?_⟩,
          hes.mono ?_⟩
        all_goals grind
      all_goals grind

theorem dictKey_lays : ∀ n (p : Parser), (dictKey n).Lays s p (Reaches p.here)
  | 0, _ => .outOfFuel
  | n + 1, p => by
    rw [dictKey]
    refine .peek_bind fun hp => ?_
    split
    · next hk =>
      refine Lays.advance.bind fun _ q _ hq hpq ht => .at?_bind ?_
      have hlexeme : p.current.kind.isLexeme = true := by rw [hk]; rfl
      split
      · exact .pure (.token hp hlexeme ht.2 fun _ => id)
      · refine (Lays.resolve _).bind fun v r _ _ _ hr => ?_
        have hv : Reaches p.here (.var p.current.span v) r := .token hp hlexeme (hr.2.trans ht.2) fun _ => id
        exact (postfixes_lays n r hv).bind fun e u _ _ _ he => operators_lays n 0 u he
    · exact expression_lays n p

end

theorem expressions_lays : ∀ n (p : Parser), (expressions n).Lays s p fun es q => ExprsWithin ⟨p.here, q.behind⟩ es
  | 0, _ => .outOfFuel
  | n + 1, p => by
    rw [expressions]
    refine (expression_lays n p).bind fun e q hp hq hpq he => ?_
    refine .eat_bind (fun r _ _ hr hqr _ => ?_) (.pure ⟨he.within, trivial⟩)
    refine (expressions_lays n r).bind fun es u _ hu hru hes => .pure ⟨he.within.mono ?_, hes.mono ?_⟩
    all_goals grind

/-! ## Statements -/

theorem spanOver_eq_foldl (start : Span) (es : List (Expr Span)) :
    spanOver start es = (es.map Expr.ann).foldl Span.merge start := by
  simp [spanOver, List.foldl_map]

/-- The span of a statement that is merged from the spans of its expressions covers them. -/
theorem exprsWithin_spanOver {o : Span} (start : Span) {es : List (Expr Span)} (hes : ExprsWithin o es) :
    ExprsWithin (spanOver start es) es := by
  refine exprsWithin_iff.2 fun e he => ?_
  have hw := exprsWithin_iff.1 hes e he
  rw [spanOver_eq_foldl]
  exact hw.of_holds (hw.holds.self.mono ((Span.covers_foldl_merge _ _).2 _ (List.mem_map_of_mem he)))

theorem holds_spanOver {o start : Span} {es : List (Expr Span)} (h : o.Holds start) (hes : ExprsWithin o es) :
    o.Holds (spanOver start es) := by
  rw [spanOver_eq_foldl]
  refine h.foldl_merge fun a ha => ?_
  obtain ⟨e, he, rfl⟩ := List.mem_map.1 ha
  exact (exprsWithin_iff.1 hes e he).holds

theorem loopVariables_lays : ∀ n (p : Parser), (loopVariables n).Lays s p fun _ _ => True
  | 0, _ => .outOfFuel
  | n + 1, p => by
    rw [loopVariables]
    refine Lays.identifier.bind fun _ q _ _ _ _ => (Lays.resolve _).bind fun v r _ _ _ _ => ?_
    refine .eat_bind (fun u _ _ _ _ _ => ?_) (.pure trivial)
    exact (loopVariables_lays n u).bind fun _ _ _ _ _ _ => .pure trivial

theorem declaredNames_lays (scope : Scope) : ∀ n (p : Parser), (declaredNames scope n).Lays s p fun ns q =>
    ∀ x ∈ ns, Span.Holds ⟨p.here, q.behind⟩ x.2
  | 0, _ => .outOfFuel
  | n + 1, p => by
    rw [declaredNames]
    refine .peek_bind fun hp => Lays.identifier.bind fun x q _ hq hpq hx => ?_
    refine (Lays.declare _ scope hp.current_mem).bind fun _ r _ hr hqr hprev => ?_
    have hhere : Span.Holds ⟨p.here, r.behind⟩ x.2 := by grind
    refine .eat_bind (fun u _ _ hu hru _ => ?_) (.pure (by simpa using hhere))
    refine (declaredNames_lays scope n u).bind fun ns v _ hv huv hns => .pure (List.forall_mem_cons.2 ⟨?_, ?_⟩)
    · exact hhere.mono (by grind)
    · exact fun y hy => (hns y hy).mono (by grind)

/-- A decorator ends before the next token, because its last token is a lexeme. -/
theorem decorators_lays : ∀ n (p : Parser), (decorators n).Lays s p fun ds q => DecoratorsBefore q.here ds
  | 0, _ => .outOfFuel
  | n + 1, p => by
    rw [decorators]
    refine .eat_bind (fun q _ _ _ _ _ => ?_) (.pure trivial)
    refine (expression_lays n q).bind fun d r _ hr _ hd => ?_
    refine (Lays.expect _).bind fun _ u _ _ hru _ => ?_
    refine (decorators_lays n u).bind fun ds v _ _ huv hds => .pure ⟨⟨hd.within.self, ?_⟩, hds⟩
    exact lt_of_le_of_lt hd.within.holds.stop_le
      (lt_of_lt_of_le (hr.behind_lt_here hd.lexeme) (hru.here_le.trans huv.here_le))

theorem handlerBinding_lays : handlerBinding.Lays s p fun _ _ => True := by
  refine .eat_bind (fun q _ _ _ _ _ => ?_) (.pure trivial)
  exact Lays.identifier.bind fun _ r _ _ _ _ => (Lays.resolve _).bind fun _ _ _ _ _ _ => .pure trivial

theorem raiseStmt_lays (n : Nat) (p : Parser) :
    (raiseStmt n).Lays s p fun st q => st.Within ⟨p.here, q.here⟩ := by
  refine Lays.advance.bind fun _ q hp hq hpq ht => ?_
  refine (expression_lays n q).bind fun e r _ hr hqr he => ?_
  refine Lays.lineEnd.bind fun _ u _ hu hru _ => .pure ⟨?_, he.within.of_holds ?_⟩
  all_goals grind

theorem returnStmt_lays (n : Nat) (p : Parser) :
    (returnStmt n).Lays s p fun st q => st.Within ⟨p.here, q.here⟩ := by
  refine Lays.advance.bind fun t q hp hq hpq ht => .body_bind ?_
  have values (vs : List (Expr Span)) (r : Parser) (hr : r.Stands s) (hqr : q.Onward r)
      (hvs : ExprsWithin ⟨q.here, r.behind⟩ vs) :
      (do lineEnd; return .ret (spanOver t.span vs) vs : Parse (Stmt Span)).Lays s r
        fun st u => st.Within ⟨p.here, u.here⟩ := by
    refine Lays.lineEnd.bind fun _ u _ hu hru _ => .pure ⟨holds_spanOver ?_ (hvs.mono ?_), exprsWithin_spanOver _ hvs⟩
    all_goals grind
  split
  · exact .stop_bind (.rejectPrevious (ht.2 ▸ hp.current_mem) _)
  · refine .at?_bind (.atEnd_bind ?_)
    split
    · exact (Lays.pure (b := []) (Q := fun vs r => ExprsWithin ⟨q.here, r.behind⟩ vs) trivial).bind
        fun vs r _ hr hqr hvs => values vs r hr hqr hvs
    · exact (expressions_lays n q).bind fun vs r _ hr hqr hvs => values vs r hr hqr hvs

theorem loopControl_lays (k : Keyword) {stmt : Span → Stmt Span}
    (h : ∀ {o a : Span}, o.Holds a → (stmt a).Within o) (p : Parser) :
    (loopControl k stmt).Lays s p fun st q => st.Within ⟨p.here, q.here⟩ := by
  refine Lays.advance.bind fun t q hp hq hpq ht => .body_bind ?_
  split
  · exact .stop_bind (.rejectPrevious (ht.2 ▸ hp.current_mem) _)
  · exact Lays.lineEnd.bind fun _ r _ hr hqr _ => .pure (h (by grind))

theorem declaration_lays (scope : Scope) (n : Nat) (p : Parser) :
    (declaration scope n).Lays s p fun st q => st.Within ⟨p.here, q.here⟩ := by
  refine Lays.advance.bind fun t q hp hq hpq ht => .body_bind ?_
  split
  · exact .stop_bind (.rejectPrevious (ht.2 ▸ hp.current_mem) _)
  · refine (declaredNames_lays scope n q).bind fun ns r _ hr hqr hns => ?_
    refine Lays.lineEnd.bind fun _ u _ hu hru _ => .pure ?_
    have hm : ns.foldl (fun a x => a.merge x.2) t.span = (ns.map Prod.snd).foldl Span.merge t.span := by
      simp [List.foldl_map]
    rw [hm]
    refine Span.Holds.foldl_merge (by grind) fun a ha => ?_
    obtain ⟨x, hx, rfl⟩ := List.mem_map.1 ha
    exact (hns x hx).mono (by grind)

/-- The span of an assignment is merged from its equals sign, its values and its targets. -/
theorem assignment_lays (n : Nat) {a : Pos} {first : Expr Span} {p : Parser} (hp : p.Stands s)
    (hf : Reaches a first p) :
    (assignment n first).Lays s p fun st q => st.Within ⟨a, q.here⟩ := by
  have rest (more : List (Expr Span)) (q : Parser) (hq : ExprsWithin ⟨a, q.behind⟩ (first :: more)) (ha : a ≤ q.here) :
      (do
        let eq ← expect (.symbol .eq)
        if (first :: more).any (!·.isTarget) then rejectAt eq .invalidTarget
        let values ← expressions n
        lineEnd
        return .assign (spanOver eq.span (values ++ (first :: more))) (first :: more) values :
          Parse (Stmt Span)).Lays s q fun st u => st.Within ⟨a, u.here⟩ := by
    refine (Lays.expect _).bind fun eq r hq' hr hqr he => ?_
    dsimp only
    split
    · exact .stop_bind (.rejectAt (he.token ▸ hq'.current_mem) _)
    · refine (expressions_lays n r).bind fun vs u _ hu hru hvs => ?_
      refine Lays.lineEnd.bind fun _ v _ hv huv _ => .pure ?_
      have hall : ExprsWithin ⟨a, v.here⟩ (vs ++ (first :: more)) := by
        refine exprsWithin_iff.2 fun e hm => ?_
        rcases List.mem_append.1 hm with hm | hm
        · exact (exprsWithin_iff.1 hvs e hm).mono (by grind)
        · exact (exprsWithin_iff.1 hq e hm).mono (by grind)
      have hover := exprsWithin_iff.1 (exprsWithin_spanOver eq.span hall)
      refine ⟨holds_spanOver (by grind) hall, exprsWithin_iff.2 fun e hm => ?_, exprsWithin_iff.2 fun e hm => ?_⟩
      · exact hover e (List.mem_append_right vs hm)
      · exact hover e (List.mem_append_left _ hm)
  refine .eat_bind (fun q _ _ hq hpq _ => ?_) ?_
  · refine (expressions_lays n q).bind fun more r _ hr hqr hm => rest more r ⟨hf.within.mono ?_, hm.mono ?_⟩ ?_
    all_goals grind
  · exact rest [] p ⟨hf.within, trivial⟩ (by grind)

theorem exprStmt_lays (n : Nat) (p : Parser) :
    (exprStmt n).Lays s p fun st q => st.Within ⟨p.here, q.here⟩ := by
  refine (expression_lays n p).bind fun e q hp hq hpq he => .at?_bind (.at?_bind ?_)
  split
  · exact assignment_lays n hq he
  · refine Lays.lineEnd.bind fun _ r _ hr hqr _ => .pure ⟨?_, he.within.self⟩
    grind

/-- The block lies between the tokens at which `p` and `q` stand, and ends on a later line than that of its colon. -/
structure Opens (p : Parser) (b : Block Span) (q : Parser) : Prop where
  within : b.Within ⟨p.here, q.here⟩
  line_lt : p.here.line < b.ann.stop.line
  line_le : ⟨b.ann.stop.line, 1⟩ ≤ b.ann.stop

attribute [grind →] Opens.within Opens.line_le

theorem Opens.leaveFunction {b : Block Span} {q : Parser} (h : Opens p b q) : Opens p b q.leaveFunction :=
  ⟨by simpa [here] using h.within, h.line_lt, h.line_le⟩

theorem Opens.leaveLoop {b : Block Span} {q : Parser} (h : Opens p b q) : Opens p b q.leaveLoop :=
  ⟨h.within, h.line_lt, h.line_le⟩

/-- A block with a colon at `p` and an indent at `r`, which ends with the mark at `v`. The indent is on a later line
than the colon, because the colon is a lexeme. -/
theorem Opens.intro {r u v : Parser} {ss : List (Stmt Span)} (hp : p.Stands s) (hpr : p.Onward r)
    (hmoved : p.consumed < r.consumed) (hcolon : p.current.kind.isLexeme = true) (hindent : r.current.kind = .indent)
    (hru : r.Onward u) (huv : u.Onward v) (hv : v.Stands s) (hmark : v.current.kind.isMark = true)
    (hss : StmtsWithin ⟨u.here, v.here⟩ ss) {w : Parser} (hvw : v.Onward w) :
    Opens p ⟨p.current.span.merge v.current.span, ss⟩ w := by
  have hpoint : v.current.span.stop = v.here := hv.current.point hmark
  have hstop : p.current.span.stop ≤ v.here := by
    have hle := (hpr.moved hmoved).1
    grind
  have hline : p.current.span.stop.line < r.here.line :=
    ((hpr.moved hmoved).2 _ List.mem_cons_self).line_lt hcolon hindent
  refine ⟨⟨?_, hss.mono ?_⟩, ?_, .inr ⟨rfl, ?_⟩⟩
  · grind
  · grind
  · calc p.here.line
      ≤ p.current.span.stop.line := Pos.line_le hp.here_le_stop
    _ < r.here.line := hline
    _ ≤ v.here.line := Pos.line_le (hru.here_le.trans huv.here_le)
    _ ≤ (p.current.span.merge v.current.span).stop.line := Pos.line_le (hpoint ▸ le_max_right _ _)
  · have hcol (a b : Pos) (ha : 1 ≤ a.col) (hb : 1 ≤ b.col) : 1 ≤ (max a b).col := by
      rw [max_def]
      split <;> assumption
    exact hcol _ _ hp.current.col_pos hv.current.col_pos

mutual

theorem statement_lays : ∀ n (p : Parser), (statement n).Lays s p fun st q => st.Within ⟨p.here, q.here⟩
  | 0, _ => .outOfFuel
  | n + 1, p => by
    rw [statement]
    refine .peekKind_bind ?_
    split
    · exact ifStmt_lays n p
    · exact whileStmt_lays n p
    · exact forStmt_lays n p
    · exact definition_lays n p trivial
    · exact decorated_lays n p
    · exact tryStmt_lays n p
    · exact raiseStmt_lays n p
    · exact returnStmt_lays n p
    · exact loopControl_lays _ id p
    · exact loopControl_lays _ id p
    · exact declaration_lays _ n p
    · exact declaration_lays _ n p
    · exact declaration_lays _ n p
    · exact .reject _
    · exact exprStmt_lays n p

theorem block_lays : ∀ n (p : Parser), (block n).Lays s p (Opens p)
  | 0, _ => .outOfFuel
  | n + 1, p => by
    rw [block]
    refine (Lays.expect _).bind fun colon q hp hq hpq hc => ?_
    refine (Lays.expect _).bind fun _ r _ hr hqr _ => ?_
    refine .eat_bind (fun u hk _ hu hru _ => ?_) ?_
    · dsimp only
      refine (blockStmts_lays n u).bind fun ss v _ hv huv hss => .peek_bind fun _ => ?_
      rw [hc.token]
      have hopens {w : Parser} (hvw : v.Onward w) : Opens p ⟨p.current.span.merge v.current.span, ss⟩ w :=
        .intro hp (hpq.trans hqr) (Nat.lt_of_lt_of_le hc.consumed_lt hqr.consumed_le) (by rw [hc.kind]; rfl) hk hru huv hv
          hss.2 hss.1 hvw
      exact .eat_bind (fun w _ _ _ hvw _ => .pure (hopens hvw)) (.pure (hopens (.refl v)))
    · exact .stop_bind (.reject _)

theorem blockStmts_lays : ∀ n (p : Parser), (blockStmts n).Lays s p fun ss q =>
    StmtsWithin ⟨p.here, q.here⟩ ss ∧ q.current.kind.isMark = true
  | 0, _ => .outOfFuel
  | n + 1, p => by
    rw [blockStmts]
    refine .at?_bind (.atEnd_bind ?_)
    split
    · next he =>
      refine .pure ⟨trivial, ?_⟩
      simp only [Parser.atEnd, Bool.or_eq_true, decide_eq_true_eq] at he
      rcases he with hk | hk <;>
        · rw [hk]
          rfl
    · next he =>
      have hend : p.atEnd = false := by
        simp only [Bool.or_eq_true, not_or, Bool.not_eq_true] at he
        exact he.2
      refine .eat_bind (fun q _ _ hq hpq _ => ?_) ?_
      · exact (blockStmts_lays n q).mono fun ss r _ _ hss => ⟨hss.1.mono (by grind), hss.2⟩
      · refine (item_lays n p hend).bind fun o q _ hq hpq ho => ?_
        refine (blockStmts_lays n q).bind fun ss r _ hr hqr hss => .pure ⟨.append (ho.mono ?_) (hss.1.mono ?_), hss.2⟩
        all_goals grind

theorem item_lays : ∀ n (p : Parser), p.atEnd = false →
    (item n).Lays s p fun o q => StmtsWithin ⟨p.here, q.here⟩ o.toList
  | 0, _, _ => .outOfFuel
  | n + 1, p, he => by
    rw [item]
    -- a rejected statement leaves the span of its first token, and reading goes on behind it
    refine .recovering ?_ he fun q message hp hle => ⟨?_, trivial⟩
    · refine .eat_bind (fun q _ _ _ _ _ => ?_) ?_
      · exact Lays.lineEnd.bind fun _ _ _ _ _ _ => .pure trivial
      · exact (statement_lays n p).bind fun st q _ _ _ hst => .pure ⟨hst, trivial⟩
    · grind [Stmt.Within]

theorem ifStmt_lays : ∀ n (p : Parser), (ifStmt n).Lays s p fun st q => st.Within ⟨p.here, q.here⟩
  | 0, _ => .outOfFuel
  | n + 1, p => by
    rw [ifStmt]
    refine Lays.advance.bind fun t q hp hq hpq ht => ?_
    refine (expression_lays n q).bind fun e r _ hr hqr he => ?_
    refine (block_lays n r).bind fun y u _ hu hru hy => ?_
    -- an `else` part that is left out stands at the start of the last line of the block, behind the line of its colon
    have hline : p.here ≤ ⟨y.ann.stop.line, 1⟩ :=
      .inl (Nat.lt_of_le_of_lt (Pos.line_le (hpq.here_le.trans hqr.here_le)) hy.line_lt)
    refine (elsePart_lays n u hline (by grind) (by grind)).bind fun m v _ hv huv hm => ?_
    refine .pure ⟨?_, he.within.mono ?_, hy.within.of_holds ?_, hm.of_holds ?_⟩
    all_goals grind

theorem elsePart_lays : ∀ n (p : Parser) {a : Pos} {line : Nat}, a ≤ ⟨line, 1⟩ → ⟨line, 1⟩ ≤ p.here → a ≤ p.here →
    (elsePart n line).Lays s p fun b q => b.Within ⟨a, q.here⟩
  | 0, _, _, _, _, _, _ => .outOfFuel
  | n + 1, p, a, line, hline, hhere, ha => by
    rw [elsePart]
    refine .at?_bind ?_
    split
    · refine (ifStmt_lays n p).bind fun st q _ hq hpq hst => .pure ⟨?_, hst.self, trivial⟩
      grind
    · refine .eat_bind (fun q _ _ hq hpq _ => ?_) (.pure ⟨⟨hline, le_refl _, hhere⟩, trivial⟩)
      exact (block_lays n q).mono fun b r _ _ hb => hb.within.mono (by grind)

theorem whileStmt_lays : ∀ n (p : Parser), (whileStmt n).Lays s p fun st q => st.Within ⟨p.here, q.here⟩
  | 0, _ => .outOfFuel
  | n + 1, p => by
    rw [whileStmt]
    refine Lays.advance.bind fun t q hp hq hpq ht => ?_
    refine (expression_lays n q).bind fun e r _ hr hqr he => ?_
    refine (Lays.inLoop (block_lays n _) fun _ _ => .leaveLoop).bind fun b u _ hu hru hb => ?_
    have hb : b.Within ⟨r.here, u.here⟩ := hb.within
    refine .pure ⟨?_, he.within.mono ?_, hb.of_holds ?_⟩
    all_goals grind

theorem forStmt_lays : ∀ n (p : Parser), (forStmt n).Lays s p fun st q => st.Within ⟨p.here, q.here⟩
  | 0, _ => .outOfFuel
  | n + 1, p => by
    rw [forStmt]
    refine Lays.advance.bind fun t q hp hq hpq ht => ?_
    refine (loopVariables_lays n q).bind fun vs r _ hr hqr _ => ?_
    refine (Lays.expect _).bind fun _ u _ hu hru _ => ?_
    refine (expression_lays n u).bind fun e v _ hv huv he => ?_
    refine (Lays.inLoop (block_lays n _) fun _ _ => .leaveLoop).bind fun b w _ hw hvw hb => ?_
    have hb : b.Within ⟨v.here, w.here⟩ := hb.within
    refine .pure ⟨?_, he.within.mono ?_, hb.of_holds ?_⟩
    all_goals grind

theorem definition_lays : ∀ n (p : Parser) {ds : List (Expr Span)}, DecoratorsBefore p.here ds →
    (definition n ds).Lays s p fun st q => st.Within ⟨p.here, q.here⟩
  | 0, _, _, _ => .outOfFuel
  | n + 1, p, ds, hds => by
    rw [definition]
    refine (Lays.expect _).bind fun t q hp hq hpq ht => ?_
    refine Lays.identifier.bind fun x r _ hr hqr _ => (Lays.resolve _).bind fun v u _ hu hru _ => ?_
    refine (Lays.expect _).bind fun _ w _ hw huw _ => (params_lays _ n w).bind fun ps y _ hy hwy _ => ?_
    refine (Lays.expect _).bind fun _ z _ hz hyz _ => ?_
    refine (Lays.inFunction ps (block_lays n _) fun _ _ => .leaveFunction).bind fun b z' _ hz' hzz' hb => ?_
    have hb : b.Within ⟨z.here, z'.here⟩ := hb.within
    refine .pure ⟨?_, hds.mono ?_, hb.of_holds ?_⟩
    all_goals grind

theorem decorated_lays : ∀ n (p : Parser), (decorated n).Lays s p fun st q => st.Within ⟨p.here, q.here⟩
  | 0, _ => .outOfFuel
  | n + 1, p => by
    rw [decorated]
    refine (decorators_lays n p).bind fun ds q _ hq hpq hds => .at?_bind ?_
    split
    · exact (definition_lays n q hds).mono fun st r _ _ hst => hst.mono (by grind)
    · exact .reject _

theorem tryStmt_lays : ∀ n (p : Parser), (tryStmt n).Lays s p fun st q => st.Within ⟨p.here, q.here⟩
  | 0, _ => .outOfFuel
  | n + 1, p => by
    rw [tryStmt]
    refine Lays.advance.bind fun t q hp hq hpq ht => ?_
    refine (block_lays n q).bind fun b r _ hr hqr hb => ?_
    refine (handler_lays n r).bind fun h u _ hu hru hh => (cleanup_lays n u).bind fun c v _ hv huv hc => ?_
    dsimp only
    split
    · exact .stop_bind (.reject _)
    · obtain ⟨hfirst, hspans⟩ := Span.covers_foldl_merge (t.span.merge b.ann)
        ((h.map (·.body.ann)).toList ++ (c.map (·.ann)).toList)
      obtain ⟨hhandler, hcleanup⟩ := List.forall_mem_append.1 hspans
      refine .pure ⟨Span.Holds.foldl_merge (by grind) (List.forall_mem_append.2 ⟨?_, ?_⟩), hb.within.of_holds ?_,
        hh.of_covers hhandler, hc.of_covers hcleanup⟩
      · exact fun a ha => (hh.holds a ha).mono (by grind)
      · exact fun a ha => (hc.holds a ha).mono (by grind)
      · grind

theorem handler_lays : ∀ n (p : Parser), (handler n).Lays s p fun h q => HandlerWithin ⟨p.here, q.here⟩ h
  | 0, _ => .outOfFuel
  | n + 1, p => by
    rw [handler]
    refine .eat_bind (fun q _ _ hq hpq _ => ?_) (.pure trivial)
    refine handlerBinding_lays.bind fun _ r _ hr hqr _ => (block_lays n r).bind fun b u _ _ _ hb => .pure ?_
    exact hb.within.mono (by grind)

theorem cleanup_lays : ∀ n (p : Parser), (cleanup n).Lays s p fun c q => CleanupWithin ⟨p.here, q.here⟩ c
  | 0, _ => .outOfFuel
  | n + 1, p => by
    rw [cleanup]
    refine .eat_bind (fun q _ _ hq hpq _ => ?_) (.pure trivial)
    exact (block_lays n q).bind fun b r _ _ _ hb => .pure (hb.within.mono (by grind))

end

/-! ## Programs -/

theorem program_lays : ∀ n (p : Parser), (program n).Lays s p fun ss q => StmtsWithin ⟨p.here, q.here⟩ ss
  | 0, _ => .outOfFuel
  | n + 1, p => by
    rw [program]
    refine .atEnd_bind ?_
    split
    · exact .pure trivial
    · next he =>
      refine .eat_bind (fun q _ _ hq hpq _ => ?_) (.eat_bind (fun q _ _ hq hpq _ => ?_) ?_)
      · exact (program_lays n q).mono fun ss r _ _ hss => hss.mono (by grind)
      · exact (program_lays n q).mono fun ss r _ _ hss => hss.mono (by grind)
      · refine (item_lays n p (by simpa using he)).bind fun o q _ hq hpq ho => ?_
        refine (program_lays n q).bind fun ss r _ hr hqr hss => .pure (.append (ho.mono ?_) (hss.mono ?_))
        all_goals grind

end Parse

/-- Reading a script, a parser stays in order, and what it gives lies between the first token and the last. -/
theorem Source.program_lays (s : Source) :
    ∃ q, Parse.program (parseFuel s.tokens.length) (.start s s.tokens) = .ok s.parse.program q ∧ q.Stands s ∧
      StmtsWithin ⟨(Parser.start s s.tokens).here, q.here⟩ s.parse.program := by
  obtain ⟨q, hq⟩ := s.exists_program
  have h := Parse.program_lays (parseFuel s.tokens.length) (.start s s.tokens) (stands_start s)
  rw [after_of_ok hq] at h
  exact ⟨q, hq, h.1, h.2.2⟩

end DocScript
