import DocScript.Proofs.Grammar.Fuel
import DocScript.Proofs.Grammar.Progress

/-!
# Operators by levels

Precedence climbing folds operators of several levels in one loop. `Parse.layered` is the grammar that it stands for :
one reader for each level, which takes an operand of the next level and then operators of its own level, each with
another operand of the next level, folded to the left; above the last level there are the operands that `unary` reads.
Both readers come to the same outcome from every parser (`Parse.expression_layered`) : the same tree or the same
failure, and the same parser behind it.

The step is `operators_extends_chain` : to fold the operators of level `l` and above is to fold those above `l` first,
and then the chain of level `l`. Where a chain goes on, no operator above `l` is left (`below_of_operation`), so the
loop and the chain meet again behind each operand.
-/

namespace DocScript

namespace BinaryOp

/-- The operators by levels, the loosest first. -/
def levels : List (List BinaryOp) :=
  [[.or], [.and], [.eq, .notEq], [.less, .lessEq, .greater, .greaterEq], [.add, .sub], [.mul, .div, .pow]]

/-- From the level `l` on there are the operators of this level, and then those above it. -/
theorem exists_drop_levels {l : Nat} (h : l < 6) :
    ∃ ops, levels.drop l = ops :: levels.drop (l + 1) ∧ ∀ op : BinaryOp, op ∈ ops ↔ op.level = l := by
  have hl : l = 0 ∨ l = 1 ∨ l = 2 ∨ l = 3 ∨ l = 4 ∨ l = 5 := by omega
  rcases hl with rfl | rfl | rfl | rfl | rfl | rfl <;> exact ⟨_, rfl, fun op => by cases op <;> decide⟩

theorem level_lt (op : BinaryOp) : op.level < 6 := by
  cases op <;> decide

end BinaryOp

/-- No operator of the level `min` or above stands here. -/
def Parser.Below (p : Parser) (min : Nat) : Prop :=
  ∀ op, BinaryOp.ofToken? p.current.kind = some op → op.level < min

theorem Parser.below_or (p : Parser) (min : Nat) :
    p.Below min ∨ ∃ op, BinaryOp.ofToken? p.current.kind = some op ∧ min ≤ op.level := by
  cases hop : BinaryOp.ofToken? p.current.kind with
  | none => exact .inl fun op h => by simp [hop] at h
  | some op =>
    rcases Nat.lt_or_ge op.level min with h | h
    · refine .inl fun op' h' => ?_
      obtain rfl : op = op' := Option.some.inj (hop.symm.trans h')
      exact h
    · exact .inr ⟨op, rfl, h⟩

namespace Parse

open DocScript.Parser

variable {β γ : Type}

/-- Operators of `ops`, as many as there are, each with an operand that `operand` reads, folded to the left. -/
def chain (ops : List BinaryOp) (operand : Parse (Expr Span)) : Nat → Expr Span → Parse (Expr Span)
  | 0, _ => outOfFuel
  | n + 1, left => do
    match BinaryOp.ofToken? (← peekKind) with
    | none => return left
    | some op =>
      if op ∈ ops then
        let _ ← advance
        let right ← operand
        chain ops operand n (.binary (left.ann.merge right.ann) op left right)
      else return left

/-- An expression of operators of the given levels, by one reader for each of them. -/
def layered (n : Nat) : List (List BinaryOp) → Parse (Expr Span)
  | [] => unary n
  | ops :: tighter => do
    let left ← layered n tighter
    chain ops (layered n tighter) n left

/-! ## Outcomes -/

/-- Reading came to an end. -/
def Finished (r : EStateM.Result Failure Parser β) : Prop := ∀ q, r ≠ .error .outOfFuel q

theorem finished_ok (b : β) (q : Parser) : Finished (.ok b q : EStateM.Result Failure Parser β) := by
  rintro q' ⟨⟩

theorem Extends.eq_of_finished {x y : Parse β} {p : Parser} (h : Extends x y) (hx : Finished (x p)) : y p = x p :=
  (h p).resolve_left fun he => he.elim hx

theorem bind_of_ok {x : Parse β} {f : β → Parse γ} {p q : Parser} {b : β} (h : x p = .ok b q) :
    (x >>= f) p = f b q := by
  simp only [Bind.bind, EStateM.bind, h]

/-- Only the outcome of the first reader matters to the second. -/
theorem bind_congr_at {x y : Parse β} (f : β → Parse γ) {p q : Parser} (h : x p = y q) :
    (x >>= f) p = (y >>= f) q := by
  simp only [Bind.bind, EStateM.bind, h]

theorem bind_of_error {x : Parse β} {f : β → Parse γ} {p q : Parser} {e : Failure} (h : x p = .error e q) :
    (x >>= f) p = .error e q := by
  simp only [Bind.bind, EStateM.bind, h]

theorem Moves.finished {x : Parse β} {p : Parser} {k : Nat} (h : x.Moves p k) : Finished (x p) := by
  intro q hq
  exact absurd ((after_of_error hq).1 h).1 (by simp)

/-! ## One round of each loop -/

section Rounds

variable {p : Parser} {n min : Nat} {left : Expr Span} {op : BinaryOp} {ops : List BinaryOp}
  {operand : Parse (Expr Span)}

theorem operators_stop (h : p.Below min) : operators (n + 1) min left p = .ok left p := by
  rw [operators, bind_of_ok (x := peekKind) rfl]
  cases hop : BinaryOp.ofToken? p.current.kind with
  | none => rfl
  | some op =>
    simp only [if_pos (h op hop)]
    rfl

theorem operators_step (hop : BinaryOp.ofToken? p.current.kind = some op) (h : min ≤ op.level) :
    operators (n + 1) min left p =
      (operation n (op.level + 1) >>= fun right =>
        operators n min (.binary (left.ann.merge right.ann) op left right)) p.advance := by
  rw [operators, bind_of_ok (x := peekKind) rfl, hop]
  simp only [if_neg (Nat.not_lt.2 h)]
  exact bind_of_ok (x := advance) rfl

theorem chain_stop (h : ∀ op, BinaryOp.ofToken? p.current.kind = some op → op ∉ ops) :
    chain ops operand (n + 1) left p = .ok left p := by
  rw [chain, bind_of_ok (x := peekKind) rfl]
  cases hop : BinaryOp.ofToken? p.current.kind with
  | none => rfl
  | some op =>
    simp only [if_neg (h op hop)]
    rfl

theorem chain_step (hop : BinaryOp.ofToken? p.current.kind = some op) (h : op ∈ ops) :
    chain ops operand (n + 1) left p =
      (operand >>= fun right =>
        chain ops operand n (.binary (left.ann.merge right.ann) op left right)) p.advance := by
  rw [chain, bind_of_ok (x := peekKind) rfl, hop]
  simp only [if_pos h]
  exact bind_of_ok (x := advance) rfl

end Rounds

/-- The loop stops in front of what it does not fold. -/
theorem below_of_operators {n min : Nat} {left e : Expr Span} {p q : Parser}
    (h : operators n min left p = .ok e q) : q.Below min := by
  induction n generalizing left p with
  | zero => contradiction
  | succ n ih =>
    rcases p.below_or min with hb | ⟨op, hop, hl⟩
    · rw [operators_stop hb] at h
      cases h
      exact hb
    · rw [operators_step hop hl] at h
      cases hr : operation n (op.level + 1) p.advance with
      | error f r =>
        rw [bind_of_error hr] at h
        contradiction
      | ok right r =>
        rw [bind_of_ok hr] at h
        exact ih h

theorem below_of_operation {n min : Nat} {e : Expr Span} {p q : Parser} (h : operation n min p = .ok e q) :
    q.Below min := by
  cases n with
  | zero => contradiction
  | succ n =>
    rw [operation] at h
    cases hu : unary n p with
    | error f r =>
      rw [bind_of_error hu] at h
      contradiction
    | ok left r =>
      rw [bind_of_ok hu] at h
      exact below_of_operators h

/-! ## From the loop to the levels -/

/-- To fold the operators of level `l` and above is to fold those above `l`, and then the chain of level `l`. The
induction is on the fuel of the loop; the chain may have more. -/
theorem operators_extends_chain {l : Nat} {ops : List BinaryOp} {operand : Parse (Expr Span)}
    (hops : ∀ op : BinaryOp, op ∈ ops ↔ op.level = l) : ∀ {n m : Nat} (left : Expr Span), n ≤ m →
      (∀ k < n, Extends (operation k (l + 1)) operand) →
      Extends (operators n l left) (operators n (l + 1) left >>= chain ops operand m) := by
  intro n
  induction n with
  | zero => exact fun left _ _ => .outOfFuel _
  | succ n ih =>
    intro m left hm hk p
    obtain ⟨m, rfl⟩ := Nat.exists_eq_add_of_lt hm
    have hk' : ∀ k < n, Extends (operation k (l + 1)) operand := fun k hkn => hk k (by omega)
    rcases p.below_or l with hb | ⟨op, hop, hl⟩
    · -- neither folds what stands here
      refine .inr ?_
      have hb' : p.Below (l + 1) := fun op hop => Nat.lt_succ_of_lt (hb op hop)
      rw [operators_stop hb, bind_of_ok (operators_stop hb'), chain_stop fun op hop hm => ?_]
      exact absurd ((hops op).1 hm) (Nat.ne_of_lt (hb op hop))
    rcases Nat.eq_or_lt_of_le hl with rfl | hl'
    · -- an operator of the chain : behind its operand there is none above the level
      have hb' : p.Below (op.level + 1) := fun op' hop' => by
        obtain rfl : op = op' := Option.some.inj (hop.symm.trans hop')
        exact Nat.lt_succ_self _
      rw [bind_of_ok (operators_stop hb'), operators_step hop hl, chain_step hop ((hops op).2 rfl)]
      rcases hk n (Nat.lt_succ_self n) p.advance with ⟨q, hq⟩ | hq
      · exact .inl ⟨q, bind_of_error hq⟩
      · cases hr : operation n (op.level + 1) p.advance with
        | error f q => exact .inr (by rw [bind_of_error hr, bind_of_error (hq.trans hr)])
        | ok right q =>
          rw [bind_of_ok hr, bind_of_ok (hq.trans hr)]
          cases n with
          | zero => contradiction
          | succ n =>
            have hi := ih (m := n + 1 + m) (.binary (left.ann.merge right.ann) op left right) (by omega) hk' q
            rwa [bind_of_ok (operators_stop (below_of_operation hr))] at hi
    · -- an operator above the level is folded by both
      rw [operators_step hop hl, bind_congr_at _ (operators_step hop hl'), bind_assoc]
      refine (Extends.refl (operation n (op.level + 1))).bind (fun right => ?_) p.advance
      exact ih _ (by omega) hk'

/-- The reader of the level `l` does what precedence climbing does from this level on. The induction goes from the
last level to the first. -/
theorem operation_extends_layered {n m l : Nat} (hl : l ≤ 6) (h : n ≤ m) :
    Extends (operation n l) (layered m (BinaryOp.levels.drop l)) := by
  induction hd : 6 - l generalizing n l with
  | zero =>
    obtain rfl : l = 6 := by omega
    intro p
    cases n with
    | zero => exact .inl ⟨p, rfl⟩
    | succ n =>
      have hu := unary_extends (m - n) n p
      rw [Nat.sub_add_cancel (by omega)] at hu
      rw [operation]
      rcases hu with ⟨q, hq⟩ | hq
      · exact .inl ⟨q, bind_of_error hq⟩
      · cases hr : unary n p with
        | error f q => exact .inr (by rw [bind_of_error hr]; exact hq.trans hr)
        | ok e q =>
          rw [bind_of_ok hr]
          cases n with
          | zero => contradiction
          | succ n =>
            refine .inr ?_
            rw [operators_stop fun op _ => op.level_lt]
            exact hq.trans hr
  | succ d ih =>
    obtain ⟨ops, hdrop, hops⟩ := BinaryOp.exists_drop_levels (l := l) (by omega)
    cases n with
    | zero => exact .outOfFuel _
    | succ n =>
      rw [hdrop, operation, layered]
      have hchain (left : Expr Span) := operators_extends_chain hops left (by omega : n ≤ m) fun k hk =>
        ih (l := l + 1) (n := k) (by omega) (by omega) (by omega)
      have htop := (ih (l := l + 1) (by omega) h (by omega)).andThen
        (chain ops (layered m (BinaryOp.levels.drop (l + 1))) m)
      rw [operation, bind_assoc] at htop
      exact ((Extends.refl (unary n)).bind hchain).trans htop

/-! ## From the levels to the loop -/

/-- With enough fuel the outcome is `r`. -/
def Settles (x : Nat → Parse β) (p : Parser) (r : EStateM.Result Failure Parser β) : Prop :=
  ∃ n, ∀ m, n ≤ m → x m p = r

theorem Settles.of_extends {x : Nat → Parse β} (hx : ∀ m n, Extends (x n) (x (m + n))) {n : Nat} {p : Parser}
    {r : EStateM.Result Failure Parser β} (h : x n p = r) (hr : Finished r) : Settles x p r := by
  refine ⟨n, fun m hm => ?_⟩
  have he := (hx (m - n) n).eq_of_finished (p := p) (by rwa [h])
  rwa [Nat.sub_add_cancel hm, h] at he

theorem Settles.bind_ok {x : Nat → Parse β} {f : Nat → β → Parse γ} {p q : Parser} {b : β}
    {r : EStateM.Result Failure Parser γ} (h : Settles x p (.ok b q)) (hf : Settles (f · b) q r) :
    Settles (fun n => x n >>= f n) p r := by
  obtain ⟨n, hn⟩ := h
  obtain ⟨k, hk⟩ := hf
  exact ⟨max n k, fun m hm => (bind_of_ok (hn m (by omega))).trans (hk m (by omega))⟩

theorem Settles.bind_error {x : Nat → Parse β} {f : Nat → β → Parse γ} {p q : Parser} {e : Failure}
    (h : Settles x p (.error e q)) : Settles (fun n => x n >>= f n) p (.error e q) := by
  obtain ⟨n, hn⟩ := h
  exact ⟨n, fun m hm => bind_of_error (hn m hm)⟩

/-- A reader that passes on to another one with one unit of fuel less. -/
theorem Settles.succ {x y : Nat → Parse β} {p q : Parser} {r : EStateM.Result Failure Parser β}
    (h : Settles y q r) (hx : ∀ n, x (n + 1) p = y n q) : Settles x p r := by
  obtain ⟨n, hn⟩ := h
  refine ⟨n + 1, fun m hm => ?_⟩
  obtain ⟨m, rfl⟩ := Nat.exists_eq_add_of_lt hm
  rw [hx, hn _ (by omega)]

theorem settles_operators_stop {p : Parser} {l : Nat} (h : p.Below l) (left : Expr Span) :
    Settles (operators · l left) p (.ok left p) := by
  refine ⟨1, fun m hm => ?_⟩
  obtain ⟨m, rfl⟩ := Nat.exists_eq_add_of_lt hm
  exact operators_stop h

section

variable {l : Nat} {ops : List BinaryOp} {operand : Parse (Expr Span)}
  (hops : ∀ op : BinaryOp, op ∈ ops ↔ op.level = l)
  (hoperand : ∀ p, Finished (operand p) → Settles (operation · (l + 1)) p (operand p))
include hops hoperand

/-- Where no operator above the level is left, the loop folds what the chain folds. -/
theorem settles_of_chain {n : Nat} {left : Expr Span} {p : Parser} (hb : p.Below (l + 1))
    (hr : Finished (chain ops operand n left p)) :
    Settles (operators · l left) p (chain ops operand n left p) := by
  induction n generalizing left p with
  | zero => exact absurd rfl (hr p)
  | succ n ih =>
    rcases p.below_or l with hb' | ⟨op, hop, hl⟩
    · rw [chain_stop fun op hop hm => absurd ((hops op).1 hm) (Nat.ne_of_lt (hb' op hop))]
      exact settles_operators_stop hb' left
    · have hmem : op ∈ ops := (hops op).2 (Nat.le_antisymm (Nat.le_of_lt_succ (hb op hop)) hl)
      obtain rfl : op.level = l := (hops op).1 hmem
      rw [chain_step hop hmem] at hr ⊢
      refine Settles.succ ?_ fun k => operators_step hop hl
      have hright := hoperand p.advance
      cases ho : operand p.advance with
      | error f q =>
        rw [ho] at hright
        rw [bind_of_error ho] at hr ⊢
        exact (hright hr).bind_error
      | ok right q =>
        rw [ho] at hright
        rw [bind_of_ok ho] at hr ⊢
        have hright := hright (finished_ok right q)
        refine hright.bind_ok (ih ?_ hr)
        obtain ⟨k, hk⟩ := hright
        exact below_of_operation (hk k (Nat.le_refl k))

/-- The operators above the level are folded first, and then the chain. -/
theorem settles_of_operators_chain {n m : Nat} {left : Expr Span} {p : Parser}
    (hr : Finished ((operators n (l + 1) left >>= chain ops operand m) p)) :
    Settles (operators · l left) p ((operators n (l + 1) left >>= chain ops operand m) p) := by
  induction n generalizing left p with
  | zero => exact absurd rfl (hr p)
  | succ n ih =>
    rcases p.below_or (l + 1) with hb | ⟨op, hop, hl⟩
    · rw [bind_of_ok (operators_stop hb)] at hr ⊢
      exact settles_of_chain hops hoperand hb hr
    · rw [bind_congr_at _ (operators_step hop hl), bind_assoc] at hr ⊢
      refine Settles.succ ?_ fun k => operators_step hop (Nat.le_of_succ_le hl)
      cases ho : operation n (op.level + 1) p.advance with
      | error f q =>
        rw [bind_of_error ho] at hr ⊢
        exact (Settles.of_extends (fun m n => operation_extends m n _) ho hr).bind_error
      | ok right q =>
        rw [bind_of_ok ho] at hr ⊢
        exact (Settles.of_extends (fun m n => operation_extends m n _) ho (finished_ok right q)).bind_ok (ih hr)

end

/-- An operand, and then the operators of a level and above. -/
theorem settles_operation {l : Nat} {p : Parser} {r : EStateM.Result Failure Parser (Expr Span)}
    (h : Settles (fun n => unary n >>= operators n l) p r) : Settles (operation · l) p r :=
  h.succ fun _ => rfl

/-- What the reader of the level `l` comes to is what precedence climbing comes to. -/
theorem settles_of_layered {m l : Nat} (hl : l ≤ 6) {p : Parser}
    (hr : Finished (layered m (BinaryOp.levels.drop l) p)) :
    Settles (operation · l) p (layered m (BinaryOp.levels.drop l) p) := by
  induction hd : 6 - l generalizing l p with
  | zero =>
    obtain rfl : l = 6 := by omega
    have hr : Finished (unary m p) := hr
    change Settles _ _ (unary m p)
    refine settles_operation ?_
    cases hu : unary m p with
    | error f q =>
      rw [hu] at hr
      exact (Settles.of_extends unary_extends hu hr).bind_error
    | ok e q =>
      refine (Settles.of_extends unary_extends hu (finished_ok e q)).bind_ok ?_
      exact settles_operators_stop (fun op _ => op.level_lt) e
  | succ d ih =>
    obtain ⟨ops, hdrop, hops⟩ := BinaryOp.exists_drop_levels (l := l) (by omega)
    rw [hdrop, layered] at hr ⊢
    have hfirst : Finished (layered m (BinaryOp.levels.drop (l + 1)) p) := by
      intro q hq
      exact hr q (bind_of_error hq)
    obtain ⟨n, hn⟩ := ih (by omega) hfirst (by omega)
    -- what was read first is read by `operation`, so the operators above the level and the chain follow its operand
    rw [bind_congr_at _ (hn (n + 1) (by omega)).symm, operation, bind_assoc] at hr ⊢
    refine settles_operation ?_
    cases hu : unary n p with
    | error f q =>
      rw [bind_of_error hu] at hr ⊢
      exact (Settles.of_extends unary_extends hu hr).bind_error
    | ok left q =>
      rw [bind_of_ok hu] at hr ⊢
      refine (Settles.of_extends unary_extends hu (finished_ok left q)).bind_ok ?_
      exact settles_of_operators_chain hops (fun p hp => ih (by omega) hp (by omega)) hr

/-! ## How operators group -/

section

variable {p q r s : Parser} {a b c : Expr Span} {op op' : BinaryOp} {min : Nat}

/-- An operand behind which no operator of the level stands. -/
theorem settles_operation_single (h : Settles unary p (.ok a q)) (hb : q.Below min) :
    Settles (operation · min) p (.ok a q) :=
  settles_operation (h.bind_ok (settles_operators_stop hb a))

theorem settles_operators_step (hop : BinaryOp.ofToken? q.current.kind = some op) (hl : min ≤ op.level)
    (hb : Settles (operation · (op.level + 1)) q.advance (.ok b r))
    {x : EStateM.Result Failure Parser (Expr Span)}
    (hx : Settles (operators · min (.binary (a.ann.merge b.ann) op a b)) r x) :
    Settles (operators · min a) q x :=
  Settles.succ (hb.bind_ok hx) fun _ => operators_step hop hl

theorem below_of_eq_some (hop : BinaryOp.ofToken? q.current.kind = some op) (hl : op.level < min) : q.Below min := by
  intro op' hop'
  obtain rfl : op = op' := Option.some.inj (hop.symm.trans hop')
  exact hl

/-- An operand, an operator and another operand. -/
theorem settles_pair (ha : Settles unary p (.ok a q)) (hop : BinaryOp.ofToken? q.current.kind = some op)
    (hb : Settles unary q.advance (.ok b r)) (hr : BinaryOp.ofToken? r.current.kind = none) :
    Settles expression p (.ok (.binary (a.ann.merge b.ann) op a b) r) := by
  have hbelow (l : Nat) : r.Below l := fun op' hop' => by simp [hr] at hop'
  have hright := settles_operation_single hb (hbelow (op.level + 1))
  have htail := settles_operators_step hop (Nat.zero_le _) (a := a) hright (settles_operators_stop (hbelow 0) _)
  exact (settles_operation (ha.bind_ok htail)).succ fun _ => rfl

/-- Two operators group to the left, unless the second one is of a higher level. -/
theorem settles_triple (ha : Settles unary p (.ok a q)) (hop : BinaryOp.ofToken? q.current.kind = some op)
    (hb : Settles unary q.advance (.ok b r)) (hop' : BinaryOp.ofToken? r.current.kind = some op')
    (hc : Settles unary r.advance (.ok c s)) (hs : BinaryOp.ofToken? s.current.kind = none) :
    Settles expression p (.ok
      (if op'.level ≤ op.level then
        .binary ((a.ann.merge b.ann).merge c.ann) op' (.binary (a.ann.merge b.ann) op a b) c
      else
        .binary (a.ann.merge (b.ann.merge c.ann)) op a (.binary (b.ann.merge c.ann) op' b c)) s) := by
  have hbelow (l : Nat) : s.Below l := fun op' hop' => by simp [hs] at hop'
  have hlast := settles_operation_single hc (hbelow (op'.level + 1))
  refine (settles_operation (ha.bind_ok ?_)).succ fun _ => rfl
  split
  · next hl =>
    have hmiddle := settles_operation_single hb (below_of_eq_some hop' (Nat.lt_succ_of_le hl))
    refine settles_operators_step hop (Nat.zero_le _) hmiddle ?_
    exact settles_operators_step hop' (Nat.zero_le _) hlast (settles_operators_stop (hbelow 0) _)
  · next hl =>
    have hright : Settles (operation · (op.level + 1)) q.advance (.ok (.binary (b.ann.merge c.ann) op' b c) s) := by
      refine settles_operation (hb.bind_ok ?_)
      exact settles_operators_step hop' (Nat.lt_of_not_le hl) hlast (settles_operators_stop (hbelow _) _)
    exact settles_operators_step hop (Nat.zero_le _) hright (settles_operators_stop (hbelow 0) _)

/-- The operand of an operator in front is an operand itself. -/
theorem settles_unary {uop : UnaryOp} (hop : UnaryOp.ofToken? p.current.kind = some uop)
    (ha : Settles unary p.advance (.ok a q)) :
    Settles unary p (.ok (.unary (p.current.span.merge a.ann) uop a) q) := by
  obtain ⟨n, hn⟩ := ha
  refine ⟨n + 1, fun m hm => ?_⟩
  obtain ⟨m, rfl⟩ := Nat.exists_eq_add_of_lt hm
  rw [unary, bind_of_ok (x := peek) rfl, hop]
  simp only
  rw [bind_of_ok (x := advance) rfl, bind_of_ok (hn (n + m) (by omega))]
  rfl

end

/-- Precedence climbing reads what the grammar by levels reads. From every parser the two readers come to the same
outcomes, which are trees or failures together with all that the parser is behind them : the tokens that are left,
the bodies, and the diagnostics. In front of tokens that the end of the text closes both come to one, with eight
units of fuel for each token. Two operators group to the left unless the second one is of a higher level, and an
operator in front of an operand takes this operand alone. -/
theorem expression_layered (p : Parser) :
    (∀ r, Finished r → ((∃ n, expression n p = r) ↔ ∃ n, layered n BinaryOp.levels p = r)) ∧
    (p.Closed → ∃ r, Finished r ∧
      ∀ n, parseFuel p.left ≤ n → expression n p = r ∧ layered n BinaryOp.levels p = r) ∧
    (∀ a b c q r s op op', Settles unary p (.ok a q) → BinaryOp.ofToken? q.current.kind = some op →
      Settles unary q.advance (.ok b r) → BinaryOp.ofToken? r.current.kind = some op' →
      Settles unary r.advance (.ok c s) → BinaryOp.ofToken? s.current.kind = none →
      Settles expression p (.ok
        (if op'.level ≤ op.level then
          .binary ((a.ann.merge b.ann).merge c.ann) op' (.binary (a.ann.merge b.ann) op a b) c
        else
          .binary (a.ann.merge (b.ann.merge c.ann)) op a (.binary (b.ann.merge c.ann) op' b c)) s)) ∧
    ∀ uop a b q r op, UnaryOp.ofToken? p.current.kind = some uop → Settles unary p.advance (.ok a q) →
      BinaryOp.ofToken? q.current.kind = some op → Settles unary q.advance (.ok b r) →
      BinaryOp.ofToken? r.current.kind = none →
      Settles expression p (.ok
        (.binary ((p.current.span.merge a.ann).merge b.ann) op (.unary (p.current.span.merge a.ann) uop a) b) r) := by
  refine ⟨fun r hr => ⟨fun he => ?_, fun hl => ?_⟩, fun hp => ?_,
    fun a b c q r s op op' => settles_triple, fun uop a b q r op hu ha => settles_pair (settles_unary hu ha)⟩
  · obtain ⟨n, rfl⟩ := he
    cases n with
    | zero => exact absurd rfl (hr p)
    | succ n => exact ⟨n, (operation_extends_layered (Nat.zero_le 6) (Nat.le_refl n)).eq_of_finished hr⟩
  · obtain ⟨n, rfl⟩ := hl
    obtain ⟨k, hk⟩ := settles_of_layered (l := 0) (Nat.zero_le 6) hr
    exact ⟨k + 1, hk k (Nat.le_refl k)⟩
  · have hr := (expression_moves (8 * p.left + 5) hp (Nat.le_refl _)).finished
    refine ⟨_, hr, fun n hn => ?_⟩
    unfold parseFuel at hn
    have hexpr := (expression_extends (n - (8 * p.left + 5)) _).eq_of_finished hr
    rw [Nat.sub_add_cancel (by omega)] at hexpr
    exact ⟨hexpr, (operation_extends_layered (Nat.zero_le 6) (by omega : 8 * p.left + 4 ≤ n)).eq_of_finished hr⟩

/-- A power of a power, and a power of a negative number. -/
theorem expression_layered_pow :
    (let p := Parser.start ⟨"main", "a ** b ** c"⟩ (Source.tokens ⟨"main", "a ** b ** c"⟩);
      p.Closed ∧ (∃ r, Finished r ∧
        ∀ n, parseFuel p.left ≤ n → expression n p = r ∧ layered n BinaryOp.levels p = r) ∧
      ∃ a b c q r s, Settles unary p (.ok a q) ∧ BinaryOp.ofToken? q.current.kind = some .pow ∧
        Settles unary q.advance (.ok b r) ∧ BinaryOp.ofToken? r.current.kind = some .pow ∧
        Settles unary r.advance (.ok c s) ∧ BinaryOp.ofToken? s.current.kind = none ∧
        Settles expression p (.ok
          (.binary ((a.ann.merge b.ann).merge c.ann) .pow (.binary (a.ann.merge b.ann) .pow a b) c) s)) ∧
    (let p := Parser.start ⟨"main", "-a ** b"⟩ (Source.tokens ⟨"main", "-a ** b"⟩);
      UnaryOp.ofToken? p.current.kind = some .neg ∧
      ∃ a b q r, Settles unary p.advance (.ok a q) ∧ BinaryOp.ofToken? q.current.kind = some .pow ∧
        Settles unary q.advance (.ok b r) ∧ BinaryOp.ofToken? r.current.kind = none ∧
        Settles expression p (.ok (.binary ((p.current.span.merge a.ann).merge b.ann) .pow
          (.unary (p.current.span.merge a.ann) .neg a) b) r)) := by
  have settles {p q : Parser} {a : Expr Span} (h : unary 9 p = .ok a q) : Settles unary p (.ok a q) :=
    .of_extends unary_extends h (finished_ok a q)
  constructor
  · intro p
    have hp : p.Closed := Parser.closed_start _
    have h : After (unary 9) p (fun _ q => BinaryOp.ofToken? q.current.kind = some .pow ∧
        After (unary 9) q.advance (fun _ r => BinaryOp.ofToken? r.current.kind = some .pow ∧
          After (unary 9) r.advance (fun _ s => BinaryOp.ofToken? s.current.kind = none) fun _ _ => False)
          fun _ _ => False) fun _ _ => False := by
      decide +kernel
    obtain ⟨a, q, ha, hop, h⟩ := h.exists_ok
    obtain ⟨b, r, hb, hop', h⟩ := h.exists_ok
    obtain ⟨c, s, hc, hs⟩ := h.exists_ok
    exact ⟨hp, (expression_layered p).2.1 hp, a, b, c, q, r, s, settles ha, hop, settles hb, hop', settles hc, hs,
      (expression_layered p).2.2.1 a b c q r s _ _ (settles ha) hop (settles hb) hop' (settles hc) hs⟩
  · intro p
    have hu : UnaryOp.ofToken? p.current.kind = some .neg := by decide +kernel
    have h : After (unary 9) p.advance (fun _ q => BinaryOp.ofToken? q.current.kind = some .pow ∧
        After (unary 9) q.advance (fun _ r => BinaryOp.ofToken? r.current.kind = none) fun _ _ => False)
        fun _ _ => False := by
      decide +kernel
    obtain ⟨a, q, ha, hop, h⟩ := h.exists_ok
    obtain ⟨b, r, hb, hr⟩ := h.exists_ok
    exact ⟨hu, a, b, q, r, settles ha, hop, settles hb, hr,
      (expression_layered p).2.2.2 _ a b q r _ hu (settles ha) hop (settles hb) hr⟩

end Parse

end DocScript
