import DocScript.Host.Thermometer
import DocScript.Machine.Session
import DocScript.Proofs.Data.Content
import DocScript.Proofs.Print.RoundTrip
import DocScript.Proofs.Run.Tidy

/-!
# Data read back

The expression of a datum is made of literals, and so it is read back from its text (`Datum.constant_expr`). Its
value has the datum as its content again (`Calls.eval_expr`) : lists and dicts are made anew on the machine, and all
that was there stays. So a script that assigns a displayed value to a variable binds that variable to a value with
the same content (`interpret_display`).

The keys of a new doc come in the order of those of the doc that was displayed. That docs of a machine are in order
(`Machine.Tidy`) is what makes the new doc the same as the old one (`Doc.insertMany_eq`).
-/

namespace DocScript

variable {σ : Type}

/-! ## Sorted data -/

/-- The keys come in their order, each once. -/
def KeysSorted (ks : List Key) : Prop := ks.Pairwise fun k k' => k.cmp k' = .lt

mutual

/-- The keys of lists and dicts come in the order of docs. -/
def Datum.Sorted : Datum → Prop
  | .none | .bool _ | .num _ | .str _ => True
  | .list items => KeysSorted (indexKeys items.length) ∧ DataSorted items
  | .dict entries => KeysSorted (entries.map Prod.fst) ∧ EntriesSorted entries

def DataSorted : List Datum → Prop
  | [] => True
  | x :: xs => x.Sorted ∧ DataSorted xs

def EntriesSorted : List (Key × Datum) → Prop
  | [] => True
  | (k, x) :: xs => (k.Normal ∧ x.Sorted) ∧ EntriesSorted xs

end

namespace Machine

variable {m : Machine σ} {eq : Float → Float → Prop}

theorem HoldsEach.length_eq : ∀ {xs : List Datum} {vs : List Value}, m.HoldsEach eq xs vs → vs.length = xs.length
  | [], vs, h => by
    obtain rfl : vs = [] := h
    rfl
  | x :: xs, vs, h => by
    obtain ⟨v, rest, rfl, -, hxs⟩ := h
    rw [List.length_cons, List.length_cons, HoldsEach.length_eq hxs]

theorem HoldsEntries.keys_eq : ∀ {xs : List (Key × Datum)} {es : List (Key × Value)}, m.HoldsEntries eq xs es →
    es.map Prod.fst = xs.map Prod.fst
  | [], es, h => by
    obtain rfl : es = [] := h
    rfl
  | (k, x) :: xs, es, h => by
    obtain ⟨v, rest, rfl, -, hxs⟩ := h
    rw [List.map_cons, List.map_cons, HoldsEntries.keys_eq hxs]

mutual

/-- The contents of values on a tidy machine are sorted. -/
theorem Holds.sorted (hm : m.Tidy) : ∀ {x : Datum} {v : Value}, m.Holds eq x v → x.Sorted
  | .none, _, _ | .bool _, _, _ | .num _, _, _ | .str _, _, _ => trivial
  | .list items, v, h => by
    obtain ⟨id, d, rfl, hd, -, hk, hv⟩ := h
    refine ⟨?_, HoldsEach.sorted hm hv⟩
    rw [← hk]
    exact List.pairwise_map.2 (hm.docs id d hd).sorted
  | .dict entries, v, h => by
    obtain ⟨id, d, rfl, hd, -, hv⟩ := h
    refine ⟨?_, HoldsEntries.sorted hm hv (hm.docs id d hd).normal⟩
    rw [← hv.keys_eq]
    exact List.pairwise_map.2 (hm.docs id d hd).sorted

theorem HoldsEach.sorted (hm : m.Tidy) : ∀ {xs : List Datum} {vs : List Value}, m.HoldsEach eq xs vs → DataSorted xs
  | [], _, _ => trivial
  | x :: xs, vs, h => by
    obtain ⟨v, rest, rfl, hx, hxs⟩ := h
    exact ⟨Holds.sorted hm hx, HoldsEach.sorted hm hxs⟩

theorem HoldsEntries.sorted (hm : m.Tidy) : ∀ {xs : List (Key × Datum)} {es : List (Key × Value)},
    m.HoldsEntries eq xs es → (∀ e ∈ es, e.1.Normal) → EntriesSorted xs
  | [], _, _, _ => trivial
  | (k, x) :: xs, es, h, hn => by
    obtain ⟨v, rest, rfl, hx, hxs⟩ := h
    obtain ⟨hk, hrest⟩ := List.forall_mem_cons.1 hn
    exact ⟨⟨hk, Holds.sorted hm hx⟩, HoldsEntries.sorted hm hxs hrest⟩

end

mutual

/-- More docs do not change the content of a value. -/
theorem Holds.mono {m' : Machine σ} (ha : m'.arrayProto = m.arrayProto)
    (hd : ∀ id d, m.doc? id = some d → m'.doc? id = some d) :
    ∀ {x : Datum} {v : Value}, m.Holds eq x v → m'.Holds eq x v
  | .none, _, h | .bool _, _, h | .num _, _, h | .str _, _, h => h
  | .list items, v, h => by
    obtain ⟨id, d, rfl, hdoc, harray, hk, hv⟩ := h
    refine ⟨id, d, rfl, hd id d hdoc, ?_, hk, HoldsEach.mono ha hd hv⟩
    rwa [isArray, ha]
  | .dict entries, v, h => by
    obtain ⟨id, d, rfl, hdoc, hp, hv⟩ := h
    exact ⟨id, d, rfl, hd id d hdoc, hp, HoldsEntries.mono ha hd hv⟩

theorem HoldsEach.mono {m' : Machine σ} (ha : m'.arrayProto = m.arrayProto)
    (hd : ∀ id d, m.doc? id = some d → m'.doc? id = some d) :
    ∀ {xs : List Datum} {vs : List Value}, m.HoldsEach eq xs vs → m'.HoldsEach eq xs vs
  | [], _, h => h
  | x :: xs, vs, h => by
    obtain ⟨v, rest, rfl, hx, hxs⟩ := h
    exact ⟨v, rest, rfl, Holds.mono ha hd hx, HoldsEach.mono ha hd hxs⟩

theorem HoldsEntries.mono {m' : Machine σ} (ha : m'.arrayProto = m.arrayProto)
    (hd : ∀ id d, m.doc? id = some d → m'.doc? id = some d) :
    ∀ {xs : List (Key × Datum)} {es : List (Key × Value)}, m.HoldsEntries eq xs es → m'.HoldsEntries eq xs es
  | [], _, h => h
  | (k, x) :: xs, es, h => by
    obtain ⟨v, rest, rfl, hx, hxs⟩ := h
    exact ⟨v, rest, rfl, Holds.mono ha hd hx, HoldsEntries.mono ha hd hxs⟩

end

end Machine

/-! ## Constants -/

/-- The expression says by itself what it is : it can be read back from its text in every body, and mentions
nothing. -/
structure Expr.Constant (e : Expr Unit) : Prop where
  lexical : e.passes .lexical = true
  clear : e.passes .clear = true
  placed : e.Placed
  mentions : e.mentions = []
  erase : e.erase = e
  isVar : Check.isVar e = false

namespace Expr

theorem constant_number {n : Float} (hu : Check.isUnsigned n = true) (hf : Check.isFinite n = true) :
    (number () n).Constant :=
  ⟨hu, hf, trivial, rfl, rfl, rfl⟩

theorem Constant.unary {e : Expr Unit} (h : e.Constant) (op : UnaryOp) : (unary () op e).Constant where
  lexical := by simpa only [passes, Bool.and_eq_true] using ⟨rfl, h.lexical⟩
  clear := by simpa only [passes, Bool.and_eq_true] using ⟨rfl, h.clear⟩
  placed := h.placed
  mentions := h.mentions
  erase := by rw [Expr.erase, h.erase]
  isVar := rfl

theorem constant_list_nil : (list () []).Constant := ⟨rfl, rfl, trivial, rfl, rfl, rfl⟩

theorem Constant.list_cons {e : Expr Unit} {es : List (Expr Unit)} (h : e.Constant) (hs : (list () es).Constant) :
    (list () (e :: es)).Constant where
  lexical := by
    obtain ⟨hl, hes⟩ := Bool.and_eq_true_iff.1 hs.lexical
    simp only [passes, exprsPass, h.lexical, hes]
    exact hl
  clear := by
    obtain ⟨hl, hes⟩ := Bool.and_eq_true_iff.1 hs.clear
    simp only [passes, exprsPass, h.clear, hes]
    exact hl
  placed := ⟨h.placed, hs.placed⟩
  mentions := by simpa [h.mentions] using hs.mentions
  erase := by simpa [Expr.erase, eraseExprs, h.erase] using hs.erase
  isVar := rfl

theorem constant_dict_nil : (dict () []).Constant := ⟨rfl, rfl, trivial, rfl, rfl, rfl⟩

theorem Constant.dict_cons {k e : Expr Unit} {es : List (Expr Unit × Expr Unit)} (hk : k.Constant) (h : e.Constant)
    (hs : (dict () es).Constant) : (dict () ((k, e) :: es)).Constant where
  lexical := by
    obtain ⟨hl, hes⟩ := Bool.and_eq_true_iff.1 hs.lexical
    simp only [passes, entriesPass, hk.lexical, h.lexical, hes]
    exact hl
  clear := by
    obtain ⟨hl, hes⟩ := Bool.and_eq_true_iff.1 hs.clear
    have hall : (((k, e) :: es).all fun entry => !Check.isVar entry.1) = true := by
      rw [List.all_cons, hk.isVar]
      exact hl
    simp only [passes, entriesPass, hk.clear, h.clear, hes, Bool.and_true]
    exact hall
  placed := ⟨⟨hk.placed, h.placed⟩, hs.placed⟩
  mentions := by simpa [hk.mentions, h.mentions] using hs.mentions
  erase := by simpa [Expr.erase, eraseEntries, hk.erase, h.erase] using hs.erase
  isVar := rfl

end Expr

theorem Number.constant_literal {n : Float} (h : Check.isFinite n = true) : (literal n).Constant := by
  rcases literal_cases h with ⟨-, hl⟩ | ⟨m, e, hn, -, hl⟩ | ⟨m, e, hn, hm, hl⟩
  · rw [hl]
    exact Expr.constant_number (by decide +kernel) (by decide +kernel)
  · rw [hl]
    exact Expr.constant_number (by simp [Check.isUnsigned, hn]) h
  · have hneg : Parts.ofFloat (-n) = .finite false m e := Parts.ofFloat_neg hn hm
    rw [hl]
    exact (Expr.constant_number (by simp [Check.isUnsigned, hneg]) (by simp [Check.isFinite, hneg])).unary .neg

theorem Key.constant_literal {k : Key} (h : k.Plain) : k.literal.Constant := by
  cases k with
  | none => exact ⟨rfl, rfl, trivial, rfl, rfl, rfl⟩
  | bool b => exact ⟨rfl, rfl, trivial, rfl, rfl, rfl⟩
  | num n => exact Number.constant_literal h
  | str s => exact ⟨rfl, rfl, trivial, rfl, rfl, rfl⟩
  | ref v => exact h.elim

mutual

/-- The expression of a datum is made of literals. -/
theorem Datum.constant_expr : ∀ {x : Datum}, x.Plain → x.expr.Constant
  | .none, _ | .bool _, _ | .str _, _ => ⟨rfl, rfl, trivial, rfl, rfl, rfl⟩
  | .num _, h => Number.constant_literal h
  | .list _, h => constant_itemExprs h
  | .dict _, h => constant_entryExprs h

theorem constant_itemExprs : ∀ {xs : List Datum}, DataPlain xs → (Expr.list () (itemExprs xs)).Constant
  | [], _ => Expr.constant_list_nil
  | _ :: _, h => (Datum.constant_expr h.1).list_cons (constant_itemExprs h.2)

theorem constant_entryExprs : ∀ {xs : List (Key × Datum)}, EntriesPlain xs →
    (Expr.dict () (entryExprs xs)).Constant
  | [], _ => Expr.constant_dict_nil
  | (_, _) :: _, h => (Key.constant_literal h.1.1).dict_cons (Datum.constant_expr h.1.2) (constant_entryExprs h.2)

end

/-- The statement that gives a variable the value of an expression. -/
def Expr.assignedTo (e : Expr Unit) (name : String) : Stmt Unit := .assign () [.var () ⟨name, .dynamic⟩] [e]

theorem Expr.print_assignedTo (e : Expr Unit) (name : String) :
    Program.print [e.assignedTo name] = name ++ " = " ++ e.print := by
  change String.intercalate "\n" [String.intercalate ", " [name] ++ " = " ++ String.intercalate ", " [e.print]] = _
  simp only [String.intercalate_singleton]

/-- A constant can be read back after it was assigned to a variable. -/
theorem Expr.Constant.legible_assignedTo {e : Expr Unit} (h : e.Constant) {name : String}
    (hn : Lexeme.isName name = true) : Program.Legible [e.assignedTo name] := by
  refine ⟨Body.module.refer name, ?_, ?_, ?_, ?_, ?_⟩
  · simp only [Expr.assignedTo, stmtsPass, Stmt.passes, exprsPass, Expr.passes, h.lexical, Bool.and_true]
    exact hn
  · simp only [Expr.assignedTo, stmtsPass, Stmt.passes, exprsPass, Expr.passes, h.clear, Bool.and_true]
    rfl
  · exact ⟨⟨⟨by simp, by simp [Expr.isTarget], trivial, trivial⟩, by simp, h.placed, trivial⟩, trivial⟩
  · have hscope : Body.module.scopeOf name = .dynamic := rfl
    simp [Expr.assignedTo, h.mentions, Body.follow?, hscope]
  · simp [Expr.assignedTo, h.mentions]

theorem Expr.Constant.parse_assignedTo {e : Expr Unit} (h : e.Constant) {name : String}
    (hn : Lexeme.isName name = true) (source : String) :
    (Source.parse ⟨source, name ++ " = " ++ e.print⟩).errors = .empty ∧
      (Source.parse ⟨source, name ++ " = " ++ e.print⟩).program.erase = [e.assignedTo name] := by
  have hparse := (h.legible_assignedTo hn).parse_print source
  have herase : Program.erase [e.assignedTo name] = [e.assignedTo name] := by
    simp [Expr.assignedTo, Program.erase, eraseStmts, Stmt.erase, eraseExprs, Expr.erase, h.erase]
  rwa [Expr.print_assignedTo, herase] at hparse

/-! ## Values of constants -/

/-- Equal numbers, as scripts see it. -/
def Number.Same (a b : Float) : Prop := (a == b) = true

namespace Machine

variable {m m' m'' : Machine σ} {eq : Float → Float → Prop} {x : Datum} {xs : List Datum} {v : Value}
  {vs : List Value}

/-- `m'` is `m` with further docs. -/
def Adds (m m' : Machine σ) : Prop :=
  ∃ docs, m' = { m with heap := { m.heap with docs := m.heap.docs ++ docs } }

theorem Adds.refl (m : Machine σ) : m.Adds m := ⟨#[], by simp⟩

theorem Adds.trans (h : m.Adds m') (h' : m'.Adds m'') : m.Adds m'' := by
  obtain ⟨docs, rfl⟩ := h
  obtain ⟨docs', rfl⟩ := h'
  exact ⟨docs ++ docs', by simp [Array.append_assoc]⟩

theorem Adds.arrayProto (h : m.Adds m') : m'.arrayProto = m.arrayProto := by
  obtain ⟨docs, rfl⟩ := h
  rfl

theorem Adds.doc? (h : m.Adds m') {id : DocId} {d : Doc} (hd : m.doc? id = some d) : m'.doc? id = some d := by
  obtain ⟨docs, rfl⟩ := h
  exact (Array.getElem?_append_left (Array.getElem?_eq_some_iff.1 hd).1).trans hd

theorem Adds.holds (h : m.Adds m') (hx : m.Holds eq x v) : m'.Holds eq x v :=
  hx.mono h.arrayProto fun _ _ => h.doc?

/-- Frames have no part in the content of a value. -/
theorem Holds.withFrames (h : m.Holds eq x v) (f : Frames → Frames) : (m.withFrames f).Holds eq x v := by
  have ha : (m.withFrames f).arrayProto = m.arrayProto := rfl
  exact h.mono ha fun _ _ hd => hd

theorem Adds.holdsEach (h : m.Adds m') (hx : m.HoldsEach eq xs vs) : m'.HoldsEach eq xs vs :=
  hx.mono h.arrayProto fun _ _ => h.doc?

theorem Adds.holdsEntries (h : m.Adds m') {es : List (Key × Datum)} {es' : List (Key × Value)}
    (hx : m.HoldsEntries eq es es') : m'.HoldsEntries eq es es' :=
  hx.mono h.arrayProto fun _ _ => h.doc?

theorem keys_indexed (vs : List Value) : (Doc.entriesOf (indexed vs)).map Prod.fst = indexKeys vs.length := by
  calc (Doc.entriesOf (indexed vs)).map Prod.fst
      = (vs.zipIdx.map Prod.snd).map fun i => Key.ofValue (.num (Number.ofNat i)) := by
        simp only [Doc.entriesOf, indexed, List.map_map]
        rfl
    _ = indexKeys vs.length := by rw [List.zipIdx_map_snd, ← List.range_eq_range', indexKeys]

theorem values_indexed (vs : List Value) : (Doc.entriesOf (indexed vs)).map Prod.snd = vs := by
  calc (Doc.entriesOf (indexed vs)).map Prod.snd = vs.zipIdx.map Prod.fst := by
        simp only [Doc.entriesOf, indexed, List.map_map]
        rfl
    _ = vs := List.zipIdx_map_fst 0 vs

/-- A new doc is there, and nothing else changes. -/
theorem after_newDoc (d : Doc) (m : Machine σ) :
    After (newDoc d) m (fun v m' => m.Adds m' ∧ ∃ id, v = .doc id ∧ m'.doc? id = some d) fun _ _ => False :=
  ⟨⟨#[d], by simp⟩, m.heap.docs.size, rfl, Array.getElem?_push_size⟩

/-- A new list holds its items. -/
theorem newList_holds (h : m.HoldsEach eq xs vs) (hs : KeysSorted (indexKeys xs.length)) :
    After (newList vs) m (fun v m' => m.Adds m' ∧ m'.Holds eq (.list xs) v) fun _ _ => False := by
  have hkeys := keys_indexed vs
  rw [h.length_eq] at hkeys
  have hsorted : (Doc.entriesOf (indexed vs)).Pairwise fun e e' => e.1.cmp e'.1 = .lt := by
    rw [← hkeys] at hs
    exact List.pairwise_map.1 hs
  have harray : arrayDoc m.arrayProto vs = ⟨Doc.entriesOf (indexed vs), some (.doc m.arrayProto)⟩ :=
    Doc.insertMany_eq _ hsorted
  have hnew : After (newList vs) m (fun v m' => m.Adds m' ∧ ∃ id, v = .doc id ∧
      m'.doc? id = some (arrayDoc m.arrayProto vs)) fun _ _ => False := after_newDoc _ m
  refine hnew.mono ?_ fun _ _ => id
  rintro _ m' ⟨hadds, id, rfl, hd⟩
  rw [harray] at hd
  refine ⟨hadds, id, _, rfl, hd, ?_, hkeys, ?_⟩
  · simp [isArray, hadds.arrayProto]
  · rw [values_indexed]
    exact hadds.holdsEach h

/-- A new dict holds its entries. -/
theorem newDict_holds {es : List (Key × Datum)} {kvs : List (Value × Value)}
    (h : m.HoldsEntries eq es (Doc.entriesOf kvs)) (hs : KeysSorted (es.map Prod.fst)) :
    After (newDoc (Doc.empty.insertMany kvs)) m (fun v m' => m.Adds m' ∧ m'.Holds eq (.dict es) v)
      fun _ _ => False := by
  have hsorted : (Doc.entriesOf kvs).Pairwise fun e e' => e.1.cmp e'.1 = .lt := by
    rw [← h.keys_eq] at hs
    exact List.pairwise_map.1 hs
  have hdict : Doc.empty.insertMany kvs = ⟨Doc.entriesOf kvs, none⟩ := Doc.insertMany_eq _ hsorted
  refine (after_newDoc _ m).mono ?_ fun _ _ => id
  rintro _ m' ⟨hadds, id, rfl, hd⟩
  rw [hdict] at hd
  exact ⟨hadds, id, _, rfl, hd, rfl, hadds.holdsEntries h⟩

end Machine

namespace Calls

variable (k : Calls σ)

/-- The value of a number is the key that it is : zero has no sign. -/
theorem eval_numberLiteral {n : Float} (h : Check.isFinite n = true) (m : Machine σ) :
    k.eval (Number.literal n) m = .ok (Key.ofValue (.num n)).toValue m := by
  rcases Number.literal_cases h with ⟨hn, hl⟩ | ⟨_, e, hn, hm, hl⟩ | ⟨_, e, hn, hm, hl⟩
  · have hzero : (n == 0) = true := by rcases hn with rfl | rfl <;> decide +kernel
    rw [hl, Key.ofValue, if_pos hzero, eval]
    rfl
  · rw [hl, Key.ofValue, if_neg (by simp [Parts.beq_zero_of_finite hn hm]), eval]
    rfl
  · rw [hl, Key.ofValue, if_neg (by simp [Parts.beq_zero_of_finite hn hm]), eval, eval]
    change EStateM.Result.ok (Value.num (-(-n))) m = _
    rw [Parts.neg_neg_of_finite hn hm]
    rfl

theorem eval_keyLiteral {key : Key} (hp : key.Plain) (hn : key.Normal) (m : Machine σ) :
    k.eval key.literal m = .ok key.toValue m := by
  cases key with
  | num n =>
    rw [Key.literal, k.eval_numberLiteral hp, show Key.ofValue (.num n) = .num n from hn]
  | ref v => exact hp.elim
  | _ =>
    rw [Key.literal, eval]
    rfl

theorem same_ofValue {n : Float} (h : Check.isFinite n = true) :
    ∃ b, (Key.ofValue (.num n)).toValue = .num b ∧ Number.Same n b := by
  refine ⟨_, rfl, ?_⟩
  unfold Number.Same
  split
  · next hz => exact hz
  · obtain ⟨s, e, t, hn⟩ := Number.exists_finite h
    exact Parts.beq_self_of_finite hn

mutual

/-- The value of the expression of a datum has that datum as its content. -/
theorem eval_expr : ∀ {x : Datum}, x.Plain → x.Sorted → ∀ m : Machine σ,
    After (k.eval x.expr) m (fun v m' => m.Adds m' ∧ m'.Holds Number.Same x v) fun _ _ => False
  | .none, _, _, m | .bool _, _, _, m | .str _, _, _, m => by
    rw [Datum.expr, eval, after_pure]
    exact ⟨.refl m, rfl⟩
  | .num n, hp, _, m => by
    rw [Datum.expr, after_of_ok (k.eval_numberLiteral hp m)]
    exact ⟨.refl m, same_ofValue hp⟩
  | .list xs, hp, hs, m => by
    rw [Datum.expr, eval]
    refine (evalEach_itemExprs hp hs.2 m).bind ?_
    rintro vs m' ⟨hadds, hv⟩
    exact (Machine.newList_holds hv hs.1).mono (fun _ _ h => ⟨hadds.trans h.1, h.2⟩) fun _ _ => id
  | .dict es, hp, hs, m => by
    rw [Datum.expr, eval]
    refine (evalEntries_entryExprs hp hs.2 m).bind ?_
    rintro kvs m' ⟨hadds, hv⟩
    exact (Machine.newDict_holds hv hs.1).mono (fun _ _ h => ⟨hadds.trans h.1, h.2⟩) fun _ _ => id

theorem evalEach_itemExprs : ∀ {xs : List Datum}, DataPlain xs → DataSorted xs → ∀ m : Machine σ,
    After (k.evalEach (itemExprs xs)) m (fun vs m' => m.Adds m' ∧ m'.HoldsEach Number.Same xs vs) fun _ _ => False
  | [], _, _, m => by
    rw [itemExprs, evalEach, after_pure]
    exact ⟨.refl m, rfl⟩
  | x :: xs, hp, hs, m => by
    rw [itemExprs, evalEach]
    refine (eval_expr hp.1 hs.1 m).bind ?_
    rintro v m₁ ⟨hadds₁, hv⟩
    refine (evalEach_itemExprs hp.2 hs.2 m₁).bind ?_
    rintro vs m₂ ⟨hadds₂, hvs⟩
    exact ⟨hadds₁.trans hadds₂, v, vs, rfl, hadds₂.holds hv, hvs⟩

theorem evalEntries_entryExprs : ∀ {xs : List (Key × Datum)}, EntriesPlain xs → EntriesSorted xs →
    ∀ m : Machine σ, After (k.evalEntries (entryExprs xs)) m
      (fun kvs m' => m.Adds m' ∧ m'.HoldsEntries Number.Same xs (Doc.entriesOf kvs)) fun _ _ => False
  | [], _, _, m => by
    rw [entryExprs, evalEntries, after_pure]
    exact ⟨.refl m, rfl⟩
  | (key, x) :: xs, hp, hs, m => by
    rw [entryExprs, evalEntries, after_bind, after_of_ok (k.eval_keyLiteral hp.1.1 hs.1.1 m)]
    refine (eval_expr hp.1.2 hs.1.2 m).bind ?_
    rintro v m₁ ⟨hadds₁, hv⟩
    refine (evalEntries_entryExprs hp.2 hs.2 m₁).bind ?_
    rintro kvs m₂ ⟨hadds₂, hvs⟩
    refine ⟨hadds₁.trans hadds₂, v, Doc.entriesOf kvs, ?_, hadds₂.holds hv, hvs⟩
    simp [Doc.entriesOf, show Key.ofValue key.toValue = key from hs.1.1]

end

end Calls

/-! ## Displayed values read back -/

/-- What no frame is around is assigned to in that frame. -/
theorem Frames.set_outermost {fs : Frames} {i : FrameId} (h : fs.parent? i = none) (x : String) (v : Value) :
    fs.set i x v = fs.define i x v := by
  have hchain : fs.chain i = [i] := by simp [chain, chainOf, h]
  rw [set, hchain, nearest?, List.find?_singleton]
  split <;> rfl

theorem Datum.expr_ne_call {x : Datum} (hp : x.Plain) (c : Expr Unit) (as : List (Expr Unit)) :
    x.expr ≠ .call () c as := by
  cases x with
  | num n => rcases Number.literal_cases hp with ⟨-, hl⟩ | ⟨_, _, -, -, hl⟩ | ⟨_, _, -, -, hl⟩ <;> simp [expr, hl]
  | _ => simp [expr]

theorem Calls.evalSpread_expr (k : Calls σ) {x : Datum} (hp : x.Plain) :
    k.evalSpread [x.expr] = do return [← k.eval x.expr] := by
  rw [evalSpread, evalSpread]
  · simp only [pure_bind]
  · exact fun _ c as h => absurd h (Datum.expr_ne_call hp c as)

/-- In the module, the assignment of an expression of a datum gives the variable a value with this content. -/
theorem Calls.exec_assignedTo (k : Calls σ) {x : Datum} (hp : x.Plain) (hs : x.Sorted) (name : String)
    {m : Machine σ} (hm : m.Tidy) (he : m.env = m.root) :
    ∃ m' v, k.exec (x.expr.assignedTo name) m = .ok () m' ∧ m'.root? name = some v ∧ m'.Holds Number.Same x v := by
  obtain ⟨v, m₁, hv, hadds, hholds⟩ := (k.eval_expr hp hs m).exists_ok
  have hspread : k.evalSpread [x.expr] m = .ok [v] m₁ := by
    rw [k.evalSpread_expr hp]
    simp only [bind, EStateM.bind, hv]
    rfl
  have hexec : k.exec (x.expr.assignedTo name) m =
      .ok () (m₁.withFrames fun fs => fs.set m₁.env name v) := by
    rw [Expr.assignedTo, exec]
    simp only [bind, EStateM.bind, Exec.lift, hspread]
    rfl
  refine ⟨_, v, hexec, ?_, hholds.withFrames _⟩
  obtain ⟨docs, rfl⟩ := hadds
  change (m.heap.frames.set m.env name v).getLocal? m.root name = some v
  rw [he, Frames.set_outermost hm.outermost, Frames.getLocal?_define, if_pos ⟨rfl, hm.root_lt, rfl⟩]

/-- Data are read back as they are displayed : a script that assigns to a variable what is displayed for a value made
of None, booleans, finite numbers, strings, lists and dicts of these, other than a string itself, runs to its end,
and the variable then has a value in the module with the same content. -/
theorem interpret_display {host : Host σ} {m : Machine σ} (hm : Session host m) {v : Value} {x : Datum}
    (h : m.Holds Eq x v) (hp : x.Plain) (hs : ∀ s, x ≠ .str s) {name : String} (hn : Lexeme.isName name = true)
    (fuel : Nat) :
    ∃ m' v', interpret host fuel (name ++ " = " ++ m.display v) m = (.done, m') ∧
      m'.root? name = some v' ∧ m'.Holds Number.Same x v' := by
  obtain ⟨herrors, hprogram⟩ := (Datum.constant_expr hp).parse_assignedTo hn scriptName
  have htidy : Machine.Tidy { m with env := m.root, depth := 0 } := hm.tidy.of_grows rfl (.refl _) hm.tidy.docs
  obtain ⟨m', v', hexec, hroot, hv'⟩ :=
    (Calls.within host fuel).exec_assignedTo hp (h.sorted hm.tidy) name htidy rfl
  refine ⟨m', v', ?_, hroot, hv'⟩
  simp only [interpret, Parsed.firstError?, Machine.display_eq h hp hs, herrors, hprogram, runProgram, hexec]
  rfl

/-- A host may put a dict on the heap. -/
theorem Session.newDict {host : Host σ} {m : Machine σ} (h : Session host m) (kvs : List (Value × Value)) :
    Session host (stateAfter (Machine.newDoc (Doc.empty.insertMany kvs) : Eval σ Value) m) :=
  .supply (fun _ _ => Discipline.ordered_newDoc h.tidy (Doc.ordered_empty.insertMany kvs)) (.refl _) h

/-- Nested data, with a negative key and a string that needs escapes. -/
def Datum.sample : Datum := .dict [(.num (-1), .list [.num 0.5, .str "a\n\"b\""]), (.str "k", .none)]

theorem interpret_display_sample : ∃ (m : Machine Thermometer) (v : Value),
    Session Thermometer.host m ∧ m.Holds Eq .sample v ∧
      m.display v = "\x7b-1: [0.5, \"a\\n\\\"b\\\"\"], \"k\": None\x7d" ∧
      ∃ m' v', interpret Thermometer.host 0 ("x" ++ " = " ++ m.display v) m = (.done, m') ∧
        m'.root? "x" = some v' ∧ m'.Holds Number.Same .sample v' := by
  let m₀ : Machine Thermometer := .build .empty .default
  have hs₀ : Session Thermometer.host m₀ := .build .default (by simp [Heap.Ordered, Heap.empty])
  let vs : List Value := [.num 0.5, .str "a\n\"b\""]
  have hitems : m₀.HoldsEach Eq [.num 0.5, .str "a\n\"b\""] vs := ⟨_, _, rfl, ⟨_, rfl, rfl⟩, _, _, rfl, rfl, rfl⟩
  let m₁ := stateAfter (Machine.newList vs : Eval Thermometer Value) m₀
  obtain ⟨-, hlist⟩ :
      m₀.Adds m₁ ∧ m₁.Holds Eq (.list [.num 0.5, .str "a\n\"b\""]) (.doc m₀.heap.docs.size) :=
    Machine.newList_holds hitems (by unfold KeysSorted; decide +kernel)
  let kvs : List (Value × Value) := [(.num (-1), .doc m₀.heap.docs.size), (.str "k", .none)]
  let m₂ := stateAfter (Machine.newDoc (Doc.empty.insertMany kvs) : Eval Thermometer Value) m₁
  have hkey : Key.ofValue (.num (-1)) = .num (-1) := by
    rw [Key.ofValue, if_neg (by decide +kernel)]
  have hentries : m₁.HoldsEntries Eq [(.num (-1), .list [.num 0.5, .str "a\n\"b\""]), (.str "k", .none)]
      (Doc.entriesOf kvs) := by
    refine ⟨.doc m₀.heap.docs.size, [(.str "k", .none)], ?_, hlist, _, _, rfl, rfl, rfl⟩
    simp only [Doc.entriesOf, kvs, List.map, hkey]
    rfl
  obtain ⟨-, hdict⟩ : m₁.Adds m₂ ∧ m₂.Holds Eq .sample (.doc m₁.heap.docs.size) :=
    Machine.newDict_holds hentries (by unfold KeysSorted; decide +kernel)
  have hs₂ : Session Thermometer.host m₂ := (hs₀.newList vs).newDict kvs
  have hfinite : Check.isFinite (-1) = true ∧ Check.isFinite 0.5 = true := by decide +kernel
  have hp : Datum.sample.Plain := ⟨⟨hfinite.1, hfinite.2, trivial, trivial⟩, ⟨trivial, trivial⟩, trivial⟩
  have hd : ∀ s, Datum.sample ≠ .str s := by simp [Datum.sample]
  refine ⟨m₂, _, hs₂, hdict, ?_, interpret_display hs₂ hdict hp hd (by decide +kernel) 0⟩
  rw [Machine.display_eq hdict hp hd]
  decide +kernel
end DocScript
