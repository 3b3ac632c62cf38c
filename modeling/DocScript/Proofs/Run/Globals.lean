import DocScript.Proofs.Grammar.Scoping
import DocScript.Proofs.Run.Restoration
import DocScript.Proofs.Run.Stored
import DocScript.Proofs.Written

/-!
# Globals are written through declarations

A variable is read from the globals if it is bound nowhere else, but it is written there only if it is
stamped as global, and that is what a `global` declaration of its function does. So code without such
declarations writes to no variable that is stamped so (`Function.Scoped.confined`). Whether a function
is called by the script that defines it or much later by the host, all that a machine stores is as
confined as what was put into it (`Discipline.confined`), and its globals are those that it was built
with (`globals_unchanged`).
-/

namespace DocScript

variable {α σ β γ ε : Type}

/-! ## Code without global declarations -/

/-- Nothing is declared global in the function, nor in a function inside it, at any depth. -/
inductive Function.GlobalFree : Function α → Prop where
  | intro {f : Function α} (here : ∀ x, .declaration x .global_ ∉ f.body.mentions)
      (inner : ∀ g, .function g ∈ f.body.mentions → g.GlobalFree) : f.GlobalFree

/-- Nothing is declared global in the script, at any depth. -/
structure Program.GlobalFree (p : Program α) : Prop where
  here : ∀ x, .declaration x .global_ ∉ mentionsOfStmts p
  functions : ∀ f, .function f ∈ mentionsOfStmts p → f.GlobalFree

/-- Whether the mentions declare nothing global, in functions that are nested at most `n` deep. -/
def globalFreeWithin : Nat → List (Mention α) → Bool
  | 0, _ => false
  | n + 1, ms => ms.all fun
    | .occurrence _ => true
    | .declaration _ s => s != .global_
    | .function f => globalFreeWithin n f.body.mentions

theorem Function.globalFree_of_within : ∀ (n : Nat) {f : Function α}, globalFreeWithin n f.body.mentions = true →
    f.GlobalFree
  | 0, _, h => by simp [globalFreeWithin] at h
  | n + 1, f, h => by
    have hall := List.all_eq_true.1 h
    refine .intro (fun x hx => ?_) fun g hg => globalFree_of_within n (hall _ hg)
    simpa using hall _ hx

theorem Program.globalFree_of_within {n : Nat} {p : Program α} (h : globalFreeWithin (n + 1) (mentionsOfStmts p) = true) :
    p.GlobalFree := by
  have hall := List.all_eq_true.1 h
  refine ⟨fun x hx => ?_, fun f hf => Function.globalFree_of_within n (hall _ hf)⟩
  simpa using hall _ hx

/-- Everything is allowed but to write to other variables than those of `W`. -/
def Rules.writing (W : Variable → Prop) : Rules := ⟨fun _ => True, W, fun _ => True, True⟩

/-- No variable that is stamped global may be written to. -/
def Rules.confined : Rules := .writing (·.scope ≠ .global_)

/-- What is said about names obeys : variables may be written to, and functions obey themselves. -/
def Mention.Obeys (R : Rules) : Mention α → Prop
  | .occurrence v => R.Writes v
  | .declaration _ _ => True
  | .function f => f.erase.Obeys R

section Mentions

variable {W : Variable → Prop}

mutual

/-- Code obeys rules about what is written to if all that it says about names does. -/
theorem Expr.obeys_of_mentions : ∀ {e : Expr α}, (∀ m ∈ e.mentions, m.Obeys (.writing W)) →
    e.erase.Obeys (.writing W)
  | .none _, _ | .bool _ _, _ | .number _ _, _ | .str _ _, _ | .var _ _, _ => trivial
  | .binary _ _ l r, h => by
    obtain ⟨hl, hr⟩ := List.forall_mem_append.1 h
    exact ⟨l.obeys_of_mentions hl, r.obeys_of_mentions hr⟩
  | .unary _ _ e, h => e.obeys_of_mentions h
  | .call _ f as, h => by
    obtain ⟨hf, has⟩ := List.forall_mem_append.1 h
    exact ⟨f.obeys_of_mentions hf, exprsObey_of_mentions has⟩
  | .index _ o k, h | .arrow _ o k, h => by
    obtain ⟨ho, hk⟩ := List.forall_mem_append.1 h
    exact ⟨o.obeys_of_mentions ho, k.obeys_of_mentions hk⟩
  | .protoDict _ p es, h => by
    obtain ⟨hp, hes⟩ := List.forall_mem_append.1 h
    exact ⟨p.obeys_of_mentions hp, entriesObey_of_mentions hes⟩
  | .list _ is, h => (exprsObey_of_mentions h : ExprsObey (.writing W) (eraseExprs is))
  | .dict _ es, h => (entriesObey_of_mentions h : EntriesObey (.writing W) (eraseEntries es))
  | .lambda _ f, h => ⟨trivial, h (.function f) (by simp)⟩

theorem exprsObey_of_mentions : ∀ {es : List (Expr α)}, (∀ m ∈ mentionsOfExprs es, m.Obeys (.writing W)) →
    ExprsObey (.writing W) (eraseExprs es)
  | [], _ => trivial
  | e :: es, h => by
    obtain ⟨he, hes⟩ := List.forall_mem_append.1 h
    exact ⟨e.obeys_of_mentions he, exprsObey_of_mentions hes⟩

theorem entriesObey_of_mentions : ∀ {es : List (Expr α × Expr α)},
    (∀ m ∈ mentionsOfEntries es, m.Obeys (.writing W)) → EntriesObey (.writing W) (eraseEntries es)
  | [], _ => trivial
  | (k, v) :: es, h => by
    obtain ⟨he, hes⟩ := List.forall_mem_append.1 h
    obtain ⟨hk, hv⟩ := List.forall_mem_append.1 he
    exact ⟨⟨k.obeys_of_mentions hk, v.obeys_of_mentions hv⟩, entriesObey_of_mentions hes⟩

end

/-- The targets of an assignment are assigned to as their mentions allow. -/
theorem assigns_of_mentions {ts : List (Expr α)} (h : ∀ m ∈ mentionsOfExprs ts, m.Obeys (.writing W)) :
    ∀ t ∈ eraseExprs ts, (Rules.writing W).Assigns t := by
  induction ts with
  | nil => simp [eraseExprs]
  | cons t ts ih =>
    obtain ⟨ht, hts⟩ := List.forall_mem_append.1 h
    refine List.forall_mem_cons.2 ⟨?_, ih hts⟩
    cases t with
    | var _ v => exact ⟨trivial, ht (.occurrence v) (by simp)⟩
    | _ => trivial

mutual

theorem Stmt.obeys_of_mentions : ∀ {s : Stmt α}, (∀ m ∈ s.mentions, m.Obeys (.writing W)) →
    s.erase.Obeys (.writing W)
  | .expr _ e, h => e.obeys_of_mentions h
  | .assign _ ts vs, h => by
    obtain ⟨hts, hvs⟩ := List.forall_mem_append.1 h
    exact ⟨assigns_of_mentions hts, exprsObey_of_mentions hts, exprsObey_of_mentions hvs⟩
  | .define _ ds v f, h => by
    obtain ⟨hds, hvf⟩ := List.forall_mem_append.1 h
    exact ⟨hvf (.occurrence v) (by simp), exprsObey_of_mentions hds, trivial, hvf (.function f) (by simp)⟩
  | .ifElse _ e y n, h => by
    obtain ⟨he, hb⟩ := List.forall_mem_append.1 h
    obtain ⟨hy, hn⟩ := List.forall_mem_append.1 hb
    exact ⟨e.obeys_of_mentions he, y.obeys_of_mentions hy, n.obeys_of_mentions hn⟩
  | .whileLoop _ e b, h => by
    obtain ⟨he, hb⟩ := List.forall_mem_append.1 h
    exact ⟨trivial, e.obeys_of_mentions he, b.obeys_of_mentions hb⟩
  | .forLoop _ vs e b, h => by
    obtain ⟨hvs, heb⟩ := List.forall_mem_append.1 h
    obtain ⟨he, hb⟩ := List.forall_mem_append.1 heb
    exact ⟨fun v hv => hvs (.occurrence v) (List.mem_map_of_mem hv), e.obeys_of_mentions he, b.obeys_of_mentions hb⟩
  | .attempt _ b hd c, h => by
    obtain ⟨hb, hrest⟩ := List.forall_mem_append.1 h
    obtain ⟨hh, hc⟩ := List.forall_mem_append.1 hrest
    exact ⟨b.obeys_of_mentions hb, handlerObeys_of_mentions hh, cleanupObeys_of_mentions hc⟩
  | .raise _ e, h => e.obeys_of_mentions h
  | .ret _ vs, h => (exprsObey_of_mentions h : ExprsObey (.writing W) (eraseExprs vs))
  | .break_ _, _ | .continue_ _, _ | .declare _ _ _, _ | .bad _ _, _ => trivial

theorem stmtsObey_of_mentions : ∀ {ss : List (Stmt α)}, (∀ m ∈ mentionsOfStmts ss, m.Obeys (.writing W)) →
    StmtsObey (.writing W) (eraseStmts ss)
  | [], _ => trivial
  | s :: ss, h => by
    obtain ⟨hs, hss⟩ := List.forall_mem_append.1 h
    exact ⟨s.obeys_of_mentions hs, stmtsObey_of_mentions hss⟩

theorem Block.obeys_of_mentions : ∀ {b : Block α}, (∀ m ∈ b.mentions, m.Obeys (.writing W)) →
    b.erase.Obeys (.writing W)
  | ⟨_, ss⟩, h => (stmtsObey_of_mentions h : StmtsObey (.writing W) (eraseStmts ss))

theorem handlerObeys_of_mentions : ∀ {h : Option (Handler α)},
    (∀ m ∈ mentionsOfHandler h, m.Obeys (.writing W)) → HandlerObeys (.writing W) (eraseHandler h)
  | none, _ => trivial
  | some ⟨v, b⟩, h => by
    obtain ⟨hv, hb⟩ := List.forall_mem_append.1 h
    refine ⟨fun x hx => hv (.occurrence x) (List.mem_map_of_mem ?_), b.obeys_of_mentions hb⟩
    exact Option.mem_toList.2 hx

theorem cleanupObeys_of_mentions : ∀ {c : Option (Block α)},
    (∀ m ∈ mentionsOfCleanup c, m.Obeys (.writing W)) → CleanupObeys (.writing W) (eraseCleanup c)
  | none, _ => trivial
  | some b, h => b.obeys_of_mentions h

end

end Mentions

/-- Where scopes are uniform and nothing is declared global, no variable is stamped global. -/
theorem Uniform.scope_ne_global {params : List String} {ms : List (Mention α)} (hu : Uniform params ms)
    (hd : ∀ x, .declaration x .global_ ∉ ms) {v : Variable} (hv : .occurrence v ∈ ms) : v.scope ≠ .global_ := by
  by_cases hx : ∃ s, .declaration v.name s ∈ ms
  · obtain ⟨s, hs⟩ := hx
    rw [(hu.declared hs).2.2.2 v hv rfl]
    rintro rfl
    exact hd _ hs
  · rw [hu.undeclared hv fun s hs => hx ⟨s, hs⟩]
    simp

/-- The mentions of uniformly scoped code without global declarations are confined if its functions are. -/
theorem Uniform.mentions_confined {params : List String} {ms : List (Mention α)} (hu : Uniform params ms)
    (hd : ∀ x, .declaration x .global_ ∉ ms) (hf : ∀ f, .function f ∈ ms → f.erase.Obeys .confined) :
    ∀ m ∈ ms, m.Obeys .confined := by
  intro m hm
  cases m with
  | occurrence v => exact hu.scope_ne_global hd hm
  | declaration _ _ => trivial
  | function f => exact hf f hm

/-- A uniformly scoped function without global declarations writes to no variable that is stamped
global. -/
theorem Function.Scoped.confined {f : Function α} (hs : f.Scoped) (hg : f.GlobalFree) : f.erase.Obeys .confined := by
  induction hs with
  | @intro f hu _ ih =>
    obtain ⟨hd, hinner⟩ := hg
    have hms : ∀ m ∈ f.body.mentions, m.Obeys .confined :=
      hu.mentions_confined hd fun g hm => ih g hm (hinner g hm)
    cases f
    exact Block.obeys_of_mentions hms

/-- An accepted script without global declarations is confined. -/
theorem Source.confined_program (s : Source) (h : s.parse.firstError? = none) (hg : s.parse.program.GlobalFree) :
    s.parse.program.erase.Obeys .confined := by
  obtain ⟨q, hq, -, -⟩ := s.program_keeps
  have hc : q.Clean := List.head?_eq_none_iff.1 (s.errors_parse hq ▸ h)
  have hr := Parse.program_reads (parseFuel s.tokens.length) [] (.start s s.tokens) fun _ => .of_module
  rw [after_of_ok hq] at hr
  obtain ⟨-, hb⟩ := hr hc
  have hms : ∀ m ∈ mentionsOfStmts s.parse.program, m.Obeys .confined :=
    hb.uniform.mentions_confined hg.here fun f hf => (hb.function hf).confined (hg.functions f hf)
  exact stmtsObey_of_mentions hms

/-! ## Operations that leave the globals alone -/

/-- Whatever comes of `x`, the globals are as before. -/
def SparesGlobals (x : EStateM ε (Machine σ) β) : Prop :=
  ∀ m, After x m (fun _ m' => m'.globals = m.globals) fun _ m' => m'.globals = m.globals

namespace SparesGlobals

theorem pure (b : β) : SparesGlobals (Pure.pure b : Eval σ β) := fun _ => rfl

theorem bind {x : Eval σ γ} {f : γ → Eval σ β} (hx : SparesGlobals x) (hf : ∀ c, SparesGlobals (f c)) :
    SparesGlobals (x >>= f) := by
  intro m
  rw [after_bind]
  refine (hx m).mono (fun c m' h => ?_) fun _ _ h => h
  exact h ▸ hf c m'

theorem lookup (v : Variable) : SparesGlobals (Machine.lookup v : Eval σ Value) := by
  intro m
  simp only [After, Machine.lookup]
  cases m.lookup? v <;> rfl

theorem defineLocal (x : String) (value : Value) :
    SparesGlobals (Machine.defineLocal x value : Eval σ Unit) := fun _ => rfl

/-- Only an assignment to a variable that is stamped global goes to the globals. -/
theorem assign {v : Variable} (hv : v.scope ≠ .global_) (value : Value) :
    SparesGlobals (Machine.assign v value : Eval σ Unit) := by
  intro m
  simp only [After, Machine.assign]
  cases hs : v.scope with
  | dynamic | local_ => rfl
  | global_ => exact absurd hs hv
  | nonlocal =>
    dsimp only
    cases m.heap.frames.assignOuter? m.env v.name value <;> rfl

theorem bindVariable {v : Variable} (hv : v.scope ≠ .global_) (value : Value) :
    SparesGlobals (Machine.bind v value : Eval σ Unit) := by
  unfold Machine.bind
  split
  · exact defineLocal _ _
  · exact assign hv _

theorem newFunction (f : Function Unit) : SparesGlobals (Machine.newFunction f : Eval σ Value) := fun _ => rfl

theorem newDoc (d : Doc) : SparesGlobals (Machine.newDoc d : Eval σ Value) := fun _ => rfl

theorem newList (items : List Value) : SparesGlobals (Machine.newList items : Eval σ Value) := fun _ => rfl

theorem newMethod (receiver callable : Value) :
    SparesGlobals (Machine.newMethod receiver callable : Eval σ Value) := fun _ => rfl

variable (host : Host σ)

theorem index (object key : Value) : SparesGlobals (Machine.index host object key) := by
  intro m
  cases object <;> rfl

theorem prototype (object : Value) : SparesGlobals (Machine.prototype host object) := by
  intro m
  cases object <;> rfl

theorem arrow (object key : Value) : SparesGlobals (Machine.arrow host object key) := by
  refine (prototype host object).bind fun proto => ?_
  cases proto with
  | none => exact pure _
  | some proto =>
    refine (index host proto key).bind fun found => ?_
    split
    · exact newMethod _ _
    · exact pure _

theorem setIndex (object key value : Value) : SparesGlobals (Machine.setIndex host object key value) := by
  intro m
  cases object with
  | box i _ =>
    simp only [After, Machine.setIndex]
    rcases m.heap.boxes[i]?.map (host.setIndex · key value) with _ | _ | _ <;> rfl
  | _ => rfl

theorem pairs (iterable : Value) : SparesGlobals (Machine.pairs iterable : Eval σ _) := by
  intro m
  cases iterable <;> rfl

theorem println (args : List Value) : SparesGlobals (Calls.println args : Eval σ Value) := fun _ => rfl

theorem len (args : List Value) : SparesGlobals (Calls.len args : Eval σ Value) := by
  intro m
  rcases args with _ | ⟨v, args⟩
  · rfl
  · cases v <;> rfl

theorem push (args : List Value) : SparesGlobals (Calls.push args : Eval σ Value) := by
  intro m
  rcases args with _ | ⟨v, args⟩
  · rfl
  · cases v <;> rfl

end SparesGlobals

/-! ## The discipline -/

/-- No function in the value writes to a variable that is stamped global. -/
def Value.Confined : Value → Prop
  | .func _ f => f.body.Obeys .confined
  | .method _ receiver callable => receiver.Confined ∧ callable.Confined
  | _ => True

variable {B : σ → Prop} {g : Bindings} {host : Host σ}

namespace Discipline

/-- The discipline of machines with the globals `g` that store confined values. -/
def confined (g : Bindings) (B : σ → Prop) : Discipline σ :=
  { Rules.confined with Good := Value.Confined, Holds := fun m => m.Stores Value.Confined B ∧ m.globals = g }

theorem storable_confined (h : host.Keeps Value.Confined B) : Storable .confined Value.Confined B host :=
  { h with
    none := trivial
    bool := fun _ => trivial
    num := fun _ => trivial
    str := fun _ => trivial
    doc := fun _ => trivial
    newFunction := fun {f} _ _ _ hf => by
      cases f
      exact hf
    func := id
    newMethod := fun _ hr hc _ => ⟨hr, hc⟩
    method := id }

theorem Maintains.confined {x : Eval σ β} {Q : β → Prop}
    (hx : (stored .confined Value.Confined B).Keeps x Q) (hg : SparesGlobals x) : (confined g B).Keeps x Q := by
  rintro m ⟨hm, rfl⟩
  exact ((hx m hm).and (hg m)).mono (fun _ _ h => ⟨⟨h.1.1, h.2⟩, h.1.2⟩) fun _ _ h => ⟨⟨h.1.1, h.2⟩, h.1.2⟩

theorem lawful_confined (h : host.Keeps Value.Confined B) : (confined g B).Lawful host :=
  have l := (storable_confined h).lawful
  { none := trivial
    bool := fun _ => trivial
    num := fun _ => trivial
    str := fun _ => trivial
    func := id
    method := id
    lookup := fun v => (l.lookup v).confined (.lookup v)
    assign := fun hw hv => (l.assign hw hv).confined (.assign hw _)
    bind := fun hw hv => (l.bind hw hv).confined (.bindVariable hw _)
    newFunction := fun hm hf => (l.newFunction hm hf).confined (.newFunction _)
    newDoc := fun hp he => (l.newDoc hp he).confined (.newDoc _)
    newList := fun hi => (l.newList hi).confined (.newList _)
    index := fun ho hk => (l.index ho hk).confined (.index _ _ _)
    arrow := fun ho hk => (l.arrow ho hk).confined (.arrow _ _ _)
    setIndex := fun ho hk hv => (l.setIndex ho hk hv).confined (.setIndex _ _ _ _)
    pairs := fun hi => (l.pairs hi).confined (.pairs _)
    println := fun ha => (l.println ha).confined (.println _)
    len := fun ha => (l.len ha).confined (.len _)
    push := fun ha => (l.push ha).confined (.push _)
    native := l.native }

theorem portable_confined : (confined g B).Portable where
  enter hm _ ha := ⟨hm.1.enter trivial ha, hm.2⟩
  leave _ hm _ := ⟨{ hm.1 with }, hm.2⟩

theorem callsKeep_confined (h : host.Keeps Value.Confined B) (n : Nat) :
    (confined g B).CallsKeep (callWithin host n) :=
  callsKeep_of_under fun c => callWithin_keeps (lawful_confined h) portable_confined trivial n c

end Discipline

/-! ## Sessions -/

/-- The machines that come from `start` by running scripts without global declarations and by calling
values, where all values that the host brings in are confined. Between these steps the host may change what is
on the heap. -/
inductive ConfinedSession (host : Host σ) (B : σ → Prop) (start : Machine σ) : Machine σ → Prop
  | start : ConfinedSession host B start start
  | interpret (n : Nat) {text : String} {m : Machine σ} :
    (Accepted text → (Source.parse ⟨scriptName, text⟩).program.GlobalFree) → ConfinedSession host B start m →
      ConfinedSession host B start (interpret host n text m).2
  | call (n : Nat) {callee : Value} {args : List Value} {m : Machine σ} : callee.Confined →
    (∀ v ∈ args, v.Confined) → ConfinedSession host B start m →
      ConfinedSession host B start (stateAfter (callWithin host n callee args) m)
  | callSingle (n : Nat) {callee : Value} {args : List Value} {m : Machine σ} : callee.Confined →
    (∀ v ∈ args, v.Confined) → ConfinedSession host B start m →
      ConfinedSession host B start (stateAfter (callSingle host n callee args) m)
  | supply {heap : Heap σ} {m : Machine σ} : heap.Stores Value.Confined B → ConfinedSession host B start m →
    ConfinedSession host B start { m with heap := heap }

theorem ConfinedSession.holds (h : host.Keeps Value.Confined B) {start m : Machine σ}
    (hstart : start.Stores Value.Confined B) (hm : ConfinedSession host B start m) :
    (Discipline.confined start.globals B).Holds m := by
  induction hm with
  | start => exact ⟨hstart, rfl⟩
  | interpret n hg _ ih =>
    exact (Discipline.interpret_keeps (Discipline.lawful_confined h) Discipline.portable_confined trivial
      ⟨{ ih.1 with }, ih.2⟩ fun ha => Source.confined_program _ ha (hg ha)).1.1
  | call n hc ha _ ih =>
    refine After.stateAfter ?_
    exact (Discipline.callsKeep_confined h n _ _ hc ha _ ih).mono (fun _ _ h => h.1) fun _ _ h => h.1
  | callSingle n hc ha _ ih =>
    refine After.stateAfter (After.bind ?_ fun _ _ h => h)
    exact (Discipline.callsKeep_confined h n _ _ hc ha _ ih).mono (fun _ _ h => h.1) fun _ _ h => h.1
  | supply hh _ ih => exact ⟨{ ih.1 with heap := hh }, ih.2⟩

/-- What is called with confined values in a session gives and raises confined values. -/
theorem ConfinedSession.call_confined (h : host.Keeps Value.Confined B) {start m : Machine σ}
    (hstart : start.Stores Value.Confined B) (hm : ConfinedSession host B start m) (n : Nat) {callee : Value}
    {args : List Value} (hc : callee.Confined) (ha : ∀ v ∈ args, v.Confined) :
    After (callWithin host n callee args) m (fun vs _ => ∀ v ∈ vs, v.Confined)
      fun f _ => ∀ payload, f = .raised payload → payload.Confined := by
  refine (Discipline.callsKeep_confined h n callee args hc ha m (hm.holds h hstart)).mono (fun _ _ hv => hv.2) ?_
  rintro f m' ⟨_, hf⟩ payload rfl
  exact hf

/-- The globals of a machine are those that it was built with, after every step of a session without
global declarations. The functions that the host may bring in or call are those that write to no variable that
is stamped global : uniformly scoped functions without global declarations, all that the machine stores, and all
that calls have given. -/
theorem globals_unchanged (h : host.Keeps Value.Confined B) {heap : Heap σ} {c : Config}
    (hh : heap.Stores Value.Confined B) (hc : ∀ g ∈ c.globals, g.2.Confined) :
    (∀ m, ConfinedSession host B (.build heap c) m →
      m.globals = (Machine.build heap c).globals ∧ m.Stores Value.Confined B ∧
        ∀ n callee args, callee.Confined → (∀ v ∈ args, v.Confined) →
          After (callWithin host n callee args) m (fun vs _ => ∀ v ∈ vs, v.Confined)
            fun f _ => ∀ payload, f = .raised payload → payload.Confined) ∧
      ∀ (f : Function Span) (id : Nat) (env : FrameId), f.Scoped → f.GlobalFree →
        (Value.func id ⟨f.name, f.params, f.body.erase, env⟩).Confined := by
  have hstart : (Machine.build heap c).Stores Value.Confined B :=
    Machine.stores_build (fun _ => trivial) (fun _ => trivial) (fun _ => trivial) (fun _ _ _ => trivial) hh hc
  refine ⟨fun m hm => ?_, fun f _ _ hs hg => ?_⟩
  · obtain ⟨hstores, hglobals⟩ := hm.holds h hstart
    exact ⟨hglobals, hstores, fun n _ _ hcallee hargs => hm.call_confined h hstart n hcallee hargs⟩
  · have hf : f.erase.Obeys .confined := hs.confined hg
    cases f
    exact hf

/-- A script assigns to `println`, defines it, loops with it and catches with it, in its module and in a function
that the host calls afterwards. -/
theorem globals_unchanged_println :
    let text := "def f(argv):\n    println = argv\n    for println in argv:\n        raise println\n" ++
      "try:\n    f(\"ab\")\nexcept as println:\n    def println(x):\n        nonlocal f\n        f = x\n"
    let start : Machine Thermometer := .build .empty { Config.default with argv := some ["a"] }
    let m := (interpret Thermometer.host 9 text start).2
    let f := (m.root? "f").getD .none
    Accepted text ∧ (Source.parse ⟨scriptName, text⟩).program.GlobalFree ∧
      m.globals = start.globals ∧ (stateAfter (callWithin Thermometer.host 9 f [.str "ab"]) m).globals = start.globals := by
  intro text start m f
  have ht : Accepted text := by decide +kernel
  have hg : (Source.parse ⟨scriptName, text⟩).program.GlobalFree :=
    Program.globalFree_of_within (n := 2) (by decide +kernel)
  have hh : Thermometer.host.Keeps Value.Confined fun _ => True :=
    Thermometer.keeps trivial (fun _ => trivial) (fun _ => trivial) fun _ => trivial
  have kept := (globals_unchanged (c := { Config.default with argv := some ["a"] }) hh Heap.stores_empty
    (by simp [Config.default])).1
  have hm : ConfinedSession Thermometer.host (fun _ => True) start m := .interpret 9 (fun _ => hg) .start
  have hf : f.Confined := by
    cases hroot : m.root? "f" with
    | none => simp [f, hroot, Value.Confined]
    | some v =>
      have hv : v.Confined := (kept m hm).2.1.heap.frames _ _ _ hroot
      simpa [f, hroot] using hv
  exact ⟨ht, hg, (kept m hm).1, (kept _ (.call 9 hf (by simp [Value.Confined]) hm)).1⟩

end DocScript
