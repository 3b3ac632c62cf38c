import DocScript.Proofs.Grammar.Placement
import DocScript.Proofs.Grammar.Stamps

/-!
# What a parser knows about the names of a body

The scope of an occurrence is fixed when the occurrence is read, from the names declared so far in the
body at hand. That all occurrences of a name agree in the end, also those in front of its declaration
and those in other blocks, is due to two checks : a name that was used in a body, or is a parameter, is
not declared there any more, and a declared name is not declared with another scope.

`Records params ms b` is what these checks maintain : if `ms` are the mentions read so far in a function
with the given parameters, then its body `b` tells the scope of every occurrence in `ms`, and its declared
names are those that `ms` declares. It is kept by every step from one mention to the next
(`Records.refer`, `Records.declare`, `Records.made`), and at the end of the function it gives that the
scopes are uniform (`Records.function_scoped`). The body also is where the mentions lead, so that the same
mentions would be read with the same scopes again (`Records.function_stamped`).

A statement that is rejected leaves declarations and uses in the body, and no mentions in the program. So
all of this holds only as long as nothing was wrong : a parser is `Clean` if it recorded no diagnostic, and
once it is not clean it never is again. `Parse.Reads` carries a statement about bodies through a reader
under this proviso.
-/

namespace DocScript

/-! ## Declarations -/

namespace Body

variable {b : Body} {x y : String} {s : Scope}

theorem lookup_declare (b : Body) (x y : String) (s : Scope) :
    (b.declare x s).declared.lookup y = if y = x then some s else b.declared.lookup y := by
  by_cases hy : y = x
  · simp [declare, hy]
  · have hb : (y == x) = false := beq_false_of_ne hy
    simp only [declare, List.lookup_cons, hb, hy, if_false]

/-- What `objection?` leaves : the name has the declared scope already, or it is not in use. -/
theorem lookup_of_objection (h : b.objection? x s = none) :
    b.declared.lookup x = some s ∨ b.declared.lookup x = none ∧ x ∉ b.referenced := by
  unfold objection? at h
  cases hl : b.declared.lookup x with
  | some old =>
    have ho : old = s := by simpa [hl] using h
    exact .inl (ho ▸ rfl)
  | none => exact .inr ⟨rfl, by simpa [hl] using h⟩

/-- A declaration without objection changes no scope of a name that was used. -/
theorem lookup_declare_of_referenced (h : b.objection? x s = none)
    (hy : y ∈ b.referenced) : (b.declare x s).declared.lookup y = b.declared.lookup y := by
  rw [lookup_declare]
  split
  · next he =>
    subst he
    rcases lookup_of_objection h with hl | ⟨-, hr⟩
    · exact hl.symm
    · exact absurd hy hr
  · rfl

end Body

/-! ## What a body records -/

variable {α : Type}

/-- The body `b` of a function with the parameters `params` knows the mentions `ms` that were read. -/
structure Records (params : List String) (ms : List (Mention α)) (b : Body) : Prop where
  occurrence : ∀ {v}, .occurrence v ∈ ms → v.name ∈ b.referenced ∧ v.scope = b.scopeOf v.name
  declaration : ∀ {x s}, .declaration x s ∈ ms ↔ b.declared.lookup x = some s
  function : ∀ {f}, .function f ∈ ms → f.Scoped
  param : ∀ {x}, x ∈ params → x ∈ b.referenced ∧ b.declared.lookup x = none
  declared : ∀ {x s}, b.declared.lookup x = some s → b.isFunction = true ∧ s ≠ .dynamic
  stamped : ∀ {f}, .function f ∈ ms → f.Stamped
  follows : Body.follow? ⟨b.isFunction, 0, [], params⟩ ms = some { b with loopDepth := 0 }

namespace Records

variable {params : List String} {ms : List (Mention α)} {b : Body} {x : String} {s : Scope}

theorem of_function (params : List String) :
    Records params ([] : List (Mention α)) (.function params) where
  occurrence h := by simp at h
  declaration := by simp [Body.function]
  function h := by simp at h
  param h := ⟨h, rfl⟩
  declared h := by simp [Body.function] at h
  stamped h := by simp at h
  follows := rfl

theorem of_module : Records [] ([] : List (Mention α)) .module where
  occurrence h := by simp at h
  declaration := by simp [Body.module]
  function h := by simp at h
  param h := by simp at h
  declared h := by simp [Body.module] at h
  stamped h := by simp at h
  follows := rfl

/-- How many loops are open makes no difference. -/
theorem loop (h : Records params ms b) (n : Nat) : Records params ms { b with loopDepth := n } :=
  { h with }

/-- An occurrence gets the scope that its name has in the body. -/
theorem refer (h : Records params ms b) (x : String) :
    Records params (ms ++ [.occurrence ⟨x, b.scopeOf x⟩]) (b.refer x) where
  occurrence {v} hv := by
    rcases List.mem_append.1 hv with hv | hv
    · obtain ⟨hr, hs⟩ := h.occurrence hv
      exact ⟨List.mem_cons_of_mem x hr, hs⟩
    · obtain rfl : v = ⟨x, b.scopeOf x⟩ := by simpa using hv
      exact ⟨List.mem_cons_self, rfl⟩
  declaration {y t} := by simpa [Body.refer] using h.declaration (x := y) (s := t)
  function hf := h.function (by simpa using hf)
  param hx := ⟨List.mem_cons_of_mem x (h.param hx).1, (h.param hx).2⟩
  declared := h.declared
  stamped hf := h.stamped (by simpa using hf)
  follows := by
    have hscope : Body.scopeOf { b with loopDepth := 0 } x = b.scopeOf x := rfl
    have hb : (b.refer x).isFunction = b.isFunction := rfl
    rw [Body.follow?_append, hb, h.follows, Option.bind_some, Body.follow?, if_pos hscope]
    rfl

/-- A declaration without objection is recorded beside the earlier ones. -/
theorem declare (h : Records params ms b) (hf : b.isFunction = true) (hs : s ≠ .dynamic)
    (ho : b.objection? x s = none) :
    Records params (ms ++ [.declaration x s]) (b.declare x s) where
  occurrence {v} hv := by
    obtain ⟨hr, hv⟩ := h.occurrence (v := v) (by simpa using hv)
    refine ⟨hr, hv.trans ?_⟩
    rw [Body.scopeOf, Body.scopeOf, Body.lookup_declare_of_referenced ho hr]
  declaration {y t} := by
    rw [Body.lookup_declare]
    by_cases hy : y = x
    · subst hy
      -- an earlier declaration of the same name has the same scope
      have ht : .declaration y t ∈ ms → t = s := by
        intro hm
        have hl := h.declaration.1 hm
        rcases Body.lookup_of_objection ho with hl' | ⟨hl', -⟩
        · exact Option.some.inj (hl.symm.trans hl')
        · simp [hl'] at hl
      simpa [eq_comm] using ht
    · simpa [hy] using h.declaration
  function hm := h.function (by simpa using hm)
  param hx := by
    obtain ⟨hr, hl⟩ := h.param hx
    exact ⟨hr, (Body.lookup_declare_of_referenced ho hr).trans hl⟩
  declared {y t} hl := by
    rw [Body.lookup_declare] at hl
    split at hl
    · exact ⟨hf, Option.some.inj hl ▸ hs⟩
    · exact h.declared hl
  stamped hm := h.stamped (by simpa using hm)
  follows := by
    have hobj : Body.objection? { b with loopDepth := 0 } x s = none := ho
    have hb : (b.declare x s).isFunction = b.isFunction := rfl
    rw [Body.follow?_append, hb, h.follows, Option.bind_some, Body.follow?, hobj]
    rfl

/-- A function whose own body is done is one more mention. -/
theorem made (h : Records params ms b) {f : Function α} (hf : f.Scoped) (hs : f.Stamped) :
    Records params (ms ++ [.function f]) b where
  occurrence hv := h.occurrence (by simpa using hv)
  declaration {y t} := by simpa using h.declaration (x := y) (s := t)
  function {g} hg := by
    rcases List.mem_append.1 hg with hg | hg
    · exact h.function hg
    · obtain rfl : g = f := by simpa using hg
      exact hf
  param := h.param
  declared := h.declared
  stamped {g} hg := by
    rcases List.mem_append.1 hg with hg | hg
    · exact h.stamped hg
    · obtain rfl : g = f := by simpa using hg
      exact hs
  follows := by
    rw [Body.follow?_append, h.follows]
    rfl

theorem scopeOf_eq (h : Records params ms b) (hx : .declaration x s ∈ ms) : b.scopeOf x = s := by
  rw [Body.scopeOf, h.declaration.1 hx, Option.getD_some]

/-- At the end of a body the scopes in it are uniform. -/
theorem uniform (h : Records params ms b) : Uniform params ms where
  declared {x s} hx := by
    have hl := h.declaration.1 hx
    refine ⟨(h.declared hl).2, fun hp => ?_, fun s' hs' => ?_, fun v hv hn => ?_⟩
    · simp [(h.param hp).2] at hl
    · exact (h.scopeOf_eq hs').symm.trans (h.scopeOf_eq hx)
    · exact (h.occurrence hv).2.trans (hn ▸ h.scopeOf_eq hx)
  undeclared {v} hv hn := by
    rw [(h.occurrence hv).2, Body.scopeOf]
    cases hl : b.declared.lookup v.name with
    | some s => exact absurd (h.declaration.2 hl) (hn s)
    | none => rfl

theorem function_scoped {f : Function α} (h : Records f.params f.body.mentions b) : f.Scoped :=
  .intro h.uniform fun _ => h.function

theorem function_stamped {f : Function α} (h : Records f.params f.body.mentions b) (hb : b.isFunction = true) :
    f.Stamped := by
  have hf := h.follows
  rw [hb] at hf
  exact .intro (by rw [Body.function, hf]; exact nofun) fun _ => h.stamped

end Records

/-! ## Parsers that recorded no diagnostic -/

theorem Diagnostics.stored_push_ne_nil (ds : Diagnostics) (d : Diagnostic) : (ds.push d).stored ≠ [] := by
  unfold push
  by_cases h : ds.stored.length < capacity
  · simp [h]
  · intro he
    simp only [h, if_false] at he
    simp [he, capacity] at h

/-- The diagnostics in front of a token are recorded beside the earlier ones. -/
theorem stored_of_nextToken (source : Source) (last : Token) :
    ∀ (ts : List Token) (ds : Diagnostics),
      (nextToken source last ts ds).2.2.stored = [] → ds.stored = []
  | [], _, h => h
  | t :: ts, ds, h => by
    rw [nextToken] at h
    split at h
    · exact absurd (stored_of_nextToken source last ts _ h) (ds.stored_push_ne_nil _)
    · exact h

namespace Parser

/-- Nothing was wrong so far. -/
def Clean (p : Parser) : Prop := p.errors.stored = []

theorem not_clean_complain (p : Parser) (t : Token) (problem : Problem) :
    ¬(p.complain t problem).Clean :=
  p.errors.stored_push_ne_nil _

theorem Clean.of_advance {p : Parser} (h : p.advance.Clean) : p.Clean :=
  stored_of_nextToken p.source p.current p.upcoming p.errors h

theorem Clean.of_synchronizeWithin :
    ∀ {n : Nat} {p : Parser}, (synchronizeWithin n p).Clean → p.Clean
  | 0, _, h => h
  | n + 1, p, h => by
    rw [synchronizeWithin] at h
    split at h
    · exact h
    · exact (of_synchronizeWithin h).of_advance

theorem Clean.of_recover {p q : Parser} (h : (p.recover q).Clean) : q.Clean := by
  have hq := of_synchronizeWithin h
  split at hq
  · exact hq.of_advance
  · exact hq

theorem clean_leaveFunction (p : Parser) : p.leaveFunction.Clean ↔ p.Clean := by
  unfold leaveFunction Clean
  split <;> rfl

end Parser

/-! ## Basic readers -/

namespace Parse

variable {β γ : Type}

/-- If `P` holds of the body as long as nothing was wrong, then after `x` the result and the body satisfy
`Q` as long as nothing was wrong; and if `x` is rejected, something was wrong. -/
def Reads (x : Parse β) (P : Body → Prop) (Q : β → Body → Prop) : Prop :=
  ∀ p : Parser, (p.Clean → P p.body) →
    After x p (fun a q => q.Clean → p.Clean ∧ Q a q.body) (fun e q => e = .rejected → ¬q.Clean)

namespace Reads

variable {x : Parse β} {f : β → Parse γ} {P P' : Body → Prop} {Q : β → Body → Prop}
  {R : γ → Body → Prop}

theorem pure {a : β} (h : ∀ b, P b → Q a b) : (Pure.pure a : Parse β).Reads P Q :=
  fun _ hp hc => ⟨hc, h _ (hp hc)⟩

theorem bind (h : x.Reads P Q) (hf : ∀ a, (f a).Reads (Q a) R) : (x >>= f).Reads P R := by
  intro p hp
  refine (h p hp).bind fun a q hq => ?_
  refine (hf a q fun hc => (hq hc).2).mono (fun _ _ hr hc => ?_) fun _ _ => id
  obtain ⟨hq', hr⟩ := hr hc
  exact ⟨(hq hq').1, hr⟩

theorem weaken (h : x.Reads P Q) (hP : ∀ b, P' b → P b) : x.Reads P' Q :=
  fun p hp => h p fun hc => hP _ (hp hc)

theorem outOfFuel : (Parse.outOfFuel : Parse β).Reads P Q :=
  fun _ _ he => nomatch he

theorem rejectAt_bind (t : Token) (problem : Problem) : (Parse.rejectAt t problem >>= f).Reads P R :=
  fun p _ _ => p.not_clean_complain _ _

theorem reject_bind (problem : Problem) : (Parse.reject problem >>= f).Reads P R :=
  fun p _ _ => p.not_clean_complain _ _

theorem rejectPrevious_bind (problem : Problem) : (Parse.rejectPrevious problem >>= f).Reads P R :=
  fun p _ _ => p.not_clean_complain _ _

theorem reject (problem : Problem) : (Parse.reject problem : Parse β).Reads P Q :=
  fun p _ _ => p.not_clean_complain _ _

theorem peek : Parse.peek.Reads P fun _ => P :=
  fun _ hp hc => ⟨hc, hp hc⟩

theorem peekKind : Parse.peekKind.Reads P fun _ => P :=
  fun _ hp hc => ⟨hc, hp hc⟩

theorem previous : Parse.previous.Reads P fun _ => P :=
  fun _ hp hc => ⟨hc, hp hc⟩

theorem at? (kind : TokenKind) : (Parse.at? kind).Reads P fun _ => P :=
  fun _ hp hc => ⟨hc, hp hc⟩

theorem atEnd : Parse.atEnd.Reads P fun _ => P :=
  fun _ hp hc => ⟨hc, hp hc⟩

theorem body : Parse.body.Reads P fun b b' => P b' ∧ b' = b :=
  fun _ hp hc => ⟨hc, hp hc, rfl⟩

theorem advance : Parse.advance.Reads P fun _ => P :=
  fun _ hp hc => ⟨hc.of_advance, hp hc.of_advance⟩

theorem eat (kind : TokenKind) : (Parse.eat kind).Reads P fun _ => P :=
  fun p hp => (after_eat kind).2 ⟨fun _ => advance p hp, fun _ hc => ⟨hc, hp hc⟩⟩

theorem expect (kind : TokenKind) : (Parse.expect kind).Reads P fun _ => P :=
  fun p hp => (after_expect kind).2 ⟨fun _ => advance p hp, fun _ _ => p.not_clean_complain _ _⟩

theorem identifier : Parse.identifier.Reads P fun _ => P :=
  fun p hp => after_identifier.2 ⟨fun _ _ => advance p hp, fun _ _ => p.not_clean_complain _ _⟩

theorem lineEnd : Parse.lineEnd.Reads P fun _ => P :=
  fun p hp => after_lineEnd.2
    ⟨fun _ => advance p hp, fun _ _ hc => ⟨hc, hp hc⟩, fun _ _ _ => p.not_clean_complain _ _⟩

variable {params : List String} {ms ms' : List (Mention α)}

/-- What is given at the end has the mentions that were recorded on the way. -/
theorem give {a : β} {g : β → List (Mention α)} (h : ms = g a) :
    (Pure.pure a : Parse β).Reads (Records params ms) fun a => Records params (g a) :=
  .pure fun _ hb => h ▸ hb

theorem of_eq (h : x.Reads (Records params ms) Q) (he : ms' = ms) : x.Reads (Records params ms') Q :=
  he ▸ h

theorem resolve (name : String) : (Parse.resolve name).Reads (Records params ms)
    fun v => Records params (ms ++ [.occurrence v]) :=
  fun _ hp hc => ⟨hc, (hp hc).refer name⟩

theorem declare {scope : Scope} (hs : scope ≠ .dynamic) (name : String) (t : Token) :
    (Parse.declare name scope t).Reads (fun b => Records params ms b ∧ b.isFunction = true)
      fun _ b => Records params (ms ++ [.declaration name scope]) b ∧ b.isFunction = true := by
  intro p hp
  refine (after_declare name scope t).2 ⟨fun ho hc => ⟨hc, ?_⟩, fun _ _ _ => p.not_clean_complain _ _⟩
  obtain ⟨hr, hf⟩ := hp hc
  exact ⟨hr.declare hf hs ho, hf⟩

/-- A loop does not count as a body of its own. -/
theorem inLoop {g : β → List (Mention α)}
    (h : x.Reads (Records params ms) fun a => Records params (g a)) :
    (Parse.inLoop x).Reads (Records params ms) fun a => Records params (g a) := by
  intro p hp
  refine (after_inLoop x).2 ((h p.enterLoop fun hc => (hp hc).loop _).mono ?_ fun _ _ => id)
  intro a q hq hc
  obtain ⟨hc', hr⟩ := hq hc
  exact ⟨hc', hr.loop _⟩

/-- The body around a function stays what it was while the function is read. -/
theorem inFunction {K : Nesting → β → Prop} (hk : ∀ c, x.Keeps c (K c))
    (h : x.Reads (Records params ([] : List (Mention α))) Q) :
    (Parse.inFunction params x).Reads P fun a b => P b ∧ ∃ b', Q a b' ∧ b'.isFunction = true := by
  intro p hp
  have hx := (hk _ (p.enterFunction params) rfl).and (h _ fun _ => .of_function params)
  refine (after_inFunction params x).2 (hx.mono ?_ ?_)
  · rintro a q ⟨⟨hn, -⟩, hq⟩ hc
    obtain ⟨hc', hQ⟩ := hq (q.clean_leaveFunction.1 hc)
    have he : q.enclosing = p.body :: p.enclosing := congrArg Nesting.enclosing hn
    have hb : q.leaveFunction.body = p.body := by simp [Parser.leaveFunction, he]
    exact ⟨hc', hb ▸ hp hc', _, hQ, congrArg Nesting.isFunction hn⟩
  · rintro e q ⟨-, hq⟩ he
    exact mt q.clean_leaveFunction.1 (hq he)

/-- Behind a rejected statement the parser is not clean. -/
theorem recovering {x : Parse (Option (Stmt Span))} {Q : Option (Stmt Span) → Body → Prop}
    (h : x.Reads P Q) : (Parse.recovering x).Reads P Q := by
  intro p hp
  refine (after_recovering x).2 ((h p hp).mono (fun _ _ => id) fun e q hq => ?_)
  cases e with
  | rejected => exact fun hc => absurd hc.of_recover (hq rfl)
  | outOfFuel => exact hq

end Reads

end Parse

end DocScript
