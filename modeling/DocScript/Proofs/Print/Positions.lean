import DocScript.Proofs.Grammar.Readers

/-!
# Readers in front of known tokens

`Parser.At p ks b bs ds` says where a parser stands : in front of tokens of the kinds `ks`, none of them an
error, in the body `b` inside the bodies `bs`, with the diagnostics `ds`. `Parse.Gets x ks K b b' Q` says of the
reader `x` that from such a place it reads up to the tokens `K` without a complaint, changes the body to `b'`,
and gives a result with the property `Q`; only the fuel may not suffice. As for other properties of readers,
there is one rule for each basic reader.
-/

namespace DocScript

/-- Where a parser stands. -/
structure Parser.At (p : Parser) (ks : List TokenKind) (b : Body) (bs : List Body) (ds : Diagnostics) :
    Prop where
  kinds : p.current.kind :: p.upcoming.map Token.kind = ks
  sound : ∀ k ∈ ks, k.isError = false
  body : p.body = b
  enclosing : p.enclosing = bs
  errors : p.errors = ds

theorem Source.scanError?_eq_none (s : Source) {t : Token} (h : t.kind.isError = false) :
    s.scanError? t = none := by
  unfold scanError?
  split
  · next e he => simp [he, TokenKind.isError] at h
  · rfl

namespace Parser.At

variable {p : Parser} {k : TokenKind} {ks : List TokenKind} {b : Body} {bs : List Body} {ds : Diagnostics}

theorem kind (h : p.At (k :: ks) b bs ds) : p.current.kind = k := (List.cons.inj h.kinds).1

theorem advance (h : p.At (k :: ks) b bs ds) (hks : ks ≠ []) : p.advance.At ks b bs ds := by
  obtain ⟨k', ks, rfl⟩ := List.exists_cons_of_ne_nil hks
  obtain ⟨-, hup⟩ := List.cons.inj h.kinds
  cases hu : p.upcoming with
  | nil => simp [hu] at hup
  | cons t ts =>
    rw [hu, List.map_cons] at hup
    obtain ⟨ht, hts⟩ := List.cons.inj hup
    have herr : p.source.scanError? t = none :=
      p.source.scanError?_eq_none (by rw [ht]; exact h.sound k' (by simp))
    have hnext : nextToken p.source p.current p.upcoming p.errors = (t, ts, p.errors) := by
      rw [hu, nextToken, herr]
    refine ⟨?_, fun x hx => h.sound x (by simp [List.mem_cons.1 hx]), h.body, h.enclosing, ?_⟩
    · simp [Parser.advance, hnext, ht, hts]
    · change (nextToken p.source p.current p.upcoming p.errors).2.2 = ds
      rw [hnext, h.errors]

end Parser.At

namespace Parse

variable {β γ : Type}

/-- From a parser in front of `ks` in the body `b`, `x` reads up to `K` and gives a result with the property
`Q`, in the body `b'`. -/
def Gets (x : Parse β) (ks K : List TokenKind) (b b' : Body) (Q : β → Prop) : Prop :=
  ∀ p bs ds, p.At ks b bs ds →
    After x p (fun a q => Q a ∧ q.At K b' bs ds) (fun e _ => e = .outOfFuel)

namespace Gets

variable {x : Parse β} {f : β → Parse γ} {k kind : TokenKind} {ks ks' K : List TokenKind} {b b' b'' : Body}
  {Q : β → Prop} {R : γ → Prop}

theorem pure {a : β} (h : Q a) : (Pure.pure a : Parse β).Gets ks ks b b Q := fun _ _ _ hp => ⟨h, hp⟩

theorem bind (h : x.Gets ks ks' b b' Q) (hf : ∀ a, Q a → (f a).Gets ks' K b' b'' R) :
    (x >>= f).Gets ks K b b'' R :=
  fun p bs ds hp => (h p bs ds hp).bind fun a q hq => hf a hq.1 q bs ds hq.2

theorem mono {Q' : β → Prop} (h : x.Gets ks K b b' Q) (hQ : ∀ a, Q a → Q' a) : x.Gets ks K b b' Q' :=
  fun p bs ds hp => (h p bs ds hp).mono (fun a _ hq => ⟨hQ a hq.1, hq.2⟩) fun _ _ => id

theorem outOfFuel : (Parse.outOfFuel : Parse β).Gets ks K b b' Q := fun _ _ _ _ => rfl

theorem peek : Parse.peek.Gets (k :: ks) (k :: ks) b b (·.kind = k) := fun _ _ _ hp => ⟨hp.kind, hp⟩

theorem peekKind : Parse.peekKind.Gets (k :: ks) (k :: ks) b b (· = k) := fun _ _ _ hp => ⟨hp.kind, hp⟩

theorem previous : Parse.previous.Gets ks ks b b fun _ => True := fun _ _ _ hp => ⟨trivial, hp⟩

theorem body : Parse.body.Gets ks ks b b (· = b) := fun _ _ _ hp => ⟨hp.body, hp⟩

theorem at? (kind : TokenKind) : (Parse.at? kind).Gets (k :: ks) (k :: ks) b b (· = decide (k = kind)) :=
  fun _ _ _ hp => ⟨by simp [hp.kind], hp⟩

theorem atEnd : Parse.atEnd.Gets (k :: ks) (k :: ks) b b (· = decide (k = .endOfFile)) :=
  fun _ _ _ hp => ⟨by simp [Parser.atEnd, hp.kind], hp⟩

theorem advance (hks : ks ≠ []) : Parse.advance.Gets (k :: ks) ks b b (·.kind = k) :=
  fun _ _ _ hp => ⟨hp.kind, hp.advance hks⟩

theorem eat (hks : ks ≠ []) : (Parse.eat k).Gets (k :: ks) ks b b (· = true) :=
  fun _ _ _ hp => (after_eat k).2 ⟨fun _ => ⟨rfl, hp.advance hks⟩, fun h => absurd hp.kind h⟩

theorem eat_other (h : k ≠ kind) : (Parse.eat kind).Gets (k :: ks) (k :: ks) b b (· = false) :=
  fun _ _ _ hp => (after_eat kind).2 ⟨fun he => absurd (hp.kind.symm.trans he) h, fun _ => ⟨rfl, hp⟩⟩

theorem expect (hks : ks ≠ []) : (Parse.expect k).Gets (k :: ks) ks b b fun _ => True :=
  fun _ _ _ hp => (after_expect k).2 ⟨fun _ => ⟨trivial, hp.advance hks⟩, fun h => absurd hp.kind h⟩

theorem identifier {name : String} (hks : ks ≠ []) :
    Parse.identifier.Gets (.identifier name :: ks) ks b b (·.1 = name) :=
  fun _ _ _ hp => after_identifier.2
    ⟨fun x hx => ⟨by simpa using hx.symm.trans hp.kind, hp.advance hks⟩, fun h => absurd hp.kind (h name)⟩

theorem lineEnd (hks : ks ≠ []) : Parse.lineEnd.Gets (.newline :: ks) ks b b fun _ => True :=
  fun _ _ _ hp => after_lineEnd.2
    ⟨fun _ => ⟨trivial, hp.advance hks⟩, fun h => absurd hp.kind h, fun h => absurd hp.kind h⟩

theorem resolve (name : String) :
    (Parse.resolve name).Gets ks ks b (b.refer name) (· = ⟨name, b.scopeOf name⟩) :=
  fun _ _ _ hp => ⟨by rw [hp.body], hp.kinds, hp.sound, by rw [hp.body], hp.enclosing, hp.errors⟩

theorem declare {name : String} {scope : Scope} (h : b.objection? name scope = none) (t : Token) :
    (Parse.declare name scope t).Gets ks ks b (b.declare name scope) fun _ => True := by
  intro p bs ds hp
  refine (after_declare name scope t).2 ⟨fun _ => ⟨trivial, ?_⟩, fun problem ho => ?_⟩
  · exact ⟨hp.kinds, hp.sound, by rw [hp.body], hp.enclosing, hp.errors⟩
  · rw [hp.body, h] at ho
    nomatch ho

/-- A function is read in a body of its own. -/
theorem inFunction {params : List String} (h : x.Gets ks K (.function params) b' Q) :
    (Parse.inFunction params x).Gets ks K b b Q := by
  intro p bs ds hp
  have hx := h (p.enterFunction params) (b :: bs) ds
    ⟨hp.kinds, hp.sound, rfl, by simp [Parser.enterFunction, hp.body, hp.enclosing], hp.errors⟩
  refine (after_inFunction params x).2 (hx.mono (fun a q hq => ⟨hq.1, ?_⟩) fun _ _ => id)
  obtain ⟨hk, hs, -, he, hd⟩ := hq.2
  have hl : q.leaveFunction = { q with body := b, enclosing := bs } := by simp [Parser.leaveFunction, he]
  rw [hl]
  exact ⟨hk, hs, rfl, rfl, hd⟩

/-- A loop is read in the same body, one loop deeper. -/
theorem inLoop (h : x.Gets ks K { b with loopDepth := b.loopDepth + 1 }
    { b' with loopDepth := b'.loopDepth + 1 } Q) : (Parse.inLoop x).Gets ks K b b' Q := by
  intro p bs ds hp
  have hx := h p.enterLoop bs ds
    ⟨hp.kinds, hp.sound, by simp [Parser.enterLoop, hp.body], hp.enclosing, hp.errors⟩
  refine (after_inLoop x).2 (hx.mono (fun a q hq => ⟨hq.1, ?_⟩) fun _ _ => id)
  obtain ⟨hk, hs, hb, he, hd⟩ := hq.2
  exact ⟨hk, hs, by simp [Parser.leaveLoop, hb], he, hd⟩

theorem recovering {x : Parse (Option (Stmt Span))} {Q : Option (Stmt Span) → Prop}
    (h : x.Gets ks K b b' Q) : (Parse.recovering x).Gets ks K b b' Q := by
  intro p bs ds hp
  refine (after_recovering x).2 ((h p bs ds hp).mono (fun _ _ => id) ?_)
  rintro e q rfl
  rfl

end Gets

end Parse

end DocScript
