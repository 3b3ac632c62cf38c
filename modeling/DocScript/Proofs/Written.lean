import DocScript.Machine.Session
import DocScript.Proofs.Grammar.Placement
import DocScript.Proofs.Rules

/-!
# Functions written in scripts

All functions that exist in a run come from scripts that were accepted, unless the host builds one by
hand. `Written f` says that `f` stands in such a script, at whatever depth. Since scripts are well
placed, so are the functions in them, and all that they assign to can be assigned to. These are rules
that every accepted script obeys (`obeys_scriptProgram`), and every function in one
(`Written.allowed`).
-/

namespace DocScript

variable {α : Type}

/-! ## Annotations do not matter for places -/

theorem eraseExprs_eq_map (es : List (Expr α)) : eraseExprs es = es.map Expr.erase := by
  induction es with
  | nil => rfl
  | cons e es ih => exact congrArg (e.erase :: ·) ih

theorem Expr.isTarget_erase (e : Expr α) : e.erase.isTarget = e.isTarget := by
  cases e <;> rfl

theorem Function.returnsOne_erase {f : Function α} (h : f.returnsOne) : f.erase.returnsOne := by
  unfold Function.returnsOne at h
  split at h
  · rfl
  · simp at h

theorem isSome_eraseHandler (h : Option (Handler α)) : (eraseHandler h).isSome = h.isSome := by
  rcases h with _ | ⟨_, _⟩ <;> rfl

theorem isSome_eraseCleanup (c : Option (Block α)) : (eraseCleanup c).isSome = c.isSome := by
  cases c <;> rfl

mutual

theorem Expr.Placed.erase : ∀ {e : Expr α}, e.Placed → e.erase.Placed
  | .none _, _ | .bool _ _, _ | .number _ _, _ | .str _ _, _ | .var _ _, _ => trivial
  | .binary _ _ _ _, ⟨hl, hr⟩ => ⟨hl.erase, hr.erase⟩
  | .unary _ _ e, h => (show e.Placed from h).erase
  | .call _ _ _, ⟨hc, has⟩ => ⟨hc.erase, has.erase⟩
  | .index _ _ _, ⟨ho, hi⟩ => ⟨ho.erase, hi.erase⟩
  | .arrow _ _ _, ⟨ho, hi⟩ => ⟨ho.erase, hi.erase⟩
  | .protoDict _ _ _, ⟨hp, hes⟩ => ⟨hp.erase, hes.erase⟩
  | .list _ is, h => (show ExprsPlaced is from h).erase
  | .dict _ es, h => (show EntriesPlaced es from h).erase
  | .lambda _ _, ⟨hone, hf⟩ => ⟨Function.returnsOne_erase hone, hf.erase⟩

theorem ExprsPlaced.erase : ∀ {es : List (Expr α)}, ExprsPlaced es → ExprsPlaced (eraseExprs es)
  | [], _ => trivial
  | _ :: _, ⟨he, hes⟩ => ⟨he.erase, hes.erase⟩

theorem EntriesPlaced.erase : ∀ {es : List (Expr α × Expr α)}, EntriesPlaced es →
    EntriesPlaced (eraseEntries es)
  | [], _ => trivial
  | (_, _) :: _, ⟨⟨hk, hv⟩, hes⟩ => ⟨⟨hk.erase, hv.erase⟩, hes.erase⟩

theorem Stmt.Placed.erase : ∀ {c : Place} {s : Stmt α}, s.Placed c → s.erase.Placed c
  | _, .expr _ e, h => (show e.Placed from h).erase
  | _, .assign _ ts vs, ⟨⟨hts, ht, hp⟩, hvs, hv⟩ => by
    refine ⟨⟨?_, ?_, hp.erase⟩, ?_, hv.erase⟩
    · simpa [eraseExprs_eq_map] using hts
    · rw [eraseExprs_eq_map]
      exact List.forall_mem_map.2 fun t h => (t.isTarget_erase).trans (ht t h)
    · simpa [eraseExprs_eq_map] using hvs
  | _, .define _ _ _ _, ⟨hds, hf⟩ => ⟨hds.erase, hf.erase⟩
  | _, .ifElse _ _ _ _, ⟨hc, hy, hn⟩ => ⟨hc.erase, hy.erase, hn.erase⟩
  | _, .whileLoop _ _ _, ⟨hc, hb⟩ => ⟨hc.erase, hb.erase⟩
  | _, .forLoop _ _ _ _, ⟨hvs, he, hb⟩ => ⟨hvs, he.erase, hb.erase⟩
  | _, .attempt _ _ handler cleanup, ⟨hsome, hb, hh, hc⟩ => by
    refine ⟨?_, hb.erase, hh.erase, hc.erase⟩
    rw [isSome_eraseHandler, isSome_eraseCleanup]
    exact hsome
  | _, .raise _ e, h => (show e.Placed from h).erase
  | _, .ret _ _, ⟨hf, hes⟩ => ⟨hf, hes.erase⟩
  | _, .break_ _, h | _, .continue_ _, h => h
  | _, .declare _ _ _, h => h
  | _, .bad _ _, _ => trivial

theorem StmtsPlaced.erase : ∀ {c : Place} {ss : List (Stmt α)}, StmtsPlaced c ss →
    StmtsPlaced c (eraseStmts ss)
  | _, [], _ => trivial
  | _, _ :: _, ⟨hs, hss⟩ => ⟨hs.erase, hss.erase⟩

theorem Block.Placed.erase : ∀ {c : Place} {b : Block α}, b.Placed c → b.erase.Placed c
  | c, ⟨_, ss⟩, h => (show StmtsPlaced c ss from h).erase

theorem HandlerPlaced.erase : ∀ {c : Place} {h : Option (Handler α)}, HandlerPlaced c h →
    HandlerPlaced c (eraseHandler h)
  | _, none, _ => trivial
  | c, some ⟨_, b⟩, h => (show b.Placed c from h).erase

theorem CleanupPlaced.erase : ∀ {c : Place} {b : Option (Block α)}, CleanupPlaced c b →
    CleanupPlaced c (eraseCleanup b)
  | _, none, _ => trivial
  | c, some b, h => (show b.Placed c from h).erase

theorem Function.Placed.erase : ∀ {f : Function α}, f.Placed → f.erase.Placed
  | ⟨_, _, b⟩, h => (show b.Placed .function from h).erase

end

/-! ## Well-placed code obeys rules -/

/-- The rules of well-placed code whose functions all satisfy `M`. -/
def Rules.placed (M : Function Unit → Prop) : Rules where
  Makes f := f.Placed ∧ M f
  Writes _ := True
  Target t := t.isTarget
  Loops := True

theorem Rules.assigns_placed {M : Function Unit → Prop} {t : Expr Unit} (h : t.isTarget) :
    (Rules.placed M).Assigns t := by
  cases t with
  | var _ _ => exact ⟨rfl, trivial⟩
  | _ => exact h

section Obeys

variable {M : Function Unit → Prop}

mutual

theorem Expr.Placed.obeys : ∀ {e : Expr Unit}, e.Placed → (∀ f ∈ e.functions, M f) →
    e.Obeys (.placed M)
  | .none _, _, _ | .bool _ _, _, _ | .number _ _, _, _ | .str _ _, _, _ | .var _ _, _, _ => trivial
  | .binary _ _ _ _, ⟨hl, hr⟩, hf => by
    obtain ⟨hfl, hfr⟩ := List.forall_mem_append.1 hf
    exact ⟨hl.obeys hfl, hr.obeys hfr⟩
  | .unary _ _ e, h, hf => (show e.Placed from h).obeys hf
  | .call _ _ _, ⟨hc, has⟩, hf => by
    obtain ⟨hfc, hfas⟩ := List.forall_mem_append.1 hf
    exact ⟨hc.obeys hfc, has.obeys hfas⟩
  | .index _ _ _, ⟨ho, hi⟩, hf | .arrow _ _ _, ⟨ho, hi⟩, hf => by
    obtain ⟨hfo, hfi⟩ := List.forall_mem_append.1 hf
    exact ⟨ho.obeys hfo, hi.obeys hfi⟩
  | .protoDict _ _ _, ⟨hp, hes⟩, hf => by
    obtain ⟨hfp, hfes⟩ := List.forall_mem_append.1 hf
    exact ⟨hp.obeys hfp, hes.obeys hfes⟩
  | .list _ is, h, hf => (show ExprsPlaced is from h).obeys hf
  | .dict _ es, h, hf => (show EntriesPlaced es from h).obeys hf
  | .lambda _ _, ⟨_, hg⟩, hf => by
    obtain ⟨hm, hfg⟩ := List.forall_mem_cons.1 hf
    exact ⟨⟨hg, hm⟩, hg.obeys hfg⟩

theorem ExprsPlaced.obeys : ∀ {es : List (Expr Unit)}, ExprsPlaced es →
    (∀ f ∈ functionsOfExprs es, M f) → ExprsObey (.placed M) es
  | [], _, _ => trivial
  | _ :: _, ⟨he, hes⟩, hf => by
    obtain ⟨hfe, hfes⟩ := List.forall_mem_append.1 hf
    exact ⟨he.obeys hfe, hes.obeys hfes⟩

theorem EntriesPlaced.obeys : ∀ {es : List (Expr Unit × Expr Unit)}, EntriesPlaced es →
    (∀ f ∈ functionsOfEntries es, M f) → EntriesObey (.placed M) es
  | [], _, _ => trivial
  | (_, _) :: _, ⟨⟨hk, hv⟩, hes⟩, hf => by
    obtain ⟨hfe, hfes⟩ := List.forall_mem_append.1 hf
    obtain ⟨hfk, hfv⟩ := List.forall_mem_append.1 hfe
    exact ⟨⟨hk.obeys hfk, hv.obeys hfv⟩, hes.obeys hfes⟩

theorem Stmt.Placed.obeys : ∀ {c : Place} {s : Stmt Unit}, s.Placed c → (∀ f ∈ s.functions, M f) →
    s.Obeys (.placed M)
  | _, .expr _ e, h, hf => (show e.Placed from h).obeys hf
  | _, .assign _ _ _, ⟨⟨_, ht, hts⟩, _, hes⟩, hf => by
    obtain ⟨hfts, hfes⟩ := List.forall_mem_append.1 hf
    exact ⟨fun t h => Rules.assigns_placed (ht t h), hts.obeys hfts, hes.obeys hfes⟩
  | _, .define _ _ _ _, ⟨hds, hg⟩, hf => by
    obtain ⟨hfds, hfd⟩ := List.forall_mem_append.1 hf
    obtain ⟨hm, hfg⟩ := List.forall_mem_cons.1 hfd
    exact ⟨trivial, hds.obeys hfds, ⟨hg, hm⟩, hg.obeys hfg⟩
  | _, .ifElse _ _ _ _, ⟨hc, hy, hn⟩, hf => by
    obtain ⟨hfc, hfb⟩ := List.forall_mem_append.1 hf
    obtain ⟨hfy, hfn⟩ := List.forall_mem_append.1 hfb
    exact ⟨hc.obeys hfc, hy.obeys hfy, hn.obeys hfn⟩
  | _, .whileLoop _ _ _, ⟨hc, hb⟩, hf => by
    obtain ⟨hfc, hfb⟩ := List.forall_mem_append.1 hf
    exact ⟨trivial, hc.obeys hfc, hb.obeys hfb⟩
  | _, .forLoop _ _ _ _, ⟨_, he, hb⟩, hf => by
    obtain ⟨hfe, hfb⟩ := List.forall_mem_append.1 hf
    exact ⟨fun _ _ => trivial, he.obeys hfe, hb.obeys hfb⟩
  | _, .attempt _ _ _ _, ⟨_, hb, hh, hc⟩, hf => by
    obtain ⟨hfb, hfrest⟩ := List.forall_mem_append.1 hf
    obtain ⟨hfh, hfc⟩ := List.forall_mem_append.1 hfrest
    exact ⟨hb.obeys hfb, hh.obeys hfh, hc.obeys hfc⟩
  | _, .raise _ e, h, hf => (show e.Placed from h).obeys hf
  | _, .ret _ _, ⟨_, hes⟩, hf => hes.obeys hf
  | _, .break_ _, _, _ | _, .continue_ _, _, _ | _, .declare _ _ _, _, _ | _, .bad _ _, _, _ => trivial

theorem StmtsPlaced.obeys : ∀ {c : Place} {ss : List (Stmt Unit)}, StmtsPlaced c ss →
    (∀ f ∈ functionsOfStmts ss, M f) → StmtsObey (.placed M) ss
  | _, [], _, _ => trivial
  | _, _ :: _, ⟨hs, hss⟩, hf => by
    obtain ⟨hfs, hfss⟩ := List.forall_mem_append.1 hf
    exact ⟨hs.obeys hfs, hss.obeys hfss⟩

theorem Block.Placed.obeys : ∀ {c : Place} {b : Block Unit}, b.Placed c → (∀ f ∈ b.functions, M f) →
    b.Obeys (.placed M)
  | c, ⟨_, ss⟩, h, hf => (show StmtsPlaced c ss from h).obeys hf

theorem HandlerPlaced.obeys : ∀ {c : Place} {h : Option (Handler Unit)}, HandlerPlaced c h →
    (∀ f ∈ functionsOfHandler h, M f) → HandlerObeys (.placed M) h
  | _, none, _, _ => trivial
  | c, some ⟨_, b⟩, h, hf => ⟨fun _ _ => trivial, (show b.Placed c from h).obeys hf⟩

theorem CleanupPlaced.obeys : ∀ {c : Place} {b : Option (Block Unit)}, CleanupPlaced c b →
    (∀ f ∈ functionsOfCleanup b, M f) → CleanupObeys (.placed M) b
  | _, none, _, _ => trivial
  | c, some b, h, hf => (show b.Placed c from h).obeys hf

theorem Function.Placed.obeys : ∀ {f : Function Unit}, f.Placed → (∀ g ∈ f.functions, M g) →
    f.Obeys (.placed M)
  | ⟨_, _, b⟩, h, hf => (show b.Placed .function from h).obeys hf

end

end Obeys

/-! ## Accepted scripts -/

/-- The program that the script is, without annotations. -/
def scriptProgram (text : String) : Program Unit := (Source.parse ⟨scriptName, text⟩).program.erase

/-- There is no error in the script. -/
def Accepted (text : String) : Prop := (Source.parse ⟨scriptName, text⟩).firstError? = none

instance (text : String) : Decidable (Accepted text) :=
  inferInstanceAs (Decidable ((Source.parse ⟨scriptName, text⟩).firstError? = none))

/-- The function stands in a script that was accepted. -/
def Written (f : Function Unit) : Prop := ∃ text, Accepted text ∧ f ∈ (scriptProgram text).functions

theorem placed_scriptProgram (text : String) : (scriptProgram text).Placed := by
  obtain ⟨_, _, _, h⟩ := Source.program_keeps ⟨scriptName, text⟩
  exact StmtsPlaced.erase h

/-- A script that was accepted makes functions that are written, and they are well placed. -/
theorem obeys_scriptProgram {text : String} (h : Accepted text) :
    (scriptProgram text).Obeys (.placed Written) :=
  (placed_scriptProgram text).obeys fun _ hf => ⟨text, h, hf⟩

theorem Written.allowed {f : Function Unit} (h : Written f) : f.Allowed (.placed Written) := by
  obtain ⟨text, ht, hf⟩ := h
  exact (obeys_scriptProgram ht).allowed f hf

end DocScript
