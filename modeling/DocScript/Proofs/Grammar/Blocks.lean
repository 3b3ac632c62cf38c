import DocScript.Proofs.Grammar.Advance
import DocScript.Proofs.Grammar.Placement

/-!
# Blocks and rejected statements

A statement never takes the dedent that ends the block it stands in, also if it is rejected, and what follows it is
read in the same function and the same loops. If no diagnostic that is recorded meanwhile quotes an indent, the
statement takes as many dedents as indents, and a block ends with the dedent that closes its own indent : all that
stands at the indentation of a block belongs to it (`Source.blocks_kept`).

A complaint about an indent is different. The indent is skipped, the lines behind it are read into the block
at hand, and the dedent that closes it ends that block too early (`Source.block_cut_short`).
-/

namespace DocScript

/-! ## Diagnostics that are all stored -/

theorem Diagnostics.length_stored_push {ds : Diagnostics} (h : ds.stored.length ≤ ds.total) (d : Diagnostic) :
    (ds.push d).stored.length ≤ (ds.push d).total := by
  simp only [push]
  split
  · simpa using h
  · omega

theorem Diagnostics.length_stored_foldl (l : List Diagnostic) {ds : Diagnostics}
    (h : ds.stored.length ≤ ds.total) : (l.foldl push ds).stored.length ≤ (l.foldl push ds).total := by
  induction l generalizing ds with
  | nil => exact h
  | cons d l ih => exact ih (length_stored_push h d)

theorem Diagnostics.le_total_foldl (l : List Diagnostic) (ds : Diagnostics) :
    ds.total ≤ (l.foldl push ds).total := by
  induction l generalizing ds with
  | nil => exact Nat.le_refl _
  | cons d l ih => exact Nat.le_trans (Nat.le_succ _) (ih (ds.push d))

/-- As long as there is room, the diagnostics that are recorded are those that are stored. -/
theorem Diagnostics.stored_foldl (l : List Diagnostic) {ds : Diagnostics} (h : ds.stored.length ≤ ds.total)
    (hc : (l.foldl push ds).total ≤ capacity) : (l.foldl push ds).stored = ds.stored ++ l := by
  induction l generalizing ds with
  | nil => simp
  | cons d l ih =>
    have hroom : ds.stored.length < capacity := by
      have hle := le_total_foldl l (ds.push d)
      have hd : (ds.push d).total = ds.total + 1 := rfl
      rw [List.foldl_cons] at hc
      omega
    rw [List.foldl_cons, ih (length_stored_push h d) hc]
    simp [push, hroom]

/-- The tokens in front of the first statement leave their diagnostics one after the other. -/
theorem Parser.exists_errors_start (s : Source) :
    ∃ ds : List Diagnostic, (Parser.start s s.tokens).errors = ds.foldl .push .empty := by
  have hne : soundTokens s.tokens ≠ [] := by
    rw [← Parser.ahead_start]
    exact Parser.ahead_ne_nil _
  obtain ⟨t, rest, ds, hn, -, -⟩ := exists_nextToken s (.mark .endOfFile .start) s.tokens .empty hne
  exact ⟨ds, by simp [Parser.start, hn]⟩

theorem Parser.length_stored_start (s : Source) :
    (Parser.start s s.tokens).errors.stored.length ≤ (Parser.start s s.tokens).errors.total := by
  obtain ⟨ds, herrors⟩ := Parser.exists_errors_start s
  rw [herrors]
  exact Diagnostics.length_stored_foldl ds (Nat.le_refl _)

namespace Parser

/-- From `p` to `q` no diagnostic was recorded that quotes an indent, and none was left out. -/
structure Undisturbed (p q : Parser) : Prop where
  stored : q.errors.total ≤ Diagnostics.capacity
  calm : Calm (q.errors.stored.drop p.errors.stored.length)

instance (ds : List Diagnostic) : Decidable (Calm ds) :=
  inferInstanceAs (Decidable (∀ d ∈ ds, d.lexeme ≠ TokenKind.indent.text))

instance (p q : Parser) : Decidable (p.Undisturbed q) :=
  decidable_of_iff _ ⟨fun h => ⟨h.1, h.2⟩, fun h => And.intro h.stored h.calm⟩

theorem Undisturbed.calm_of_passes {s : Source} {p q : Parser} {w : List Token} {ds : List Diagnostic}
    (h : p.Undisturbed q) (hp : s.Reaches p) (hw : p.Passes w ds q) : Calm ds := by
  obtain ⟨v, es, hv⟩ := hp
  have hlen : p.errors.stored.length ≤ p.errors.total := by
    rw [hv.errors]
    exact Diagnostics.length_stored_foldl es (length_stored_start s)
  have hc := h.calm
  have hs := h.stored
  rw [hw.errors] at hs hc
  rwa [Diagnostics.stored_foldl ds hlen hs, List.drop_left] at hc

end Parser

/-! ## Blocks of scripts -/

/-- Wherever in a script a statement is read, and not in front of a dedent, it never closes more blocks than it
opened, also if it is rejected, and it leaves the function and the loops that it stands in as they were. Unless a
diagnostic quotes an indent meanwhile, it closes all that it opened. A block is a colon, the end of the line, an
indent and what its statements take; unless a diagnostic quotes an indent meanwhile, these close all that they
open, and the dedent behind them ends the block. -/
theorem Source.blocks_kept (s : Source) :
    (∀ n p, s.Reaches p → p.atEnd = false → p.current.kind ≠ .dedent →
      After (Parse.item n) p
        (fun _ q => q.nesting = p.nesting ∧ ∃ w ds, p.Passes w ds q ∧ Grounded w ∧
          (p.Undisturbed q → indents w = dedents w))
        (fun e _ => e = .outOfFuel)) ∧
    ∀ n p, s.Reaches p →
      After (Parse.block n) p
        (fun _ q => q.nesting = p.nesting ∧ ∃ colon line indent v tail ds,
          p.Passes (colon :: line :: indent :: (v ++ tail)) ds q ∧
          (colon.kind = .symbol .colon ∧ line.kind = .newline ∧ indent.kind = .indent) ∧ Grounded v ∧
          (tail = [] ∨ ∃ t, tail = [t] ∧ t.kind = .dedent) ∧
          (p.Undisturbed q → indents v = dedents v ∧ tail ≠ []))
        (fun _ q => q.nesting = p.nesting) := by
  refine ⟨fun n p hp he hd => ?_, fun n p hp => ?_⟩
  · have h := (Parse.item_keeps n p.nesting p rfl).and (Parse.item_folds n hp.formed he)
    refine After.mono h (fun _ q hq => ?_) fun _ _ => And.right
    obtain ⟨⟨hn, -⟩, w, ds, hw, -, hf⟩ := hq
    exact ⟨hn, w, ds, hw, (hf hd).grounded, fun hu => (hf hd).balanced (hu.calm_of_passes hp hw)⟩
  · have h := (Parse.block_keeps n p.nesting p rfl).and (Parse.block_encloses n hp.formed)
    refine After.mono h (fun _ q hq => ?_) fun _ _ => And.left
    obtain ⟨⟨hn, -⟩, w, ds, hw, colon, line, indent, v, tail, rfl, hk, hv, ht, hb⟩ := hq
    exact ⟨hn, colon, line, indent, v, tail, ds, hw, hk, hv, ht, fun hu => hb (hu.calm_of_passes hp hw)⟩

/-- A function whose first line is rejected. -/
def rejectedLine : Source := ⟨"main", "def f():\n    x = * 1\n    return 2\ny = 3\n"⟩

/-- The line behind the rejected one still belongs to the function : the definition takes one indent and one
dedent. -/
theorem Source.blocks_kept_rejectedLine :
    After (Parse.item 100) (.start rejectedLine rejectedLine.tokens)
      (fun _ q => q.errors.total = 1 ∧ ∃ w ds, (Parser.start rejectedLine rejectedLine.tokens).Passes w ds q ∧
        indents w = 1 ∧ dedents w = 1)
      (fun _ _ => False) := by
  have hrun : After (Parse.item 100) (.start rejectedLine rejectedLine.tokens)
      (fun _ q => q.errors.total = 1 ∧ (Parser.start rejectedLine rejectedLine.tokens).Undisturbed q ∧
        indents (Parser.start rejectedLine rejectedLine.tokens).ahead = 1 + indents q.ahead)
      (fun _ _ => False) := by decide +kernel
  have h := (blocks_kept rejectedLine).1 100 _ (.start _) (by decide +kernel) (by decide +kernel)
  refine After.mono (hrun.and h) (fun _ q hq => ?_) fun _ _ => And.left
  obtain ⟨⟨ht, hu, hi⟩, -, w, ds, hw, -, hb⟩ := hq
  rw [hw.ahead, indents_append] at hi
  exact ⟨ht, w, ds, hw, by omega, by rw [← hb hu]; omega⟩

/-- A function with a line that is indented too far. -/
def strayIndent : Source := ⟨"main", "def f():\n    x = 1\n        y = 2\n    return x\n"⟩

/-- The stray indent is skipped and its dedent ends the function : the definition takes two indents and one dedent,
and the line behind, which stands at the indentation of the function, is rejected outside of it. -/
theorem Source.block_cut_short :
    After (Parse.item 100) (.start strayIndent strayIndent.tokens)
      (fun _ q => ∃ w ds, (Parser.start strayIndent strayIndent.tokens).Passes w ds q ∧
        indents w = 2 ∧ dedents w = 1)
      (fun _ _ => False) ∧
    strayIndent.parse.errors.stored.map (·.message) = ["unexpected indent", "'return' outside function"] := by
  have hrun : After (Parse.item 100) (.start strayIndent strayIndent.tokens)
      (fun _ q => indents (Parser.start strayIndent strayIndent.tokens).ahead = 2 + indents q.ahead ∧
        dedents (Parser.start strayIndent strayIndent.tokens).ahead = 1 + dedents q.ahead)
      (fun _ _ => False) := by decide +kernel
  have h := Parse.item_folds 100 (Parser.formed_start strayIndent) (by decide +kernel)
  refine ⟨After.mono (hrun.and h) (fun _ q hq => ?_) fun _ _ => And.left, by decide +kernel⟩
  obtain ⟨⟨hi, hd⟩, w, ds, hw, -⟩ := hq
  rw [hw.ahead, indents_append] at hi
  rw [hw.ahead, dedents_append] at hd
  exact ⟨w, ds, hw, by omega, by omega⟩

end DocScript
