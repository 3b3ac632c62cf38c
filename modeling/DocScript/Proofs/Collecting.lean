import DocScript.Machine.Session
import DocScript.Proofs.Grammar.Accounts
import DocScript.Proofs.Grammar.Blocks

/-!
# Collections of diagnostics

A collection stores the first diagnostics that it receives and counts the others. `Diagnostics.ofList l` is the
collection that has received `l` : recording one more is putting it behind `l`, and taking over another collection is
putting all that it has received behind `l` (`Diagnostics.extend_ofList`). The other one stores a part of that only, but
all that there is room for in any collection.

So two collections that record diagnostics and take over each other are at every time what the same steps make of two
lists without a bound (`Collecting.collected_eq`). The diagnostics of a script are collected in this way, and so the
error that is reported first is there exactly if errors were counted.
-/

namespace DocScript

namespace Diagnostics

/-- The collection that has received the diagnostics `l`. -/
def ofList (l : List Diagnostic) : Diagnostics := ⟨l.take capacity, l.length⟩

theorem push_ofList (l : List Diagnostic) (d : Diagnostic) : (ofList l).push d = ofList (l ++ [d]) := by
  by_cases h : l.length < capacity
  · have hshort : l.take capacity = l := List.take_of_length_le (Nat.le_of_lt h)
    have hlonger : (l ++ [d]).take capacity = l ++ [d] := List.take_of_length_le (by simpa using Nat.succ_le_of_lt h)
    simp [push, ofList, hshort, hlonger, h]
  · have hfull : capacity ≤ l.length := Nat.le_of_not_lt h
    simp [push, ofList, List.take_append_of_le_length hfull, hfull]

theorem foldl_push_ofList (l new : List Diagnostic) : new.foldl push (ofList l) = ofList (l ++ new) := by
  induction new generalizing l with
  | nil => simp
  | cons d new ih => rw [List.foldl_cons, push_ofList, ih, List.append_assoc, List.singleton_append]

/-- Those that `l'` has no room for would have no place behind `l` either. -/
theorem extend_ofList (l l' : List Diagnostic) : (ofList l).extend (ofList l') = ofList (l ++ l') := by
  have hstored : (l ++ l'.take capacity).take capacity = (l ++ l').take capacity := by
    rw [List.take_append, List.take_append, List.take_take, Nat.min_eq_left (Nat.sub_le _ _)]
  have htotal : (l ++ l'.take capacity).length + (l'.length - (l'.take capacity).length) = (l ++ l').length := by
    simp only [List.length_append, List.length_take]
    omega
  change (⟨((l'.take capacity).foldl push (ofList l)).stored, ((l'.take capacity).foldl push (ofList l)).total +
    (l'.length - (l'.take capacity).length)⟩ : Diagnostics) = _
  rw [foldl_push_ofList]
  exact congrArg₂ Diagnostics.mk hstored htotal

end Diagnostics

/-! ## Two collections -/

/-- A step with two collections, on the second one if `second` holds. -/
inductive Collecting where
  /-- Records a diagnostic. -/
  | push (second : Bool) (d : Diagnostic)
  /-- Takes over a copy of the other collection. -/
  | extend (second : Bool)

namespace Collecting

variable {α : Type}

/-- The step with two collections of whatever kind. -/
def apply (push : α → Diagnostic → α) (extend : α → α → α) : Collecting → α × α → α × α
  | .push false d, (a, b) => (push a d, b)
  | .push true d, (a, b) => (a, push b d)
  | .extend false, (a, b) => (extend a b, b)
  | .extend true, (a, b) => (a, extend b a)

/-- What comes of two collections that are empty in the beginning. -/
def collected (steps : List Collecting) : Diagnostics × Diagnostics :=
  steps.foldl (fun p s => s.apply .push .extend p) (.empty, .empty)

/-- All that they have received : the same steps with lists. -/
def received (steps : List Collecting) : List Diagnostic × List Diagnostic :=
  steps.foldl (fun p s => s.apply (fun l d => l ++ [d]) (· ++ ·) p) ([], [])

theorem apply_ofList (s : Collecting) (p : List Diagnostic × List Diagnostic) :
    s.apply .push .extend (p.map Diagnostics.ofList Diagnostics.ofList) =
      (s.apply (fun l d => l ++ [d]) (· ++ ·) p).map Diagnostics.ofList Diagnostics.ofList := by
  obtain ⟨l, l'⟩ := p
  rcases s with ⟨_ | _, d⟩ | _ | _
  · simp [apply, Diagnostics.push_ofList]
  · simp [apply, Diagnostics.push_ofList]
  · simp [apply, Diagnostics.extend_ofList]
  · simp [apply, Diagnostics.extend_ofList]

theorem collected_eq (steps : List Collecting) :
    collected steps = (received steps).map Diagnostics.ofList Diagnostics.ofList := by
  have run (p : List Diagnostic × List Diagnostic) :
      steps.foldl (fun p s => s.apply .push .extend p) (p.map Diagnostics.ofList Diagnostics.ofList) =
        (steps.foldl (fun p s => s.apply (fun l d => l ++ [d]) (· ++ ·) p) p).map Diagnostics.ofList
          Diagnostics.ofList := by
    induction steps generalizing p with
    | nil => rfl
    | cons s steps ih => rw [List.foldl_cons, List.foldl_cons, apply_ofList, ih]
  exact run ([], [])

end Collecting

namespace Diagnostics

/-- The collection stores the first twenty of the diagnostics `l`, in order, and counts all of them. -/
structure HasReceived (ds : Diagnostics) (l : List Diagnostic) : Prop where
  stored : ds.stored = l.take (min 20 l.length)
  total : ds.total = l.length

theorem hasReceived_ofList (l : List Diagnostic) : (ofList l).HasReceived l where
  stored := by
    rw [ofList, List.take_eq_take_iff]
    simp [capacity]
  total := rfl

/-- The collection is one of two that recorded diagnostics and took over each other. -/
def Collected (ds : Diagnostics) : Prop :=
  ∃ steps, ds = (Collecting.collected steps).1 ∨ ds = (Collecting.collected steps).2

theorem Collected.exists_ofList {ds : Diagnostics} (h : ds.Collected) : ∃ l, ds = ofList l := by
  obtain ⟨steps, h | h⟩ := h <;> rw [Collecting.collected_eq] at h
  · exact ⟨_, h⟩
  · exact ⟨_, h⟩

/-- Diagnostics that are only recorded make a collection. -/
theorem collected_foldl_push (l : List Diagnostic) : (l.foldl push .empty).Collected := by
  refine ⟨l.map (.push false), .inl ?_⟩
  have run (ds ds' : Diagnostics) : (l.map (Collecting.push false)).foldl (fun p s => s.apply push extend p) (ds, ds') =
      (l.foldl push ds, ds') := by
    induction l generalizing ds with
    | nil => rfl
    | cons d l ih => exact ih (ds.push d)
  exact congrArg Prod.fst (run .empty .empty).symm

theorem collected_ofList (l : List Diagnostic) : (ofList l).Collected := by
  have hpushed : l.foldl push .empty = ofList l := foldl_push_ofList [] l
  exact hpushed ▸ collected_foldl_push l

theorem hasErrors_ofList (l : List Diagnostic) : (ofList l).hasErrors = (ofList l).first?.isSome := by
  cases l <;> simp [hasErrors, first?, ofList, capacity]

end Diagnostics

/-! ## Scripts -/

theorem Source.collected_scanErrors (s : Source) : s.scanErrors.Collected := Diagnostics.collected_foldl_push _

theorem Source.collected_parse (s : Source) : s.parse.errors.Collected := by
  obtain ⟨q, hq⟩ := s.exists_program
  have hpasses := Parse.program_passes (parseFuel s.tokens.length) (Parser.formed_start s)
  rw [after_of_ok hq] at hpasses
  obtain ⟨-, w, ds, hw⟩ := hpasses
  obtain ⟨es, hes⟩ := Parser.exists_errors_start s
  have herrors : s.parse.errors = (es ++ ds).foldl .push .empty := by
    rw [s.parse_eq hq, List.foldl_append, ← hes, ← hw.errors]
  exact herrors ▸ Diagnostics.collected_foldl_push _

variable {σ : Type}

/-- Whether a script is rejected can be told from the first error as well as from their number. -/
theorem interpret_of_toExcept (host : Host σ) (n : Nat) (text : String) (m : Machine σ) :
    (∀ p, (Source.parse ⟨scriptName, text⟩).toExcept = .ok p →
      interpret host n text m = runProgram (.within host n) p.erase { m with env := m.root, depth := 0 }) ∧
      ∀ errors, (Source.parse ⟨scriptName, text⟩).toExcept = .error errors →
        ∃ first, errors.first? = some first ∧
          interpret host n text m = (.rejected first errors, { m with env := m.root, depth := 0 }) := by
  obtain ⟨l, hl⟩ := (Source.collected_parse ⟨scriptName, text⟩).exists_ofList
  have hagree : (Source.parse ⟨scriptName, text⟩).errors.hasErrors =
      (Source.parse ⟨scriptName, text⟩).firstError?.isSome := by
    rw [Parsed.firstError?, hl, Diagnostics.hasErrors_ofList]
  cases hfirst : (Source.parse ⟨scriptName, text⟩).firstError? with
  | none => simp [Parsed.toExcept, hagree, hfirst, interpret]
  | some first => simp_all [Parsed.toExcept, interpret, Parsed.firstError?]

end DocScript
