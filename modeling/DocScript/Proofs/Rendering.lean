import DocScript.Host.Thermometer
import DocScript.Machine.Session
import DocScript.Proofs.Display
import DocScript.Proofs.Outcome
import Mathlib.Logic.Relation

/-!
# Displays of docs that enclose each other

Docs refer to each other as they like, also as keys and in cycles. To say what a display does on such a heap, it is taken
apart : a `Fragment` is a text, a doc with its fragments, or a place where a doc was left out because it is open already. A
further sort of fragment is where the bound on the depth was reached. The text of the fragments is what is displayed
(`Machine.display_eq_flat`).

`Fragment.Occurs p path q` says that the fragment `q` is inside of `p`, and which docs are open there. Along every path these
docs are different and on the heap, so that the bound is never reached, and a doc is left out exactly inside of itself
(`Machine.path_of_occurs`).

The rendering without a guard is the relation `Machine.Spells`. Its derivations are finite, so it relates a value to a
text only if the recursion comes to an end. Where no doc reaches itself, it gives what is displayed
(`Machine.spells_render`).
-/

namespace DocScript

variable {σ : Type}

/-! ## Fragments -/

/-- What a display is made of. -/
inductive Fragment where
  | text (s : String)
  /-- The doc is open around this place, and not displayed again. -/
  | cut (id : DocId)
  /-- The bound was reached. -/
  | unfinished (id : DocId)
  | doc (id : DocId) (fragments : List Fragment)

mutual

/-- The text of a fragment. -/
def Fragment.flat : Fragment → String
  | .text s => s
  | .cut _ | .unfinished _ => "..."
  | .doc _ ps => flatAll ps

def flatAll : List Fragment → String
  | [] => ""
  | p :: ps => p.flat ++ flatAll ps

end

/-- `q` is a fragment inside of `p`, and the docs of `path` are open there, the innermost first. -/
inductive Fragment.Occurs : (p : Fragment) → (path : List DocId) → (q : Fragment) → Prop
  | here (p : Fragment) : Occurs p [] p
  | inside {id : DocId} {ps : List Fragment} {p q : Fragment} {path : List DocId} : p ∈ ps → Occurs p path q →
    Occurs (.doc id ps) (path ++ [id]) q

/-- Parts with commas between them, in brackets. -/
def bracketed (left right : String) (parts : List (List Fragment)) : List Fragment :=
  .text left :: ([.text ", "].intercalate parts ++ [.text right])

theorem flatAll_append (ps qs : List Fragment) : flatAll (ps ++ qs) = flatAll ps ++ flatAll qs := by
  induction ps with
  | nil => simp [flatAll]
  | cons p ps ih => rw [List.cons_append, flatAll, ih, flatAll, String.append_assoc]

theorem flatAll_singleton (p : Fragment) : flatAll [p] = p.flat := by
  rw [flatAll, flatAll, String.append_empty]

theorem flatAll_intercalate (parts : List (List Fragment)) :
    flatAll ([.text ", "].intercalate parts) = String.intercalate ", " (parts.map flatAll) := by
  induction parts with
  | nil => rfl
  | cons ps parts ih =>
    cases parts with
    | nil => simp
    | cons qs parts =>
      rw [List.intercalate_cons_cons, List.map_cons, List.map_cons, String.intercalate_cons_cons, flatAll_append,
        flatAll_append, ih, flatAll_singleton, Fragment.flat, List.map_cons]

theorem flatAll_bracketed (left right : String) (parts : List (List Fragment)) :
    flatAll (bracketed left right parts) = left ++ String.intercalate ", " (parts.map flatAll) ++ right := by
  rw [bracketed, flatAll, flatAll_append, flatAll_intercalate, flatAll_singleton, Fragment.flat, Fragment.flat,
    String.append_assoc]

theorem mem_bracketed {left right : String} {parts : List (List Fragment)} {p : Fragment}
    (h : p ∈ bracketed left right parts) : (∃ s, p = .text s) ∨ ∃ ps ∈ parts, p ∈ ps := by
  rw [bracketed, List.mem_cons, List.mem_append, List.mem_singleton] at h
  rcases h with rfl | h | rfl
  · exact .inl ⟨_, rfl⟩
  · induction parts with
    | nil => simp at h
    | cons ps parts ih =>
      cases parts with
      | nil => exact .inr ⟨ps, by simp, by simpa using h⟩
      | cons qs parts =>
        rw [List.intercalate_cons_cons, List.mem_append, List.mem_append, List.mem_singleton] at h
        rcases h with (h | rfl) | h
        · exact .inr ⟨ps, by simp, h⟩
        · exact .inl ⟨_, rfl⟩
        · rcases ih h with hs | ⟨rs, hrs, hp⟩
          · exact .inl hs
          · exact .inr ⟨rs, List.mem_cons_of_mem _ hrs, hp⟩
  · exact .inl ⟨_, rfl⟩

namespace Machine

variable {m : Machine σ} {d : Doc} {v w : Value}

/-- What is displayed of a doc : its values, and its keys unless it is a list. -/
def shown (m : Machine σ) (d : Doc) : List Value :=
  d.toList.flatMap fun e => if m.isArray d then [e.2] else [e.1, e.2]

/-- The fragments of a doc, with those of its keys and values made by `item`. -/
def docFragments (m : Machine σ) (item : Value → Fragment) (d : Doc) : List Fragment :=
  if m.isArray d then bracketed "[" "]" (d.toList.map fun e => [item e.2])
  else bracketed "\x7b" "\x7d" (d.toList.map fun e => [item e.1, .text ": ", item e.2])

/-- The fragments of a value inside the docs `opened`, with at most `fuel` docs inside each other. -/
def fragments (m : Machine σ) : (fuel : Nat) → (opened : List DocId) → Value → Fragment
  | n + 1, opened, .doc id =>
    if id ∈ opened then .cut id
    else
      match m.doc? id with
      | some d => .doc id (m.docFragments (m.fragments n (id :: opened)) d)
      | none => .text "..."
  | 0, _, .doc id => .unfinished id
  | _, _, v => .text v.plain

/-- The fragments of a displayed value. -/
def drawing (m : Machine σ) : Value → Fragment
  | .str s => .text s
  | v => m.fragments (m.heap.docs.size + 1) [] v

theorem flatAll_docFragments (item : Value → Fragment) (d : Doc) :
    flatAll (m.docFragments item d) = m.renderDoc (fun v => (item v).flat) d := by
  unfold docFragments renderDoc
  split
  · rw [flatAll_bracketed, renderArray, List.map_map]
    simp only [Function.comp_def, flatAll_singleton]
  · rw [flatAll_bracketed, renderDict, List.map_map]
    simp only [Function.comp_def, flatAll, Fragment.flat, String.append_empty, String.append_assoc]

theorem mem_docFragments {item : Value → Fragment} {p : Fragment} (h : p ∈ m.docFragments item d) :
    (∃ s, p = .text s) ∨ ∃ w ∈ m.shown d, p = item w := by
  unfold docFragments at h
  simp only [shown, List.mem_flatMap]
  split at h
  · next ha =>
    rcases mem_bracketed h with hs | ⟨ps, hps, hp⟩
    · exact .inl hs
    · obtain ⟨e, he, rfl⟩ := List.mem_map.1 hps
      exact .inr ⟨e.2, ⟨e, he, by simp [ha]⟩, List.mem_singleton.1 hp⟩
  · next ha =>
    rcases mem_bracketed h with hs | ⟨ps, hps, hp⟩
    · exact .inl hs
    · obtain ⟨e, he, rfl⟩ := List.mem_map.1 hps
      rw [List.mem_cons, List.mem_cons, List.mem_singleton] at hp
      rcases hp with rfl | rfl | rfl
      · exact .inr ⟨e.1, ⟨e, he, by simp [ha]⟩, rfl⟩
      · exact .inl ⟨_, rfl⟩
      · exact .inr ⟨e.2, ⟨e, he, by simp [ha]⟩, rfl⟩

/-- The fragments make up the text. -/
theorem flat_fragments (m : Machine σ) : ∀ (n : Nat) (opened : List DocId) (v : Value),
    (m.fragments n opened v).flat = m.render n opened v
  | 0, _, v => by cases v <;> rfl
  | n + 1, opened, v => by
    cases v with
    | doc id =>
      rw [fragments, render]
      split
      · rfl
      · cases m.doc? id with
        | none => rfl
        | some d =>
          have inner : (fun v => (m.fragments n (id :: opened) v).flat) = m.render n (id :: opened) :=
            funext fun w => flat_fragments m n (id :: opened) w
          simp only [Fragment.flat, flatAll_docFragments, inner]
    | _ => rfl

theorem display_eq_flat (m : Machine σ) (v : Value) : m.display v = (m.drawing v).flat := by
  cases v with
  | str s => rfl
  | _ => exact (m.flat_fragments _ [] _).symm

end Machine

/-! ## Paths -/

/-- What a fragment may be where the docs of `path` are open : a doc that is not open yet, or in place of a doc that is
one. -/
def Fragment.Fits : Fragment → List DocId → Prop
  | .text _, _ => True
  | .cut id, path => id ∈ path
  | .unfinished _, _ => False
  | .doc id _, path => id ∉ path

theorem Fragment.occurs_text {s : String} {path : List DocId} {q : Fragment} (h : (Fragment.text s).Occurs path q) :
    path = [] ∧ q = .text s := by
  cases h
  exact ⟨rfl, rfl⟩

namespace Machine

variable {m : Machine σ}

/-- While a value is displayed, the docs that are open are all different, and each fragment fits in its place. -/
theorem path_of_occurs : ∀ {n : Nat} {opened : List DocId} {v : Value} {path : List DocId} {q : Fragment},
    m.Opened opened → m.heap.docs.size < opened.length + n → (m.fragments n opened v).Occurs path q →
      m.Opened (path ++ opened) ∧ q.Fits (path ++ opened)
  | 0, _, _, _, _, h, hn, _ => absurd h.length_le (by omega)
  | n + 1, opened, v, path, q, h, hn, hq => by
    cases v with
    | doc id =>
      rw [fragments] at hq
      split at hq
      · next hid =>
        cases hq
        exact ⟨h, hid⟩
      · next hid =>
        cases hd : m.doc? id with
        | none =>
          simp only [hd] at hq
          obtain ⟨rfl, rfl⟩ := Fragment.occurs_text hq
          exact ⟨h, trivial⟩
        | some d =>
          simp only [hd] at hq
          have hopened : m.Opened (id :: opened) := h.cons hid hd
          cases hq with
          | here => exact ⟨h, hid⟩
          | @inside _ _ p _ path hp hq =>
            rw [List.append_assoc, List.singleton_append]
            rcases mem_docFragments hp with ⟨s, rfl⟩ | ⟨w, -, rfl⟩
            · obtain ⟨rfl, rfl⟩ := Fragment.occurs_text hq
              exact ⟨hopened, trivial⟩
            · have hlen : (id :: opened).length = opened.length + 1 := rfl
              exact path_of_occurs hopened (by omega) hq
    | _ =>
      obtain ⟨rfl, rfl⟩ := Fragment.occurs_text hq
      exact ⟨h, trivial⟩

theorem path_of_occurs_drawing {v : Value} {path : List DocId} {q : Fragment} (h : (m.drawing v).Occurs path q) :
    path.Nodup ∧ q.Fits path := by
  cases v with
  | str s =>
    obtain ⟨rfl, rfl⟩ := Fragment.occurs_text h
    exact ⟨List.nodup_nil, trivial⟩
  | _ =>
    obtain ⟨hopened, hfits⟩ := path_of_occurs opened_nil (by simp) h
    rw [List.append_nil] at hopened hfits
    exact ⟨hopened.nodup, hfits⟩

/-! ## Docs that reach each other -/

/-- The keys and values of a doc. -/
def contents (m : Machine σ) (id : DocId) : List Value :=
  ((m.doc? id).getD .empty).toList.flatMap fun e => [e.1, e.2]

/-- `v` is a doc that has `w` as a key or as a value. -/
def Contains (m : Machine σ) (v w : Value) : Prop := ∃ id, v = .doc id ∧ w ∈ m.contents id

/-- No doc that is reached from the value reaches itself. -/
def Acyclic (m : Machine σ) (v : Value) : Prop :=
  ∀ id, Relation.ReflTransGen m.Contains v (.doc id) → ¬ Relation.TransGen m.Contains (.doc id) (.doc id)

variable {v w : Value} {id : DocId} {d : Doc}

theorem contains_of_shown (hd : m.doc? id = some d) (hw : w ∈ m.shown d) : m.Contains (.doc id) w := by
  obtain ⟨e, he, hw⟩ := List.mem_flatMap.1 hw
  refine ⟨id, rfl, ?_⟩
  rw [contents, hd, Option.getD_some]
  refine List.mem_flatMap.2 ⟨e, he, ?_⟩
  split at hw
  · exact List.mem_cons_of_mem _ hw
  · exact hw

/-- Where a doc is left out, it is reached from all docs that are open. -/
theorem reaches_of_cut : ∀ {n : Nat} {opened : List DocId} {v : Value} {path : List DocId} {id : DocId},
    (m.fragments n opened v).Occurs path (.cut id) → Relation.ReflTransGen m.Contains v (.doc id) ∧
      ∀ i ∈ path, Relation.TransGen m.Contains (.doc i) (.doc id)
  | 0, _, v, _, _, h => by cases v <;> cases h
  | n + 1, opened, v, path, id, h => by
    cases v with
    | doc id₀ =>
      rw [fragments] at h
      split at h
      · cases h
        exact ⟨.refl, by simp⟩
      · cases hd : m.doc? id₀ with
        | none =>
          simp only [hd] at h
          cases h
        | some d =>
          simp only [hd] at h
          cases h with
          | @inside _ _ p _ path hp h =>
            rcases mem_docFragments hp with ⟨s, rfl⟩ | ⟨w, hw, rfl⟩
            · cases h
            · have hstep : m.Contains (.doc id₀) w := contains_of_shown hd hw
              obtain ⟨hreach, hpath⟩ := reaches_of_cut h
              refine ⟨.head hstep hreach, fun i hi => ?_⟩
              rcases List.mem_append.1 hi with hi | hi
              · exact hpath i hi
              · rw [List.mem_singleton.1 hi]
                exact .head' hstep hreach
    | _ => cases h

/-- A doc that was made before the doc `id`, or no doc. -/
def isOlder (id : DocId) : Value → Bool
  | .doc i => i < id
  | _ => true

/-- Docs that contain only docs which were made before them do not reach themselves. -/
theorem acyclic_of_older (h : ∀ i ≤ id, (m.contents i).all (isOlder i) = true) : m.Acyclic (.doc id) := by
  have hstep : ∀ {i w}, i ≤ id → m.Contains (.doc i) w → ∀ j, w = .doc j → j < i := by
    rintro i w hi ⟨_, ⟨rfl⟩, hw⟩ j rfl
    simpa [isOlder] using List.all_eq_true.1 (h i hi) _ hw
  have hreach : ∀ {i w}, i ≤ id → Relation.TransGen m.Contains (.doc i) w → ∀ j, w = .doc j → j < i := by
    intro i w hi hw
    induction hw with
    | single hw => exact hstep hi hw
    | @tail u w _ hw ih =>
      obtain ⟨l, rfl, hmem⟩ := hw
      have hl := ih l rfl
      exact fun j hj => Nat.lt_trans (hstep (Nat.le_trans (Nat.le_of_lt hl) hi) ⟨l, rfl, hmem⟩ j hj) hl
  intro i hi hcycle
  have hle : i ≤ id := by
    rcases Relation.reflTransGen_iff_eq_or_transGen.1 hi with heq | hi
    · exact Nat.le_of_eq (Value.doc.inj heq)
    · exact Nat.le_of_lt (hreach (Nat.le_refl id) hi i rfl)
  exact Nat.lt_irrefl i (hreach hle hcycle i rfl)

/-- In a value without cycles no doc is left out. -/
theorem Acyclic.not_cut (h : m.Acyclic v) {path : List DocId} : ¬ (m.drawing v).Occurs path (.cut id) := by
  intro hcut
  have hid : id ∈ path := (path_of_occurs_drawing hcut).2
  cases v with
  | str s => cases hcut
  | _ =>
    obtain ⟨hreach, hpath⟩ := reaches_of_cut hcut
    exact h id hreach (hpath id hid)

/-! ## Rendering without a guard -/

/-- The text of a value inside others, by the plain recursion. A derivation is finite : there is one only if the recursion
comes to an end. -/
inductive Spells (m : Machine σ) : Value → String → Prop
  | plain {v : Value} : (∀ id, v ≠ .doc id) → Spells m v v.plain
  | missing {id : DocId} : m.doc? id = none → Spells m (.doc id) "..."
  | doc {id : DocId} {d : Doc} {item : Value → String} : m.doc? id = some d →
    (∀ w ∈ m.shown d, Spells m w (item w)) → Spells m (.doc id) (m.renderDoc item d)

/-- The text of a value by itself, where a string is not quoted. -/
def SpellsOut (m : Machine σ) : Value → String → Prop
  | .str s, text => text = s
  | v, text => m.Spells v text

/-- Only what is displayed of a doc counts. -/
theorem renderDoc_congr {f g : Value → String} (h : ∀ w ∈ m.shown d, f w = g w) : m.renderDoc f d = m.renderDoc g d := by
  simp only [shown, List.mem_flatMap] at h
  unfold renderDoc
  split
  · next ha =>
    refine congrArg (fun items => "[" ++ String.intercalate ", " items ++ "]") (List.map_congr_left fun e he => ?_)
    exact h e.2 ⟨e, he, by simp [ha]⟩
  · next ha =>
    refine congrArg (fun items => "\x7b" ++ String.intercalate ", " items ++ "\x7d") (List.map_congr_left fun e he => ?_)
    have hkey : f e.1 = g e.1 := h e.1 ⟨e, he, by simp [ha]⟩
    have hvalue : f e.2 = g e.2 := h e.2 ⟨e, he, by simp [ha]⟩
    simp only [hkey, hvalue]

theorem Spells.unique {s t : String} (h : m.Spells v s) (h' : m.Spells v t) : t = s := by
  induction h generalizing t with
  | plain hv =>
    cases h' with
    | plain => rfl
    | missing | doc => exact absurd rfl (hv _)
  | missing hd =>
    cases h' with
    | plain hv => exact absurd rfl (hv _)
    | missing => rfl
    | doc hd' => rw [hd] at hd'; contradiction
  | doc hd _ ih =>
    cases h' with
    | plain hv => exact absurd rfl (hv _)
    | missing hd' => rw [hd] at hd'; contradiction
    | doc hd' hitem =>
      cases hd.symm.trans hd'
      exact renderDoc_congr fun w hw => ih w hw (hitem w hw)

/-- Where no doc reaches itself, the guard does nothing : the docs that are open all reach the value at hand. -/
theorem spells_render : ∀ {n : Nat} {opened : List DocId} {v : Value}, m.Opened opened →
    m.heap.docs.size < opened.length + n → (∀ i ∈ opened, Relation.TransGen m.Contains (.doc i) v) → m.Acyclic v →
      m.Spells v (m.render n opened v)
  | 0, _, _, h, hn, _, _ => absurd h.length_le (by omega)
  | n + 1, opened, v, h, hn, hpath, hv => by
    cases v with
    | doc id =>
      have hid : id ∉ opened := fun hid => hv id .refl (hpath id hid)
      rw [render, if_neg hid]
      cases hd : m.doc? id with
      | none => exact .missing hd
      | some d =>
        refine .doc hd fun w hw => ?_
        have hstep : m.Contains (.doc id) w := contains_of_shown hd hw
        have hlen : (id :: opened).length = opened.length + 1 := rfl
        refine spells_render (h.cons hid hd) (by omega) (List.forall_mem_cons.2 ⟨.single hstep, fun i hi => ?_⟩) ?_
        · exact (hpath i hi).tail hstep
        · exact fun i hi => hv i (.head hstep hi)
    | _ => exact .plain (by simp)

theorem Acyclic.spellsOut_iff (h : m.Acyclic v) (text : String) : m.SpellsOut v text ↔ text = m.display v := by
  cases v with
  | str s => rfl
  | _ =>
    have hrender := spells_render (n := m.heap.docs.size + 1) opened_nil (by simp) (by simp) h
    exact ⟨fun ht => hrender.unique ht, fun ht => ht ▸ hrender⟩

end Machine

/-- How any value is displayed, whatever docs refer to each other on the heap. The display comes to an end without
reaching a bound, the docs that are open at a place are all different, and a doc is left out only where it is open. If no
doc that is reached from the value reaches itself, then the plain recursion comes to an end too and gives the
same text, and nothing is left out. -/
theorem Machine.display_graph (m : Machine σ) (v : Value) :
    m.display v = (m.drawing v).flat ∧
    (∀ path q, (m.drawing v).Occurs path q → path.Nodup ∧ q.Fits path) ∧
    (m.Acyclic v → (∀ text, m.SpellsOut v text ↔ text = m.display v) ∧
      ∀ path id, ¬ (m.drawing v).Occurs path (.cut id)) :=
  ⟨m.display_eq_flat v, fun _ _ => path_of_occurs_drawing, fun h => ⟨h.spellsOut_iff, fun _ _ => h.not_cut⟩⟩

/-- A list that has a dict twice is displayed in full, without a guard too. A dict that has this list as a key and itself
as the value is cut. -/
theorem Machine.display_graph_shared :
    let shared : Machine Thermometer := stateAfter (newList [.doc 1, .doc 1])
      (stateAfter (newDoc (Doc.empty.insertMany [(.str "a", .none)])) (.build .empty .default))
    let m := stateAfter (newDoc (Doc.empty.insertMany [(.doc 2, .doc 3)])) shared
    m.Acyclic (.doc 2) ∧ m.display (.doc 2) = "[\x7b\"a\": None\x7d, \x7b\"a\": None\x7d]" ∧
      m.SpellsOut (.doc 2) (m.display (.doc 2)) ∧
      m.display (.doc 3) = "\x7b[\x7b\"a\": None\x7d, \x7b\"a\": None\x7d]: ...\x7d" ∧
      (m.drawing (.doc 3)).Occurs [3] (.cut 3) ∧ (Fragment.cut 3).Fits [3] := by
  intro shared m
  have hacyclic : m.Acyclic (.doc 2) := acyclic_of_older (by decide)
  obtain ⟨-, -, hfree⟩ := m.display_graph (.doc 2)
  obtain ⟨-, hpaths, -⟩ := m.display_graph (.doc 3)
  have hdrawn : ∃ list, m.drawing (.doc 3) = .doc 3 [.text "\x7b", list, .text ": ", .cut 3, .text "\x7d"] := ⟨_, rfl⟩
  have hcut : (m.drawing (.doc 3)).Occurs [3] (.cut 3) := by
    obtain ⟨list, hdrawn⟩ := hdrawn
    rw [hdrawn]
    exact .inside (by simp) (.here (.cut 3))
  exact ⟨hacyclic, by decide, ((hfree hacyclic).1 _).2 rfl, by decide, hcut, (hpaths _ _ hcut).2⟩

end DocScript
