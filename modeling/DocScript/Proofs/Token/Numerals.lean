import DocScript.Proofs.Number.Nearest
import DocScript.Proofs.Number.Text

/-!
# Number literals

A literal with a base is a zero, the letter of the base and all the letters and digits that follow; every other
literal is the longest run of digits and underscores with at most one point between two digits. `IsDecimal` says
what such a run is, `RadixToken` and `DecimalToken` say which token a literal gives, and the scanner takes the
longest run and gives that token.

The scanner reads a run with two bits of memory : whether it saw a point, and whether an underscore was the last
character. `GoesOn` is what a run may go on with under the two bits. A text that may go on is taken whole
(`decimalRun_append`), so that the run is the longest one, and an underscore between two digits is taken with the rest
of the run unchanged (`scan_underscore`).
-/

namespace DocScript

namespace Lexeme

/-! ## The runs of decimal literals -/

/-- Digits and underscores, with at most one point, which stands after a digit and before a digit. -/
structure IsDecimal (cs : List Char) : Prop where
  chars : ∀ c ∈ cs, c.isDigit = true ∨ c = '_' ∨ c = '.'
  count : cs.count '.' ≤ 1
  between : ∀ a b, cs = a ++ '.' :: b → (∃ d ∈ a.getLast?, d.isDigit = true) ∧ ∃ d ∈ b.head?, d.isDigit = true

/-- What a run may go on with : `point` says that it has a point, `gap` that it ends in an underscore. -/
structure GoesOn (point gap : Bool) (cs : List Char) : Prop where
  chars : ∀ c ∈ cs, c.isDigit = true ∨ c = '_' ∨ c = '.'
  count : cs.count '.' ≤ (!point).toNat
  between : ∀ a b, cs = a ++ '.' :: b →
    (a = [] → gap = false) ∧ (∀ d ∈ a.getLast?, d.isDigit = true) ∧ ∃ d ∈ b.head?, d.isDigit = true

variable {point gap : Bool} {c : Char} {cs : List Char}

theorem underscore_of_isDigit (hc : c.isDigit = true) : (c == '_') = false := by
  rw [beq_eq_false_iff_ne]
  rintro rfl
  exact absurd hc (by decide)

theorem ne_point (hc : c.isDigit = true ∨ c = '_') : c ≠ '.' := by
  rintro rfl
  exact absurd hc (by decide)

theorem goesOn_nil (point gap : Bool) : GoesOn point gap [] := by
  constructor <;> simp

/-- After a character that is no point. -/
theorem goesOn_cons (hp : c ≠ '.') :
    GoesOn point gap (c :: cs) ↔ (c.isDigit = true ∨ c = '_') ∧ GoesOn point (c == '_') cs := by
  constructor
  · intro h
    have hc : c.isDigit = true ∨ c = '_' := by
      rcases h.chars c (by simp) with hd | hu | hd
      · exact .inl hd
      · exact .inr hu
      · exact absurd hd hp
    refine ⟨hc, fun d hd => h.chars d (by simp [hd]), ?_, fun a b hab => ?_⟩
    · have := h.count
      rwa [List.count_cons_of_ne hp] at this
    · obtain ⟨-, hlast, hnext⟩ := h.between (c :: a) b (by rw [hab, List.cons_append])
      refine ⟨?_, fun d hd => hlast d ?_, hnext⟩
      · rintro rfl
        exact underscore_of_isDigit (hlast c rfl)
      · rw [List.getLast?_cons, Option.mem_def.1 hd]
        rfl
  · rintro ⟨hc, h⟩
    refine ⟨?_, ?_, fun a b hab => ?_⟩
    · intro d hd
      rcases List.mem_cons.1 hd with rfl | hd
      · exact hc.imp_right .inl
      · exact h.chars d hd
    · rw [List.count_cons_of_ne hp]
      exact h.count
    · cases a with
      | nil => exact absurd (List.cons.inj hab).1 hp
      | cons x a =>
        obtain ⟨rfl, htail⟩ := List.cons.inj hab
        obtain ⟨hfirst, hlast, hnext⟩ := h.between a b htail
        refine ⟨fun h => by simp at h, fun d hd => ?_, hnext⟩
        cases a with
        | nil =>
          obtain rfl : c = d := by simpa using hd
          exact hc.resolve_right (by simpa using hfirst rfl)
        | cons y a => exact hlast d (by simpa using hd)

/-- After a point. -/
theorem goesOn_point :
    GoesOn point gap ('.' :: cs) ↔
      point = false ∧ gap = false ∧ (∃ d ∈ cs.head?, d.isDigit = true) ∧ GoesOn true false cs := by
  constructor
  · intro h
    obtain ⟨hgap, -, hnext⟩ := h.between [] cs rfl
    have hcount := h.count
    rw [List.count_cons_self] at hcount
    obtain rfl : point = false := by
      cases point with
      | false => rfl
      | true => simp at hcount
    have hnone : '.' ∉ cs := List.count_eq_zero.1 (by simpa using hcount)
    refine ⟨rfl, hgap rfl, hnext, fun d hd => h.chars d (by simp [hd]), ?_, fun a b hab => ?_⟩
    · simp [List.count_eq_zero.2 hnone]
    · exact absurd (by simp [hab]) hnone
  · rintro ⟨rfl, rfl, hnext, h⟩
    have hcount := h.count
    have hnone : '.' ∉ cs := List.count_eq_zero.1 (by simpa using hcount)
    refine ⟨?_, ?_, fun a b hab => ?_⟩
    · intro d hd
      rcases List.mem_cons.1 hd with rfl | hd
      · exact .inr (.inr rfl)
      · exact h.chars d hd
    · simp [List.count_eq_zero.2 hnone]
    · cases a with
      | nil =>
        obtain rfl : cs = b := (List.cons.inj hab).2
        exact ⟨fun _ => rfl, by simp, hnext⟩
      | cons x a => exact absurd (by simp [(List.cons.inj hab).2]) hnone

/-- Behind its first digit, a run goes on. -/
theorem isDecimal_cons (hc : c.isDigit = true) : IsDecimal (c :: cs) ↔ GoesOn false false cs := by
  -- a run that starts behind an underscore does not start with a point
  have hstart : IsDecimal (c :: cs) ↔ GoesOn false true (c :: cs) := by
    constructor
    · intro h
      refine ⟨h.chars, h.count, fun a b hab => ?_⟩
      obtain ⟨⟨d, hd, hdigit⟩, hnext⟩ := h.between a b hab
      refine ⟨?_, fun x hx => Option.mem_unique hd hx ▸ hdigit, hnext⟩
      rintro rfl
      simp at hd
    · intro h
      refine ⟨h.chars, h.count, fun a b hab => ?_⟩
      obtain ⟨hfirst, hlast, hnext⟩ := h.between a b hab
      cases ha : a.getLast? with
      | none => exact absurd (hfirst (List.getLast?_eq_none_iff.1 ha)) (by decide)
      | some d => exact ⟨⟨d, rfl, hlast d ha⟩, hnext⟩
  rw [hstart, goesOn_cons (ne_point (.inl hc)), underscore_of_isDigit hc]
  exact and_iff_right (.inl hc)

theorem decimalRun_cons (hc : c.isDigit = true ∨ c = '_') (point gap : Bool) (cs : List Char) :
    decimalRun point gap (c :: cs) = (c :: (decimalRun point (c == '_') cs).1, (decimalRun point (c == '_') cs).2) := by
  rw [decimalRun]
  rcases hc with hd | rfl
  · rw [if_pos hd, underscore_of_isDigit hd]
  · rfl

theorem decimalRun_point (h : cs.head?.any Char.isDigit = true) :
    decimalRun false false ('.' :: cs) = ('.' :: (decimalRun true false cs).1, (decimalRun true false cs).2) := by
  rw [decimalRun, h]
  rfl

/-- The scanner takes only what a run may go on with. -/
theorem goesOn_decimalRun (point gap : Bool) (cs : List Char) : GoesOn point gap (decimalRun point gap cs).1 := by
  induction cs generalizing point gap with
  | nil => exact goesOn_nil point gap
  | cons c cs ih =>
    by_cases hc : c.isDigit = true ∨ c = '_'
    · rw [decimalRun_cons hc]
      exact (goesOn_cons (ne_point hc)).2 ⟨hc, ih ..⟩
    by_cases hp : (c = '.' && !point && !gap && cs.head?.any Char.isDigit) = true
    · simp only [Bool.and_eq_true, decide_eq_true_eq, Bool.not_eq_true'] at hp
      obtain ⟨⟨⟨rfl, rfl⟩, rfl⟩, hhead⟩ := hp
      rw [decimalRun_point hhead]
      refine goesOn_point.2 ⟨rfl, rfl, ?_, ih ..⟩
      cases cs with
      | nil => contradiction
      | cons d ds =>
        rw [decimalRun_cons (.inl hhead)]
        exact ⟨d, rfl, hhead⟩
    · rw [not_or] at hc
      rw [decimalRun, if_neg hc.1, if_neg hc.2, if_neg hp]
      exact goesOn_nil point gap

/-- What a run may go on with is taken whole. -/
theorem decimalRun_append {u : List Char} (hu : GoesOn point gap u) :
    ∃ point' gap', ∀ t, decimalRun point gap (u ++ t) =
      (u ++ (decimalRun point' gap' t).1, (decimalRun point' gap' t).2) := by
  induction u generalizing point gap with
  | nil => exact ⟨point, gap, fun t => rfl⟩
  | cons c u ih =>
    by_cases hp : c = '.'
    · subst hp
      obtain ⟨rfl, rfl, ⟨d, hd, hdigit⟩, h⟩ := goesOn_point.1 hu
      obtain ⟨point', gap', hrun⟩ := ih h
      refine ⟨point', gap', fun t => ?_⟩
      have hhead : (u ++ t).head?.any Char.isDigit = true := by
        rw [List.head?_append, Option.mem_def.1 hd]
        exact hdigit
      rw [List.cons_append, decimalRun_point hhead, hrun]
      rfl
    · obtain ⟨hc, h⟩ := (goesOn_cons hp).1 hu
      obtain ⟨point', gap', hrun⟩ := ih h
      refine ⟨point', gap', fun t => ?_⟩
      rw [List.cons_append, decimalRun_cons hc, hrun]
      rfl

/-- The scanner takes the longest run. -/
theorem decimalRun_longest (hc : c.isDigit = true) (cs : List Char) :
    IsDecimal (c :: (decimalRun false false cs).1) ∧
      ∀ u, u <+: c :: cs → IsDecimal u → u <+: c :: (decimalRun false false cs).1 := by
  refine ⟨(isDecimal_cons hc).2 (goesOn_decimalRun ..), fun u hu hdec => ?_⟩
  obtain ⟨t, ht⟩ := hu
  cases u with
  | nil => exact ⟨_, rfl⟩
  | cons d u =>
    rw [List.cons_append] at ht
    obtain ⟨rfl, rfl⟩ := List.cons.inj ht
    obtain ⟨point, gap, hrun⟩ := decimalRun_append ((isDecimal_cons hc).1 hdec)
    rw [hrun]
    exact ⟨(decimalRun point gap t).1, rfl⟩

/-! ## Their tokens -/

/-- The token of a decimal run. Two underscores side by side are worse than one at the end. -/
inductive DecimalToken (run : List Char) : TokenKind → Prop
  | double (h : ['_', '_'] <:+: run) : DecimalToken run (.error .doubleUnderscore)
  | trailing (h : ¬ ['_', '_'] <:+: run) (hlast : ['_'] <:+ run) : DecimalToken run (.error .trailingUnderscore)
  /-- The digits are those of the run without its underscores. -/
  | number {whole fraction : List Char} {x : Float} (h : ¬ ['_', '_'] <:+: run) (hlast : ¬ ['_'] <:+ run)
      (hd : Digits whole) (hne : whole ≠ []) (hf : Digits fraction)
      (htext : run.filter (· ≠ '_') = whole ++ fractionText fraction)
      (hx : Number.Nearest (Nat.ofDigitChars 10 (whole ++ fraction) 0 / 10 ^ fraction.length) x) :
      DecimalToken run (.number x)

theorem doubleUnderscore_iff (cs : List Char) : doubleUnderscore cs = true ↔ ['_', '_'] <:+: cs := by
  fun_induction doubleUnderscore cs with
  | case1 cs => simpa using ⟨[], cs, rfl⟩
  | case2 c cs hne ih =>
    rw [ih, List.infix_cons_iff]
    refine (or_iff_right ?_).symm
    rintro ⟨t, ht⟩
    obtain ⟨rfl, rfl⟩ := List.cons.inj ht
    exact hne t rfl rfl
  | case3 => simp

theorem getLast?_eq_underscore (cs : List Char) : cs.getLast? = some '_' ↔ ['_'] <:+ cs := by
  rw [List.getLast?_eq_some_iff]
  exact exists_congr fun _ => eq_comm

theorem digits_filter (h : ∀ c ∈ cs, c.isDigit = true ∨ c = '_' ∨ c = '.') (hp : '.' ∉ cs) :
    Digits (cs.filter (· ≠ '_')) := by
  intro c hc
  obtain ⟨hmem, hne⟩ := List.mem_filter.1 hc
  rcases h c hmem with hd | rfl | rfl
  · exact hd
  · simp at hne
  · exact absurd hmem hp

theorem filter_ne_nil {d : Char} (hd : d.isDigit = true) (hmem : d ∈ cs) : cs.filter (· ≠ '_') ≠ [] := by
  have hne : d ≠ '_' := by simpa using underscore_of_isDigit hd
  exact List.ne_nil_of_mem (List.mem_filter.2 ⟨hmem, by simpa using hne⟩)

/-- Without its underscores, a run that starts with a digit is a numeral. -/
theorem IsDecimal.numeral (h : IsDecimal (c :: cs)) (hc : c.isDigit = true) :
    ∃ whole fraction, Digits whole ∧ whole ≠ [] ∧ Digits fraction ∧
      (c :: cs).filter (· ≠ '_') = whole ++ fractionText fraction := by
  by_cases hp : '.' ∈ c :: cs
  · obtain ⟨a, b, hab⟩ := List.append_of_mem hp
    obtain ⟨⟨d, hd, hdigit⟩, d', hd', hdigit'⟩ := h.between a b hab
    have hcount := h.count
    rw [hab, List.count_append, List.count_cons_self] at hcount
    have hchars := h.chars
    rw [hab] at hchars
    have hfraction := filter_ne_nil hdigit' (List.mem_of_mem_head? hd')
    refine ⟨a.filter (· ≠ '_'), b.filter (· ≠ '_'), ?_, ?_, ?_, ?_⟩
    · exact digits_filter (fun x hx => hchars x (by simp [hx])) (List.count_eq_zero.1 (by omega))
    · exact filter_ne_nil hdigit (List.mem_of_getLast? hd)
    · exact digits_filter (fun x hx => hchars x (by simp [hx])) (List.count_eq_zero.1 (by omega))
    · rw [hab, fractionText, if_neg hfraction, List.filter_append, List.filter_cons_of_pos (by decide)]
  · refine ⟨(c :: cs).filter (· ≠ '_'), [], digits_filter h.chars hp, filter_ne_nil hc (by simp), by simp [Digits], ?_⟩
    rw [fractionText, if_pos rfl, List.append_nil]

theorem decimalToken_decimalKind (h : IsDecimal (c :: cs)) (hc : c.isDigit = true) :
    DecimalToken (c :: cs) (decimalKind (c :: cs)) := by
  unfold decimalKind
  split
  · next hdouble => exact .double ((doubleUnderscore_iff _).1 hdouble)
  next hdouble =>
  rw [doubleUnderscore_iff] at hdouble
  split
  · next hlast => exact .trailing hdouble ((getLast?_eq_underscore _).1 hlast)
  · next hlast =>
    rw [getLast?_eq_underscore] at hlast
    obtain ⟨whole, fraction, hd, hne, hf, htext⟩ := h.numeral hc
    rw [htext, decimalValue_numeral hd hf]
    exact .number hdouble hlast hd hne hf htext (Number.nearest_ofScientific ..)

/-! ## Underscores -/

theorem doubleUnderscore_cons (c : Char) (cs : List Char) :
    doubleUnderscore (c :: cs) = (c == '_' && cs.head? == some '_' || doubleUnderscore cs) := by
  by_cases h : c = '_' ∧ cs.head? = some '_'
  · obtain ⟨rfl, hhead⟩ := h
    obtain ⟨t, rfl⟩ := List.head?_eq_some_iff.1 hhead
    rfl
  · have hne : (c == '_' && cs.head? == some '_') = false := by simpa using h
    rw [hne, Bool.false_or, doubleUnderscore]
    rintro t rfl rfl
    exact h ⟨rfl, rfl⟩

/-- No two underscores stand side by side around another character. -/
theorem doubleUnderscore_append {d : Char} (hd : d ≠ '_') (a b : List Char) :
    doubleUnderscore (a ++ d :: b) = (doubleUnderscore a || doubleUnderscore b) := by
  induction a with
  | nil => simp [doubleUnderscore_cons, doubleUnderscore, hd]
  | cons c a ih =>
    rw [List.cons_append, doubleUnderscore_cons, doubleUnderscore_cons, ih]
    cases a with
    | nil => simp [hd]
    | cons x a => simp [Bool.or_assoc]

/-- One underscore between two other characters does not change the token. -/
theorem decimalKind_underscore {d e : Char} (hd : d ≠ '_') (he : e ≠ '_') (a b : List Char) :
    decimalKind (a ++ d :: '_' :: e :: b) = decimalKind (a ++ d :: e :: b) := by
  have hdouble : doubleUnderscore (a ++ d :: '_' :: e :: b) = doubleUnderscore (a ++ d :: e :: b) := by
    rw [doubleUnderscore_append hd, doubleUnderscore_append hd, doubleUnderscore_cons '_']
    simp [beq_eq_false_iff_ne.2 he]
  have hlast : (a ++ d :: '_' :: e :: b).getLast? = (a ++ d :: e :: b).getLast? := by
    simp [List.getLast?_append, List.getLast?_cons]
  have hfilter : (a ++ d :: '_' :: e :: b).filter (· ≠ '_') = (a ++ d :: e :: b).filter (· ≠ '_') := by
    simp [List.filter_append, List.filter_cons]
  rw [decimalKind, decimalKind, hdouble, hlast, hfilter]

/-- A digit that no base follows starts a decimal literal. -/
theorem scan_decimal (hc : c.isDigit = true) (h : c = '0' → ∀ b ∈ cs.head?, radix? b = none) :
    scan c cs = (⟨decimalKind (c :: (decimalRun false false cs).1), c :: (decimalRun false false cs).1⟩,
      (decimalRun false false cs).2) := by
  have hquote : c ≠ '"' := by
    rintro rfl
    exact absurd hc (by decide)
  rw [scan, if_neg hquote, if_pos hc]
  unfold number
  split
  · rfl
  · next b ds =>
    split
    · next radix hr =>
      split
      · next h0 =>
        rw [h h0 b rfl] at hr
        contradiction
      · rfl
    · rfl

theorem isAlpha_of_goesOn (h : GoesOn point gap cs) {b : Char} (hb : b ∈ cs) : b.isAlpha = false := by
  rcases h.chars b hb with hd | rfl | rfl
  · exact isAlpha_of_isDigit hd
  · rfl
  · rfl

/-- An underscore between two digits changes neither the token nor where the literal ends. -/
theorem scan_underscore {p : List Char} {d e : Char} (hc : c.isDigit = true) (h : IsDecimal (c :: p))
    (hlast : (c :: p).getLast? = some d) (hd : d.isDigit = true) (he : e.isDigit = true) (s : List Char) :
    ∃ k t rest, scan c (p ++ e :: s) = (⟨k, c :: p ++ e :: t⟩, rest) ∧
      scan c (p ++ '_' :: e :: s) = (⟨k, c :: p ++ '_' :: e :: t⟩, rest) := by
  have hp := (isDecimal_cons hc).1 h
  obtain ⟨point, gap, hrun⟩ := decimalRun_append hp
  -- neither text has the letter of a base behind its first digit
  have hbase : ∀ x t, x.isAlpha = false → c = '0' → ∀ b ∈ (p ++ x :: t).head?, radix? b = none := by
    rintro x t hx - b hb
    cases p with
    | nil =>
      obtain rfl : x = b := by simpa using hb
      exact radix?_eq_none hx
    | cons y p =>
      obtain rfl : y = b := by simpa using hb
      exact radix?_eq_none (isAlpha_of_goesOn hp (by simp))
  obtain ⟨a, ha⟩ : ∃ a, c :: p = a ++ [d] := List.getLast?_eq_some_iff.1 hlast
  have hsame := decimalKind_underscore (by simpa using underscore_of_isDigit hd)
    (by simpa using underscore_of_isDigit he) a (decimalRun point false s).1
  refine ⟨decimalKind (c :: p ++ e :: (decimalRun point false s).1), (decimalRun point false s).1,
    (decimalRun point false s).2, ?_, ?_⟩
  · rw [scan_decimal hc (hbase e s (isAlpha_of_isDigit he)), hrun, decimalRun_cons (.inl he), underscore_of_isDigit he]
    rfl
  · rw [scan_decimal hc (hbase '_' _ rfl), hrun, decimalRun_cons (.inr rfl), decimalRun_cons (.inl he),
      underscore_of_isDigit he]
    simp only [← List.cons_append, ha, List.append_assoc, List.singleton_append, hsame]

/-! ## Literals with a base -/

/-- The letters of the bases. -/
def baseLetters : List (Char × Nat) := [('x', 16), ('X', 16), ('o', 8), ('O', 8), ('b', 2), ('B', 2)]

theorem radix?_eq_some_iff {b : Char} {radix : Nat} : radix? b = some radix ↔ (b, radix) ∈ baseLetters := by
  simp only [radix?, baseLetters, List.mem_cons, Prod.mk.injEq, List.not_mem_nil, or_false]
  grind

/-- `c` is the digit of the value `v` in a base, small or capital. -/
def IsDigitOf (radix : Nat) (c : Char) (v : Nat) : Prop := v < radix ∧ c.toLower = Nat.digitChar v

/-- The token of what follows a base. -/
inductive RadixToken (radix : Nat) : List Char → TokenKind → Prop
  | missing : RadixToken radix [] (.error (.missingDigits radix))
  /-- `d` is the first character that is no digit of the base. -/
  | invalid {ds more : List Char} {d : Char} (h : ∀ c ∈ ds, ∃ v, IsDigitOf radix c v)
      (hd : ¬ ∃ v, IsDigitOf radix d v) : RadixToken radix (ds ++ d :: more) (.error (.invalidDigit d radix))
  | number {ds : List Char} {vs : List Nat} {x : Float} (hne : ds ≠ []) (h : List.Forall₂ (IsDigitOf radix) ds vs)
      (hlt : Nat.ofDigits radix vs.reverse < 2 ^ 64)
      (hx : Number.Nearest (Nat.ofDigits radix vs.reverse : Nat) x) : RadixToken radix ds (.number x)
  | overflow {ds : List Char} {vs : List Nat} (hne : ds ≠ []) (h : List.Forall₂ (IsDigitOf radix) ds vs)
      (hge : 2 ^ 64 ≤ Nat.ofDigits radix vs.reverse) : RadixToken radix ds (.error .integerOverflow)

theorem toNat_lt_of_isAlphanum (hc : c.isAlphanum = true) : c.toNat < 128 := by
  simp only [Char.isAlphanum, Char.isAlpha, Char.isUpper, Char.isLower, Char.isDigit, Bool.or_eq_true,
    Bool.and_eq_true, decide_eq_true_eq, ge_iff_le, UInt32.le_iff_toNat_le] at hc
  have : c.toNat = c.val.toNat := rfl
  have : 'Z'.val.toNat = 90 := rfl
  have : 'z'.val.toNat = 122 := rfl
  have : '9'.val.toNat = 57 := rfl
  omega

/-- The digits of a base, by the values that the scanner gives them. -/
theorem isDigitOf_iff {radix v : Nat} (hr : radix ≤ 16) (hc : c.isAlphanum = true) :
    IsDigitOf radix c v ↔ digitValue c < radix ∧ digitValue c = v := by
  -- all letters and digits are among the first 128 characters
  have hall : ∀ n : Fin 128, (Char.ofNat n).isAlphanum = true → ∀ v : Fin 16,
      (Char.ofNat n).toLower = Nat.digitChar v ↔ digitValue (Char.ofNat n) = v := by
    decide +kernel
  have hlt := toNat_lt_of_isAlphanum hc
  have hvalue := fun hv => hall ⟨c.toNat, hlt⟩ (by rwa [Char.ofNat_toNat]) ⟨v, hv⟩
  rw [Char.ofNat_toNat] at hvalue
  constructor
  · rintro ⟨hv, h⟩
    have := (hvalue (by omega)).1 h
    exact ⟨this ▸ hv, this⟩
  · rintro ⟨hv, rfl⟩
    exact ⟨hv, (hvalue (by omega)).2 rfl⟩

theorem positionalValue_eq_ofDigits (radix : Nat) (ds : List Char) :
    positionalValue radix ds = Nat.ofDigits radix (ds.map digitValue).reverse := by
  rw [Nat.ofDigits_eq_foldr, List.foldr_reverse, List.foldl_map, positionalValue]
  congr 1
  funext n d
  simp [Nat.mul_comm, Nat.add_comm]

theorem radixToken_radixKind {radix : Nat} {ds : List Char} (hr : radix ≤ 16) (hds : ∀ c ∈ ds, c.isAlphanum = true) :
    RadixToken radix ds (radixKind radix ds) := by
  unfold radixKind
  split
  · next h =>
    subst h
    exact .missing
  next hne =>
  split
  · next d hfind =>
    obtain ⟨hd, good, more, rfl, hgood⟩ := List.find?_eq_some_iff_append.1 hfind
    have hvalue : radix ≤ digitValue d := by simpa using hd
    refine .invalid (fun c hc => ?_) ?_
    · have hlt : digitValue c < radix := by simpa using hgood c hc
      exact ⟨_, (isDigitOf_iff hr (hds c (by simp [hc]))).2 ⟨hlt, rfl⟩⟩
    · rintro ⟨v, hv⟩
      have := ((isDigitOf_iff hr (hds d (by simp))).1 hv).1
      omega
  · next hfind =>
    rw [List.find?_eq_none] at hfind
    have hforall : List.Forall₂ (IsDigitOf radix) ds (ds.map digitValue) := by
      rw [List.forall₂_map_right_iff, List.forall₂_same]
      intro c hc
      exact (isDigitOf_iff hr (hds c hc)).2 ⟨by simpa using hfind c hc, rfl⟩
    rw [positionalValue_eq_ofDigits]
    dsimp only
    split
    · next hlt => exact .number hne hforall hlt (Number.nearest_ofNat hlt)
    · next hge => exact .overflow hne hforall (Nat.le_of_not_lt hge)

/-- A zero and the letter of a base start a literal with all letters and digits that follow. -/
theorem scan_radix {b : Char} {radix : Nat} (hb : (b, radix) ∈ baseLetters) (ds : List Char) :
    scan '0' (b :: ds) = (⟨radixKind radix (ds.takeWhile Char.isAlphanum), '0' :: b :: ds.takeWhile Char.isAlphanum⟩,
      ds.dropWhile Char.isAlphanum) := by
  rw [scan, if_neg (by decide), if_pos (by decide), number]
  simp [radix?_eq_some_iff.2 hb]

theorem radix_le {b : Char} {radix : Nat} (hb : (b, radix) ∈ baseLetters) : radix ≤ 16 := by
  simp only [baseLetters, List.mem_cons, Prod.mk.injEq, List.not_mem_nil, or_false] at hb
  omega

end Lexeme

open Lexeme

/-- Number literals. A zero, the letter of a base and all letters and digits that follow make a literal with a
base; behind any other start the longest decimal run is taken. Each gives the token of its kind, and an
underscore between two digits of a decimal literal changes neither its token nor where it ends. -/
theorem number_literals {c : Char} (hc : c.isDigit = true) :
    (∀ b radix ds, c = '0' → (b, radix) ∈ baseLetters →
      ∃ digits rest k, ds = digits ++ rest ∧ (∀ d ∈ digits, d.isAlphanum = true) ∧
        (∀ d ∈ rest.head?, d.isAlphanum = false) ∧ RadixToken radix digits k ∧
        scan c (b :: ds) = (⟨k, c :: b :: digits⟩, rest)) ∧
    (∀ cs, (c = '0' → ∀ b ∈ cs.head?, ∀ radix, (b, radix) ∉ baseLetters) →
      ∃ run rest k, c :: cs = run ++ rest ∧ IsDecimal run ∧ (∀ u, u <+: c :: cs → IsDecimal u → u <+: run) ∧
        DecimalToken run k ∧ scan c cs = (⟨k, run⟩, rest)) ∧
    (∀ p d e s, IsDecimal (c :: p) → (c :: p).getLast? = some d → d.isDigit = true → e.isDigit = true →
      ∃ k t rest, scan c (p ++ e :: s) = (⟨k, c :: p ++ e :: t⟩, rest) ∧
        scan c (p ++ '_' :: e :: s) = (⟨k, c :: p ++ '_' :: e :: t⟩, rest)) := by
  refine ⟨fun b radix ds h0 hb => ?_, fun cs hcs => ?_, fun p d e s h hlast hd he => ?_⟩
  · subst h0
    have hall : ∀ d ∈ ds.takeWhile Char.isAlphanum, d.isAlphanum = true := fun d hd => List.mem_takeWhile_imp hd
    refine ⟨_, _, _, List.takeWhile_append_dropWhile.symm, hall, ?_, radixToken_radixKind (radix_le hb) hall,
      scan_radix hb ds⟩
    intro d hd
    have := List.head?_dropWhile_not Char.isAlphanum ds
    rwa [Option.mem_def.1 hd] at this
  · obtain ⟨hrun, hlongest⟩ := decimalRun_longest hc cs
    refine ⟨_, _, _, ?_, hrun, hlongest, decimalToken_decimalKind hrun hc, scan_decimal hc ?_⟩
    · rw [List.cons_append, decimalRun_split]
    · intro h0 b hb
      exact Option.eq_none_iff_forall_ne_some.2 fun radix hr => hcs h0 b hb radix (radix?_eq_some_iff.1 hr)
  · exact scan_underscore hc h hlast hd he s

/-- `0xfF.5` is a literal with a base and a point behind it, `0.2__5` a bad decimal, and `0.25` is the same as
`0.2_5`. -/
theorem number_literals_zero :
    '0'.isDigit = true ∧
    (('x', 16) ∈ baseLetters ∧
      ∃ digits rest k, ['f', 'F', '.', '5'] = digits ++ rest ∧ (∀ d ∈ digits, d.isAlphanum = true) ∧
        (∀ d ∈ rest.head?, d.isAlphanum = false) ∧ RadixToken 16 digits k ∧
        scan '0' ['x', 'f', 'F', '.', '5'] = (⟨k, '0' :: 'x' :: digits⟩, rest)) ∧
    (DecimalToken ['0', '.', '2', '_', '_', '5'] (.error .doubleUnderscore) ∧
      scan '0' ['.', '2', '_', '_', '5'] = (⟨.error .doubleUnderscore, ['0', '.', '2', '_', '_', '5']⟩, [])) ∧
    (IsDecimal ['0', '.', '2'] ∧
      ∃ k t rest, scan '0' ['.', '2', '5', '.'] = (⟨k, '0' :: '.' :: '2' :: '5' :: t⟩, rest) ∧
        scan '0' ['.', '2', '_', '5', '.'] = (⟨k, '0' :: '.' :: '2' :: '_' :: '5' :: t⟩, rest)) := by
  obtain ⟨hbase, hdecimal, hunder⟩ := number_literals (c := '0') rfl
  have hscan : scan '0' ['.', '2', '_', '_', '5'] =
      (⟨.error .doubleUnderscore, ['0', '.', '2', '_', '_', '5']⟩, []) := rfl
  have hrun : IsDecimal ['0', '.', '2'] :=
    (isDecimal_cons rfl).2 (goesOn_point.2 ⟨rfl, rfl, ⟨'2', rfl, rfl⟩,
      (goesOn_cons (by decide)).2 ⟨.inl rfl, goesOn_nil ..⟩⟩)
  obtain ⟨run, rest, k, -, -, -, htoken, hrest⟩ := hdecimal ['.', '2', '_', '_', '5'] (by simp [baseLetters])
  obtain ⟨⟨rfl, rfl⟩, -⟩ : (k = .error .doubleUnderscore ∧ run = _) ∧ rest = [] := by
    simpa using hrest.symm.trans hscan
  exact ⟨rfl, ⟨by decide, hbase 'x' 16 _ rfl (by decide)⟩, ⟨htoken, hscan⟩,
    hrun, hunder ['.', '2'] '2' '5' ['.'] hrun rfl rfl rfl⟩

end DocScript
