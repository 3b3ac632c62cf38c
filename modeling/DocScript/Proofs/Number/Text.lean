import DocScript.Proofs.Number.Reading
import DocScript.Proofs.Number.Shortest
import DocScript.Token.Lexeme

/-!
# The text of a number is read as that number

A number that is not negative is written as a numeral : digits, and perhaps a point with more digits behind
it. `Decimal.positional` writes its decimal exactly (`Decimal.positional_eq`), the scanner takes a numeral
whole (`Lexeme.scan_numeral`), and the decimal lies in the interval of the number, so `Number.text_eq` puts the
three together : the text of a finite number is a numeral that is read as the number itself.
-/

namespace DocScript

open Rounding

/-! ## Numerals -/

/-- Characters that are all digits. -/
def Digits (ds : List Char) : Prop := ∀ c ∈ ds, c.isDigit = true

theorem digits_toDigits (n : Nat) : Digits (Nat.toDigits 10 n) :=
  fun _ h => Nat.isDigit_of_mem_toDigits (by decide) (by decide) h

/-- The point and the digits behind it; nothing if there are none. -/
def fractionText (fraction : List Char) : List Char := if fraction = [] then [] else '.' :: fraction

namespace Lexeme

/-- A character that does not go on with the lexeme in front of it. -/
def isBreak (c : Char) : Bool :=
  !isNameChar c && c != '.' && c != '=' && c != '>' && c != '*' && c != '/'

/-- A text that does not go on with the lexeme in front of it. -/
def Breaks (rest : List Char) : Prop := ∀ c ∈ rest.head?, isBreak c = true

theorem Breaks.char {c : Char} {rest : List Char} (h : Breaks rest) (hc : c ∈ rest.head?) :
    isNameChar c = false ∧ c ≠ '.' ∧ c ≠ '=' ∧ c ≠ '>' ∧ c ≠ '*' ∧ c ≠ '/' := by
  simpa [isBreak, and_assoc] using h c hc

theorem isNameChar_of_isDigit {c : Char} (h : c.isDigit = true) : isNameChar c = true := by
  simp [isNameChar, Char.isAlphanum, h]

theorem Breaks.isDigit {c : Char} {cs : List Char} (h : Breaks (c :: cs)) : c.isDigit = false := by
  by_contra hd
  have := (h.char rfl).1
  rw [isNameChar_of_isDigit (by simpa using hd)] at this
  nomatch this

theorem Breaks.underscore {c : Char} {cs : List Char} (h : Breaks (c :: cs)) : c ≠ '_' := by
  rintro rfl
  exact absurd (h.char (c := '_') rfl).1 (by decide)

variable {ds fraction rest : List Char}

theorem positionalValue_eq (h : Digits ds) : positionalValue 10 ds = Nat.ofDigitChars 10 ds 0 := by
  suffices ∀ n, ds.foldl (fun n d => n * 10 + digitValue d) n = Nat.ofDigitChars 10 ds n from this 0
  induction ds with
  | nil => intro n; rfl
  | cons d ds ih =>
    intro n
    have hd : digitValue d = d.toNat - '0'.toNat := by simp [digitValue, h d (by simp)]
    rw [List.foldl_cons, ih (fun c hc => h c (by simp [hc])), Nat.ofDigitChars_cons, hd, Nat.mul_comm]

theorem decimalRun_breaks (h : Breaks rest) (point gap : Bool) : decimalRun point gap rest = ([], rest) := by
  cases rest with
  | nil => rfl
  | cons c cs => simp [decimalRun, h.isDigit, h.underscore, (h.char rfl).2.1]

theorem decimalRun_digits (h : Digits ds) (point : Bool) (rest : List Char) :
    decimalRun point false (ds ++ rest) =
      (ds ++ (decimalRun point false rest).1, (decimalRun point false rest).2) := by
  induction ds with
  | nil => rfl
  | cons d ds ih =>
    have hd : d.isDigit = true := h d (by simp)
    rw [List.cons_append, decimalRun, if_pos hd, ih (fun c hc => h c (by simp [hc]))]
    rfl

/-- The scanner takes all of a numeral. -/
theorem decimalRun_numeral (hd : Digits ds) (hf : Digits fraction) (hb : Breaks rest) :
    decimalRun false false (ds ++ (fractionText fraction ++ rest)) = (ds ++ fractionText fraction, rest) := by
  rw [decimalRun_digits hd]
  cases fraction with
  | nil => simp [fractionText, decimalRun_breaks hb]
  | cons f fs =>
    have hpoint : decimalRun false false ('.' :: (f :: fs ++ rest)) =
        ('.' :: (decimalRun true false (f :: fs ++ rest)).1, (decimalRun true false (f :: fs ++ rest)).2) := by
      rw [decimalRun]
      simp [hf f (by simp)]
    rw [fractionText, if_neg (by simp), List.cons_append, hpoint, decimalRun_digits hf, decimalRun_breaks hb]
    simp

theorem not_mem_numeral {c : Char} (hd : Digits ds) (hf : Digits fraction) (hc : c.isDigit = false)
    (hp : c ≠ '.') : c ∉ ds ++ fractionText fraction := by
  have hds : c ∉ ds := fun h => by simp [hd c h] at hc
  have hfs : c ∉ fraction := fun h => by simp [hf c h] at hc
  unfold fractionText
  split <;> simp [hds, hfs, hp]

theorem doubleUnderscore_eq_false {cs : List Char} (h : '_' ∉ cs) : doubleUnderscore cs = false := by
  fun_induction doubleUnderscore cs with
  | case1 => simp at h
  | case2 c cs _ ih => exact ih (fun hc => h (by simp [hc]))
  | case3 => rfl

theorem decimalValue_numeral (hd : Digits ds) (hf : Digits fraction) :
    decimalValue (ds ++ fractionText fraction) =
      .ofScientific (Nat.ofDigitChars 10 (ds ++ fraction) 0) true fraction.length := by
  have hpoint : ∀ cs : List Char, Digits cs → '.' ∉ cs := fun cs h hc => by simpa using h '.' hc
  have hfilter : (ds ++ fractionText fraction).filter (· ≠ '.') = ds ++ fraction := by
    have hdf : ∀ cs : List Char, Digits cs → cs.filter (· ≠ '.') = cs := fun cs h =>
      List.filter_eq_self.2 fun c hc => by
        have : c ≠ '.' := fun he => hpoint cs h (he ▸ hc)
        simpa using this
    rw [List.filter_append, hdf ds hd]
    congr 1
    unfold fractionText
    split
    · simp_all
    · rw [List.filter_cons_of_neg (by simp), hdf fraction hf]
  have hdrop : ((ds ++ fractionText fraction).dropWhile (· ≠ '.')).drop 1 = fraction := by
    rw [List.dropWhile_append_of_pos fun c hc => by
      have : c ≠ '.' := fun he => hpoint ds hd (he ▸ hc)
      simpa using this]
    unfold fractionText
    split
    · simp_all
    · simp
  have hdigits : Digits (ds ++ fraction) := fun c hc => (List.mem_append.1 hc).elim (hd c) (hf c)
  rw [decimalValue, hfilter, hdrop, positionalValue_eq hdigits]

theorem radix?_eq_none {c : Char} (h : c.isAlpha = false) : radix? c = none := by
  unfold radix?
  split
  · next hc => rcases hc with rfl | rfl <;> exact absurd h (by decide)
  split
  · next hc => rcases hc with rfl | rfl <;> exact absurd h (by decide)
  split
  · next hc => rcases hc with rfl | rfl <;> exact absurd h (by decide)
  · rfl

theorem Breaks.isAlpha {c : Char} {cs : List Char} (h : Breaks (c :: cs)) : c.isAlpha = false := by
  by_contra ha
  have := (h.char rfl).1
  simp [isNameChar, Char.isAlphanum, ha] at this

theorem isAlpha_of_isDigit {c : Char} (h : c.isDigit = true) : c.isAlpha = false := by
  simp only [Char.isDigit, Char.isAlpha, Char.isUpper, Char.isLower, Bool.and_eq_true, decide_eq_true_eq,
    Bool.or_eq_false_iff, Bool.and_eq_false_iff, decide_eq_false_iff_not] at h ⊢
  obtain ⟨h₁, h₂⟩ := h
  grind

/-- What follows the first digit of a numeral is no letter, so it never selects a base. -/
theorem isAlpha_numeral {c : Char} {cs : List Char} (hd : Digits ds) (hb : Breaks rest)
    (h : ds ++ (fractionText fraction ++ rest) = c :: cs) : c.isAlpha = false := by
  cases ds with
  | cons d ds =>
    obtain ⟨rfl, -⟩ := List.cons.inj h
    exact isAlpha_of_isDigit (hd d (by simp))
  | nil =>
    cases fraction with
    | cons f fs =>
      obtain ⟨rfl, -⟩ := List.cons.inj h
      rfl
    | nil =>
      obtain rfl : rest = c :: cs := h
      exact hb.isAlpha

/-- A numeral is read as the number it writes. -/
theorem scan_numeral {d : Char} (hd : Digits (d :: ds)) (hf : Digits fraction) (hb : Breaks rest) :
    scan d (ds ++ (fractionText fraction ++ rest)) =
      (⟨.number (.ofScientific (Nat.ofDigitChars 10 (d :: ds ++ fraction) 0) true fraction.length),
        d :: ds ++ fractionText fraction⟩, rest) := by
  have hdigit : d.isDigit = true := hd d (by simp)
  have hquote : d ≠ '"' := by
    rintro rfl
    exact absurd hdigit (by decide)
  have hds : Digits ds := fun c hc => hd c (by simp [hc])
  have hunder : '_' ∉ d :: ds ++ fractionText fraction := not_mem_numeral hd hf (by decide) (by decide)
  have hnumber : number d (ds ++ (fractionText fraction ++ rest)) =
      decimal d (ds ++ (fractionText fraction ++ rest)) := by
    unfold number
    split
    · rfl
    · next c cs heq => rw [radix?_eq_none (isAlpha_numeral hds hb heq)]
  have hlast : ¬ (d :: ds ++ fractionText fraction).getLast? = some '_' :=
    fun h => hunder (List.mem_of_getLast? h)
  have hfilter : (d :: ds ++ fractionText fraction).filter (· ≠ '_') = d :: ds ++ fractionText fraction :=
    List.filter_eq_self.2 fun c hc => by
      have : c ≠ '_' := fun he => hunder (he ▸ hc)
      simpa using this
  have hkind : decimalKind (d :: ds ++ fractionText fraction) =
      .number (.ofScientific (Nat.ofDigitChars 10 (d :: ds ++ fraction) 0) true fraction.length) := by
    rw [decimalKind, doubleUnderscore_eq_false hunder, if_neg (by decide), if_neg hlast, hfilter,
      decimalValue_numeral hd hf]
  rw [scan, if_neg hquote, if_pos hdigit, hnumber, decimal, decimalRun_numeral hds hf hb]
  simp only [← List.cons_append, hkind]

end Lexeme

/-! ## Decimals in full -/

namespace Decimal

theorem trimZeros_concat (cs : List Char) (c : Char) :
    trimZeros (cs ++ [c]) = if c = '0' then trimZeros cs else cs ++ [c] := by
  unfold trimZeros
  split <;> simp_all

theorem trimZeros_append (cs : List Char) : ∃ k, trimZeros cs ++ List.replicate k '0' = cs := by
  induction cs using List.reverseRecOn with
  | nil => exact ⟨0, rfl⟩
  | append_singleton cs c ih =>
    rw [trimZeros_concat]
    split
    · next hc =>
      obtain ⟨k, hk⟩ := ih
      refine ⟨k + 1, ?_⟩
      rw [List.replicate_succ', ← List.append_assoc, hk, hc]
    · exact ⟨0, List.append_nil _⟩

theorem digits_padded (width n : Nat) : Digits (padded width n) := by
  intro c hc
  rcases List.mem_append.1 hc with hc | hc
  · obtain rfl := List.eq_of_mem_replicate hc
    rfl
  · exact digits_toDigits n c hc

theorem ofDigitChars_padded (width n : Nat) : Nat.ofDigitChars 10 (padded width n) 0 = n := by
  rw [padded, Nat.ofDigitChars_append, Nat.ofDigitChars_replicate_zero, Nat.mul_zero,
    Nat.ofDigitChars_toDigits (by decide) (by decide)]

theorem length_padded {width n : Nat} (hw : 0 < width) (hn : n < 10 ^ width) :
    (padded width n).length = width := by
  have := (Nat.length_toDigits_le_iff (by decide) hw).2 hn
  rw [padded, List.length_append, List.length_replicate]
  omega

/-- The digits of the fraction, without the zeros at the end, are those of a count `n` of the last place. -/
theorem trimZeros_padded {down n : Nat} (hdown : 0 < down) (hn : n < 10 ^ down) :
    (Nat.ofDigitChars 10 (trimZeros (padded down n)) 0 : ℚ) * 10 ^ down =
      n * 10 ^ (trimZeros (padded down n)).length := by
  obtain ⟨k, hk⟩ := trimZeros_append (padded down n)
  have hlen := congrArg List.length hk
  have hvalue := congrArg (Nat.ofDigitChars 10 · 0) hk
  generalize trimZeros (padded down n) = f at hlen hvalue ⊢
  rw [List.length_append, List.length_replicate, length_padded hdown hn] at hlen
  rw [Nat.ofDigitChars_append, Nat.ofDigitChars_replicate_zero, ofDigitChars_padded] at hvalue
  rw [← hvalue, ← hlen]
  push_cast
  ring

theorem digits_trimZeros {cs : List Char} (h : Digits cs) : Digits (trimZeros cs) := by
  obtain ⟨k, hk⟩ := trimZeros_append cs
  exact fun c hc => h c (hk ▸ List.mem_append_left _ hc)

/-- The digits in front of the point and behind it make up the decimal. -/
theorem positional_eq (d : Decimal) : ∃ ds fraction, Digits ds ∧ ds ≠ [] ∧ Digits fraction ∧
    d.positional = ds ++ fractionText fraction ∧
    (Nat.ofDigitChars 10 (ds ++ fraction) 0 : ℚ) / 10 ^ fraction.length = d.coefficient * 10 ^ d.exponent := by
  obtain ⟨up, hup⟩ : ∃ up, up = d.exponent.toNat := ⟨_, rfl⟩
  obtain ⟨down, hdown⟩ : ∃ down, down = (-d.exponent).toNat := ⟨_, rfl⟩
  obtain ⟨whole, hwhole⟩ : ∃ whole, whole = d.coefficient * 10 ^ up := ⟨_, rfl⟩
  have hvalue : (d.coefficient * 10 ^ d.exponent : ℚ) = whole / 10 ^ down := by
    have hten := zpow_toNat 10 (by norm_num) d.exponent
    rw [hwhole, eq_div_iff (by positivity), mul_assoc, hdown, hten, hup]
    push_cast
    rfl
  have htext : d.positional = Nat.toDigits 10 (whole / 10 ^ down) ++
      if down = 0 ∨ trimZeros (padded down (whole % 10 ^ down)) = [] then []
      else '.' :: trimZeros (padded down (whole % 10 ^ down)) := by
    subst hup hdown hwhole
    rfl
  rw [htext, hvalue]
  rcases Nat.eq_zero_or_pos down with h0 | h0
  · refine ⟨Nat.toDigits 10 whole, [], digits_toDigits _, Nat.toDigits_ne_nil, by simp [Digits], ?_, ?_⟩
    · simp [h0, fractionText]
    · simp [h0, Nat.ofDigitChars_toDigits]
  · refine ⟨Nat.toDigits 10 (whole / 10 ^ down), trimZeros (padded down (whole % 10 ^ down)),
      digits_toDigits _, Nat.toDigits_ne_nil, digits_trimZeros (digits_padded _ _), ?_, ?_⟩
    · simp [h0.ne', fractionText]
    · have hfraction := trimZeros_padded h0 (Nat.mod_lt whole (by positivity : 0 < 10 ^ down))
      have hsplit : (whole : ℚ) = 10 ^ down * (whole / 10 ^ down : Nat) + (whole % 10 ^ down : Nat) := by
        exact_mod_cast (Nat.div_add_mod whole (10 ^ down)).symm
      rw [Nat.ofDigitChars_append, Nat.ofDigitChars_toDigits (by decide) (by decide),
        Nat.ofDigitChars_eq_ofDigitChars_zero, div_eq_div_iff (by positivity) (by positivity)]
      push_cast at hfraction hsplit ⊢
      linear_combination hfraction - (10 ^ (trimZeros (padded down (whole % 10 ^ down))).length : ℚ) * hsplit

end Decimal

/-! ## The text of a number -/

namespace Number

/-- `text` writes a numeral that is read as `x`. -/
def Reads (text : List Char) (x : Float) : Prop :=
  ∃ ds fraction, Digits ds ∧ ds ≠ [] ∧ Digits fraction ∧ text = ds ++ fractionText fraction ∧
    Float.ofScientific (Nat.ofDigitChars 10 (ds ++ fraction) 0) true fraction.length = x

theorem whole?_eq_some {m n : Nat} {e : Int} (h : whole? m e = some n) : (n : ℚ) = m * 2 ^ e := by
  have hp : ∀ k, Nat.pow 2 k = 2 ^ k := fun _ => rfl
  simp only [whole?, hp] at h
  split at h
  · next hm =>
    obtain rfl : m / 2 ^ (-e).toNat * 2 ^ e.toNat = n := by simpa using h
    obtain ⟨k, hk⟩ := Nat.dvd_of_mod_eq_zero hm
    have hz := zpow_toNat 2 (by norm_num) e
    have hdiv : m / 2 ^ (-e).toNat = k := by
      rw [hk, Nat.mul_div_cancel_left _ (Nat.two_pow_pos _)]
    rw [hdiv, hk]
    push_cast
    rw [← hz]
    ring
  · nomatch h

theorem reads_toDigits {x : Float} {n : Nat} (h : Float.ofScientific n true 0 = x) :
    Reads (Nat.toDigits 10 n) x := by
  refine ⟨Nat.toDigits 10 n, [], digits_toDigits n, Nat.toDigits_ne_nil, by simp [Digits], ?_, ?_⟩
  · simp [fractionText]
  · simpa [Nat.ofDigitChars_toDigits] using h

variable {x : Float} {m : Nat} {e : Int}

theorem ofScientific_whole {n : Nat} (hx : Parts.ofFloat x = .finite false m e) (hn : (n : ℚ) = m * 2 ^ e) :
    Float.ofScientific n true 0 = x := by
  rcases Nat.eq_zero_or_pos m with rfl | hm
  · obtain rfl : n = 0 := by simpa using hn
    obtain rfl := Parts.exponent_of_zero hx
    exact Parts.eq_of_finite (by decide +kernel) hx
  · refine ofScientific_eq hx hm ?_
    rw [pow_zero, div_one, hn]
    exact rounds_self m e

/-- The shortest decimal of a number is read as the number. -/
theorem reads_positional (hx : Parts.ofFloat x = .finite false m e) (hm : 0 < m) :
    Reads (Decimal.shortest m e).positional x := by
  obtain ⟨ds, fraction, hd, hne, hf, htext, hvalue⟩ := (Decimal.shortest m e).positional_eq
  refine ⟨ds, fraction, hd, hne, hf, htext, ofScientific_eq hx hm ?_⟩
  rw [hvalue]
  exact Decimal.rounds_shortest (Parts.canonical_of_finite hx hm)

/-- The text of a finite number that is not negative is read as the number. -/
theorem reads_text (hx : Parts.ofFloat x = .finite false m e) : Reads (text x).toList x := by
  have hten : Nat.pow 10 16 = 10 ^ 16 := rfl
  have hsigned : 0 < m → Reads (signedText x).toList x := by
    intro hm
    have : signedText x = String.ofList (Decimal.shortest m e).positional := by simp [signedText, hx, signed]
    rw [this, String.toList_ofList]
    exact reads_positional hx hm
  simp only [text, hx, hten]
  split
  · next n hn =>
    have hvalue := whole?_eq_some hn
    split
    · rw [Bool.false_and, signed, if_neg (by decide), String.toList_ofList]
      exact reads_toDigits (ofScientific_whole hx hvalue)
    · refine hsigned (Nat.pos_of_ne_zero ?_)
      rintro rfl
      simp_all
  · next hn =>
    refine hsigned (Nat.pos_of_ne_zero ?_)
    rintro rfl
    simp [whole?] at hn

end Number

end DocScript
