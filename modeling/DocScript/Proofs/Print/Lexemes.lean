import DocScript.Proofs.Print.Outline

/-!
# Lexemes in printed text

Each kind of lexeme that a printer writes is read back as itself : names, reserved words, numbers, string
literals and symbols. Names, reserved words and numbers need something behind them that does not go on with
them; a string literal is closed by its quote.
-/

namespace DocScript

namespace Lexeme

variable {c : Char} {cs rest : List Char}

/-! ## Words -/

theorem isNameStart_not_quote (h : isNameStart c = true) : c ≠ '"' := by
  rintro rfl
  exact absurd h (by decide)

theorem isNameStart_not_digit (h : isNameStart c = true) : c.isDigit = false := by
  by_contra hd
  have ha := isAlpha_of_isDigit (by simpa using hd)
  rw [isNameStart, ha, Bool.false_or, beq_iff_eq] at h
  subst h
  exact hd (by decide)

/-- A word is read up to its end. -/
theorem scan_word (hc : isNameStart c = true) (hcs : ∀ d ∈ cs, isNameChar d = true) (hb : Breaks rest) :
    scan c (cs ++ rest) = (⟨wordKind (c :: cs), c :: cs⟩, rest) := by
  have hrest : ∀ d ∈ rest.head?, ¬ isNameChar d = true := fun d hd => by simp [(hb.char hd).1]
  have htake : (cs ++ rest).takeWhile isNameChar = cs := by
    rw [List.takeWhile_append_of_pos hcs]
    cases rest with
    | nil => simp
    | cons d rest => simp [hrest d rfl]
  have hdrop : (cs ++ rest).dropWhile isNameChar = rest := by
    rw [List.dropWhile_append_of_pos hcs]
    cases rest with
    | nil => simp
    | cons d rest => simp [hrest d rfl]
  rw [scan, if_neg (isNameStart_not_quote hc), if_neg (by simp [isNameStart_not_digit hc]), if_pos hc, word,
    htake, hdrop]

theorem visible_of_isNameChar (h : isNameChar c = true) (cs : List Char) : Visible c cs := by
  refine ⟨?_, ?_, ?_, ?_, ?_⟩ <;> rintro rfl <;> exact absurd h (by decide)

theorem isNameChar_of_isNameStart (h : isNameStart c = true) : isNameChar c = true := by
  rw [isNameStart, Bool.or_eq_true] at h
  rw [isNameChar, Char.isAlphanum]
  rcases h with h | h <;> simp [h]

/-- Whether the text is read as one word. -/
def isWord (text : String) : Bool :=
  match text.toList with
  | [] => false
  | c :: cs => isNameStart c && cs.all isNameChar

/-- Whether the text is read as a name. -/
def isName (text : String) : Bool := isWord text && (Keyword.ofText? text).isNone

theorem spells_word {text : String} (h : isWord text = true) :
    Spells text [.word (wordKind text.toList)] := by
  intro rest hr
  unfold isWord at h
  split at h
  · nomatch h
  · next c cs heq =>
    rw [Bool.and_eq_true, List.all_eq_true] at h
    rw [heq, List.cons_append, outline_word (visible_of_isNameChar (isNameChar_of_isNameStart h.1) _),
      scan_word h.1 h.2 hr]
    rfl

theorem spells_name {name : String} (h : isName name = true) : Spells name [.word (.identifier name)] := by
  rw [isName, Bool.and_eq_true, Option.isNone_iff_eq_none] at h
  have hk : wordKind name.toList = .identifier name := by simp [wordKind, h.2]
  exact hk ▸ spells_word h.1

theorem spells_keyword (k : Keyword) : Spells k.text [.word (.keyword k)] := by
  have hw : isWord k.text = true := by cases k <;> decide
  have hk : wordKind k.text.toList = .keyword k := by cases k <;> decide
  exact hk ▸ spells_word hw

/-! ## Literals -/

theorem escaped?_letter? {c l : Char} (h : Quoted.letter? c = some l) : Quoted.escaped? l = some c := by
  unfold Quoted.letter? at h
  split_ifs at h <;> cases h <;> subst_vars <;> decide

/-- An encoded character is read as the character. -/
theorem stringBody_encodeChar (c : Char) (cs : List Char) :
    (stringBody (Quoted.encodeChar c ++ cs)).1.value = c :: (stringBody cs).1.value ∧
      (stringBody (Quoted.encodeChar c ++ cs)).1.badEscape = (stringBody cs).1.badEscape ∧
      (stringBody (Quoted.encodeChar c ++ cs)).1.closed = (stringBody cs).1.closed ∧
      (stringBody (Quoted.encodeChar c ++ cs)).2 = (stringBody cs).2 := by
  unfold Quoted.encodeChar
  split
  · next l hl => simp [stringBody, escaped?_letter? hl]
  · next hl =>
    have hq : c ≠ '"' := by rintro rfl; exact absurd hl (by decide)
    have hs : c ≠ '\\' := by rintro rfl; exact absurd hl (by decide)
    rw [List.singleton_append, stringBody.eq_def]
    simp [hq, hs]

/-- What stands between the quotes is read as what was encoded. -/
theorem stringBody_encode (cs rest : List Char) :
    (stringBody (cs.flatMap Quoted.encodeChar ++ '"' :: rest)).1.value = cs ∧
      (stringBody (cs.flatMap Quoted.encodeChar ++ '"' :: rest)).1.badEscape = none ∧
      (stringBody (cs.flatMap Quoted.encodeChar ++ '"' :: rest)).1.closed = true ∧
      (stringBody (cs.flatMap Quoted.encodeChar ++ '"' :: rest)).2 = rest := by
  induction cs with
  | nil =>
    rw [List.flatMap_nil, List.nil_append, stringBody.eq_def]
    simp
  | cons c cs ih =>
    obtain ⟨h₁, h₂, h₃, h₄⟩ := stringBody_encodeChar c (cs.flatMap Quoted.encodeChar ++ '"' :: rest)
    rw [List.flatMap_cons, List.append_assoc, h₁, h₂, h₃, h₄, ih.1]
    exact ⟨rfl, ih.2⟩

theorem stands_quote (s : String) : Stands (Quoted.quote s) [.word (.string s)] := by
  intro rest
  obtain ⟨hv, hb, hc, hr⟩ := stringBody_encode s.toList rest
  have htext : (Quoted.quote s).toList ++ rest = '"' :: (s.toList.flatMap Quoted.encodeChar ++ '"' :: rest) := by
    simp [Quoted.quote, Quoted.encode]
  rw [htext, outline_word (by simp [Visible]), scan, if_pos rfl]
  simp [string, StringBody.kind, hv, hb, hc, hr]

theorem spells_number {x : Float} {m : Nat} {e : Int} (hx : Parts.ofFloat x = .finite false m e) :
    Spells (Number.text x) [.word (.number x)] := by
  intro rest hr
  obtain ⟨ds, fraction, hd, hne, hf, htext, hvalue⟩ := Number.reads_text hx
  obtain ⟨d, ds, rfl⟩ := List.exists_cons_of_ne_nil hne
  have hname : isNameChar d = true := isNameChar_of_isDigit (hd d (by simp))
  rw [htext, List.append_assoc, List.cons_append, outline_word (visible_of_isNameChar hname _),
    scan_numeral hd hf hr, hvalue]
  rfl

/-! ## Symbols -/

theorem symbol2?_breaks (c : Char) {d : Char} (h : Breaks (d :: rest)) : symbol2? c d = none := by
  obtain ⟨-, -, h₁, h₂, h₃, -⟩ := h.char rfl
  simp [symbol2?, h₁, h₂, h₃]

/-- A character that starts a symbol of two characters. -/
def startsPair (c : Char) : Bool := c = '-' ∨ c = '*' ∨ c = '=' ∨ c = '!' ∨ c = '<' ∨ c = '>'

theorem symbol2?_eq_none (h : startsPair c = false) (d : Char) : symbol2? c d = none := by
  simp only [startsPair, decide_eq_false_iff_not, not_or] at h
  simp [symbol2?, h]

theorem symbol_eq_single (h : ∀ d ∈ rest.head?, symbol2? c d = none) : symbol c rest = (single c, rest) := by
  cases rest with
  | nil => rfl
  | cons d ds => simp [symbol, h d rfl]

/-- A character that is read as the start of a symbol, unless it starts a comment. -/
def opensSymbol (c : Char) : Bool :=
  c ≠ '\n' ∧ c ≠ ' ' ∧ c ≠ '\t' ∧ c ≠ '\r' ∧ c ≠ '"' ∧ c.isDigit = false ∧ isNameStart c = false

theorem outline_of_opensSymbol (hc : opensSymbol c = true) (h : c = '/' → rest.head? ≠ some '/') :
    outline (c :: rest) = .word (symbol c rest).1.kind :: outline (symbol c rest).2 := by
  simp only [opensSymbol, decide_eq_true_eq] at hc
  obtain ⟨h₁, h₂, h₃, h₄, h₅, h₆, h₇⟩ := hc
  rw [outline_word ⟨h₁, h₂, h₃, h₄, h⟩, scan, if_neg h₅, if_neg (by simp [h₆]), if_neg (by simp [h₇])]

/-- Whether the characters make the symbol, alone or as a pair. -/
def makes (s : Symbol) : List Char → Bool
  | [c] => opensSymbol c && symbol1? c = some s
  | [c, d] => opensSymbol c && c != '/' && symbol2? c d = some s
  | _ => false

/-- Every symbol is read from its text, unless what follows goes on with it. -/
theorem spells_symbol (s : Symbol) : Spells s.text [.word (.symbol s)] := by
  intro rest hr
  have hm : makes s s.text.toList = true := by cases s <;> decide
  unfold makes at hm
  split at hm
  · next c heq =>
    rw [Bool.and_eq_true, decide_eq_true_eq] at hm
    have hsingle : symbol c rest = (single c, rest) := by
      apply symbol_eq_single
      intro d hd
      cases rest with
      | nil => nomatch hd
      | cons d' ds =>
        obtain rfl : d' = d := by simpa using hd
        exact symbol2?_breaks c hr
    rw [heq, List.singleton_append, outline_of_opensSymbol hm.1 fun _ h => (hr.char h).2.2.2.2.2 rfl,
      hsingle, single, hm.2]
    rfl
  · next c d heq =>
    simp only [Bool.and_eq_true, bne_iff_ne, decide_eq_true_eq] at hm
    rw [heq, List.cons_append, List.singleton_append, outline_of_opensSymbol hm.1.1 fun h => absurd h hm.1.2,
      symbol, hm.2]
    rfl
  · nomatch hm

/-- A character that is a symbol by itself, whatever follows it. -/
def isAlone (c : Char) (s : Symbol) : Bool := makes s [c] && !startsPair c && c != '/'

theorem outline_alone {s : Symbol} (h : isAlone c s = true) (rest : List Char) :
    outline (c :: rest) = .word (.symbol s) :: outline rest := by
  simp only [isAlone, makes, Bool.and_eq_true, Bool.not_eq_true', bne_iff_ne, decide_eq_true_eq] at h
  obtain ⟨⟨⟨ho, hs⟩, hp⟩, hslash⟩ := h
  rw [outline_of_opensSymbol ho fun he => absurd he hslash,
    symbol_eq_single fun d _ => symbol2?_eq_none hp d, single, hs]

/-- A bracket, a comma and their like are read as such whatever follows. -/
theorem stands_symbol {text : String} {s : Symbol} (ht : text.toList = [c]) (h : isAlone c s = true) :
    Stands text [.word (.symbol s)] := by
  intro rest
  rw [ht]
  exact outline_alone h rest

theorem stands_symbolSpace {text : String} {s : Symbol} (ht : text.toList = [c, ' ']) (h : isAlone c s = true) :
    Stands text [.word (.symbol s)] := by
  intro rest
  rw [ht, List.cons_append, outline_alone h, List.cons_append, List.nil_append, outline_space]
  rfl

theorem stands_space : Stands " " [] := fun rest => outline_space rest

end Lexeme

end DocScript
