import DocScript.Proofs.Token.Literals
import DocScript.Proofs.Token.Lossless

/-!
# The characters that errors name

A character that starts no lexeme is an error that names the character, and it stands where the token starts
(`Lexeme.eq_of_unexpected`). In a string literal that is closed, the first backslash with no known letter behind
it makes the whole literal an error. That error does not name the character behind the backslash, but its first
byte, read as a character of its own. For ASCII that is the same, and for one other character
(`Lexeme.leadByte_eq_self_iff`).
-/

namespace DocScript

open String (utf8EncodeChar)
open Lexeme

/-! ## Where tokens are read -/

theorem isMark_of_mem_marksAt {l : Layout} {entered : Option Leading} {atEnd : Bool} {p : Pos} {next : List Char}
    {x : Token × Layout} (h : x ∈ marksAt p next (l.enter entered atEnd).1) : x.1.kind.isMark = true := by
  obtain ⟨y, hy, rfl⟩ := List.mem_map.1 h
  rw [Token.kind_ofMark]
  exact l.isMark_enter entered atEnd y hy

/-- A token that is no mark is what is read from the text behind some front of it, and it starts there. -/
theorem exists_of_mem_traceFrom (cs : List Char) (l : Layout) (front : List Char) {x : Token × Layout}
    (hx : x ∈ traceFrom (Segmentation.ofText cs).last l (Pos.start.advance front) (Segmentation.ofText cs).segments)
    (hk : x.1.kind.isMark = false) :
    ∃ before c rest, front ++ cs = before ++ c :: rest ∧ x.1 = .ofLexeme (Pos.start.advance before) (scan c rest).1 := by
  fun_induction Segmentation.ofText cs generalizing l front with
  | case1 cs trivia h =>
    -- behind the last lexeme there are only marks
    rw [traceFrom, List.mem_append, List.mem_singleton] at hx
    rcases hx with hmark | rfl
    · rw [isMark_of_mem_marksAt hmark] at hk
      contradiction
    · contradiction
  | case2 cs trivia c rest h ih =>
    have hcs : trivia.text ++ c :: rest = cs := by
      have hsplit := Trivia.skip_split cs
      rwa [h] at hsplit
    obtain ⟨more, htext, hmore⟩ := scan_split c rest
    rw [Segmentation.cons, traceFrom, List.mem_append, List.mem_cons, ← Pos.advance_append] at hx
    rcases hx with hmark | rfl | hx
    · rw [isMark_of_mem_marksAt hmark] at hk
      contradiction
    · exact ⟨front ++ trivia.text, c, rest, by rw [← hcs, List.append_assoc], rfl⟩
    · rw [← Pos.advance_append] at hx
      obtain ⟨before, d, behind, htail, htoken⟩ := ih _ _ hx
      refine ⟨before, d, behind, ?_, htoken⟩
      rw [← htail, htext, ← hcs, List.append_assoc, List.append_assoc, List.cons_append, hmore]

/-- Every token that is no mark is what is read at the place where it starts. -/
theorem Source.exists_scan (s : Source) {t : Token} (ht : t ∈ s.tokens) (hk : t.kind.isMark = false) :
    ∃ front c rest, s.text.toList = front ++ c :: rest ∧ t = .ofLexeme (Pos.start.advance front) (scan c rest).1 := by
  obtain ⟨x, hx, rfl⟩ := List.mem_map.1 ht
  exact exists_of_mem_traceFrom s.text.toList .start [] hx hk

namespace Lexeme

/-! ## Unexpected characters -/

theorem decimal_ne_unexpected (c d : Char) (cs : List Char) :
    (decimal c cs).1.kind ≠ .error (.unexpectedCharacter d) := by
  simp only [decimal, decimalKind]
  split
  · simp
  · split <;> simp

theorem radixKind_ne_unexpected (radix : Nat) (d : Char) (ds : List Char) :
    radixKind radix ds ≠ .error (.unexpectedCharacter d) := by
  unfold radixKind
  split
  · simp
  · split
    · simp
    · dsimp only
      split <;> simp

theorem number_ne_unexpected (c d : Char) (cs : List Char) :
    (number c cs).1.kind ≠ .error (.unexpectedCharacter d) := by
  unfold number
  split
  · exact decimal_ne_unexpected c d _
  · split
    · split
      · exact radixKind_ne_unexpected _ d _
      · exact decimal_ne_unexpected c d _
    · exact decimal_ne_unexpected c d _

theorem single_of_unexpected {c d : Char} (h : (single c).kind = .error (.unexpectedCharacter d)) : d = c := by
  unfold single at h
  split at h
  · contradiction
  · cases h
    rfl

/-- An unexpected character is the one that the lexeme starts with. -/
theorem eq_of_unexpected {c d : Char} {cs : List Char} (h : (scan c cs).1.kind = .error (.unexpectedCharacter d)) :
    d = c := by
  unfold scan at h
  split at h
  · simp only [string, StringBody.kind] at h
    split at h
    · split at h <;> cases h
    · cases h
  split at h
  · exact absurd h (number_ne_unexpected c d cs)
  split at h
  · simp only [word, wordKind] at h
    split at h <;> contradiction
  · unfold symbol at h
    split at h
    · exact single_of_unexpected h
    · split at h
      · contradiction
      · exact single_of_unexpected h

/-! ## Bad escapes -/

theorem escaped?_eq_none_iff {l : Char} : Quoted.escaped? l = none ↔ l ∉ ['n', 'r', 't', 'b', '\\', '"'] := by
  unfold Quoted.escaped?
  split_ifs <;> simp_all

/-- Of the characters that are not ASCII, only one has its own code for its first byte. -/
theorem leadByte_eq_self_iff (l : Char) : leadByte l = l ↔ l.toNat < 128 ∨ l = 'Ã' := by
  have hl : l = 'Ã' ↔ l.toNat = 195 := ⟨fun h => by rw [h]; rfl, fun h => by rw [← Char.ofNat_toNat l, h]⟩
  obtain ⟨u, us, hu⟩ := List.exists_cons_of_ne_nil (String.utf8EncodeChar_ne_nil (c := l))
  have hlead : leadByte l = l ↔ u.toNat = l.toNat := by
    simp only [leadByte, hu]
    constructor
    · intro h
      rw [← h, Char.toNat_ofNat, if_pos (.inl (Nat.lt_trans u.toNat_lt (by decide)))]
    · intro h
      rw [h, Char.ofNat_toNat]
  rw [hlead, hl]
  have hmax : l.val.toNat < 0x110000 := by
    have hvalid := l.valid
    simp only [UInt32.isValidChar, Nat.isValidChar] at hvalid
    omega
  have hval : l.toNat = l.val.toNat := rfl
  rw [hval]
  -- two bytes begin with `v / 64 + 192`, and the first of three or four bytes is less than the code
  simp only [utf8EncodeChar] at hu
  generalize l.val.toNat = v at hu hmax ⊢
  split_ifs at hu with h₁ h₂ <;> obtain ⟨rfl, -⟩ := List.cons.inj hu <;> rw [UInt8.toNat_ofNat']
  · omega
  · have hfirst : (v / 64 % 32 + 192) % 2 ^ 8 = v / 64 + 192 := by
      rw [Nat.mod_eq_of_lt (by omega : v / 64 < 32), Nat.mod_eq_of_lt (by omega)]
    rw [hfirst]
    omega
  · omega
  · omega

/-- The first escape that is not known makes the literal an error. -/
theorem scan_badEscape {front : List StringItem} {l : Char} (hfront : ∀ x ∈ front, x.badLetter? = none)
    (hl : Quoted.escaped? l = none) (back : List StringItem) (rest : List Char) :
    scan '"' ((front ++ .escape l :: back).flatMap StringItem.spelling ++ '"' :: rest) =
      (⟨.error (.invalidEscape (leadByte l)),
        '"' :: ((front ++ .escape l :: back).flatMap StringItem.spelling ++ ['"'])⟩, rest) := by
  have hfirst : (front ++ .escape l :: back).findSome? StringItem.badLetter? = some l := by
    rw [List.findSome?_append, List.findSome?_eq_none_iff.2 hfront, Option.none_or, List.findSome?_cons,
      StringItem.badLetter?, if_pos hl]
  rw [scan, if_pos rfl, string, stringBody_items, hfirst]
  rfl

/-- Escapes with known letters are not bad. -/
theorem badLetter?_eq_none {x : StringItem} (h : ∀ l, x = .escape l → l ∈ ['n', 'r', 't', 'b', '\\', '"']) :
    x.badLetter? = none := by
  cases x with
  | plain => rfl
  | escape l =>
    rw [StringItem.badLetter?, if_neg]
    exact fun hnone => escaped?_eq_none_iff.1 hnone (h l rfl)

theorem closed_of_ne_unterminated {cs : List Char} (h : (scan '"' cs).1.kind ≠ .error .unterminatedString) :
    (stringBody cs).1.closed = true := by
  by_contra hopen
  refine h ?_
  rw [scan, if_pos rfl, string]
  simp [StringBody.kind, hopen]

end Lexeme

/-- In every script an unexpected character is the one at the place of its token. Every string literal that is
closed consists of items, and if one of its escapes is not known, it is an error, which is about the first such
escape. The error names the first byte of the character behind the backslash; so it names that character if it is
ASCII, and in one other case. -/
theorem errors_name_characters (s : Source) (cs : List Char) :
    (∀ (t : Token) (c : Char), t ∈ s.tokens → t.kind = .error (.unexpectedCharacter c) →
      ∃ front rest, s.text.toList = front ++ c :: rest ∧ t.span.start = Pos.start.advance front) ∧
    ((scan '"' cs).1.kind ≠ .error .unterminatedString →
      ∃ (items : List StringItem) (rest : List Char), cs = items.flatMap StringItem.spelling ++ '"' :: rest) ∧
    ∀ (front back : List StringItem) (l : Char) (rest : List Char),
      cs = (front ++ .escape l :: back).flatMap StringItem.spelling ++ '"' :: rest →
      (∀ x ∈ front, ∀ l', x = .escape l' → l' ∈ ['n', 'r', 't', 'b', '\\', '"']) →
      l ∉ ['n', 'r', 't', 'b', '\\', '"'] →
      scan '"' cs = (⟨.error (.invalidEscape (leadByte l)),
          '"' :: ((front ++ .escape l :: back).flatMap StringItem.spelling ++ ['"'])⟩, rest) ∧
        ((scan '"' cs).1.kind = .error (.invalidEscape l) ↔ l.toNat < 128 ∨ l = 'Ã') := by
  refine ⟨fun t c ht hkind => ?_, fun h => exists_items cs (closed_of_ne_unterminated h),
    fun front back l rest hcs hfront hl => ?_⟩
  · obtain ⟨front, d, rest, htext, rfl⟩ := s.exists_scan ht (by rw [hkind]; rfl)
    obtain rfl := eq_of_unexpected hkind
    exact ⟨front, rest, htext, rfl⟩
  · subst hcs
    have hscan := scan_badEscape (fun x hx => badLetter?_eq_none (hfront x hx)) (escaped?_eq_none_iff.2 hl) back rest
    refine ⟨hscan, ?_⟩
    rw [hscan, ← leadByte_eq_self_iff]
    simp

/-- A character of three bytes that starts no lexeme is named, and, behind a known escape, the first of two that
are not known. -/
theorem errors_name_characters_first :
    let s : Source := ⟨"main", .ofList ['€']⟩
    let cs := ['\\', '\\', '\\', 'q', '\\', '€', '"']
    (∃ t ∈ s.tokens, t.kind = .error (.unexpectedCharacter '€') ∧
      ∃ front rest, s.text.toList = front ++ '€' :: rest ∧ t.span.start = Pos.start.advance front) ∧
    (scan '"' cs).1.kind = .error (.invalidEscape 'q') := by
  intro s cs
  obtain ⟨hunexpected, -, hescape⟩ := errors_name_characters s cs
  have hsegments : Segmentation.ofText s.text.toList =
      ⟨[⟨.empty, ⟨.error (.unexpectedCharacter '€'), ['€']⟩⟩], .empty⟩ := by
    rw [String.toList_ofList, Segmentation.ofText_of_lexeme rfl, show (scan '€' []).2 = [] from rfl,
      Segmentation.ofText_of_end rfl]
    rfl
  obtain ⟨t, ht, hkind⟩ : ∃ t ∈ s.tokens, t.kind = .error (.unexpectedCharacter '€') := by
    rw [Source.tokens, Source.trace, hsegments]
    exact ⟨_, List.mem_cons_self, rfl⟩
  refine ⟨⟨t, ht, hkind, hunexpected t '€' ht hkind⟩, ?_⟩
  exact (hescape [.escape '\\'] [.escape '€'] 'q' [] rfl (by simp) (by decide)).2.2 (.inl (by decide))

/-- The character behind the backslash is not named, if it is not ASCII. -/
theorem escape_misnamed : ¬∀ (front back : List StringItem) (l : Char) (rest : List Char),
    (∀ x ∈ front, ∀ l', x = .escape l' → l' ∈ ['n', 'r', 't', 'b', '\\', '"']) →
    l ∉ ['n', 'r', 't', 'b', '\\', '"'] →
    (scan '"' ((front ++ .escape l :: back).flatMap StringItem.spelling ++ '"' :: rest)).1.kind =
      .error (.invalidEscape l) := by
  intro h
  have hkind := h [] [] 'é' [] (by simp) (by decide)
  rw [scan_badEscape (by simp) (by decide)] at hkind
  have hlead : leadByte 'é' = 'é' := by simpa using hkind
  exact absurd hlead (by decide)

end DocScript
