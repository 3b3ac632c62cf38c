import DocScript.Proofs.Print.Lexemes
import DocScript.Proofs.Text.Bytes

/-!
# String literals

A string literal is a sequence of items between two quotes : a character that stands for itself, or a backslash
with the character behind it, whatever that is. So a backslash never hides the one behind it, and the quote that
closes a literal is the first one that belongs to no item. `stringBody_items` is what is read from a sequence of
items, and every literal that is closed is one (`exists_items`).

The bytes of a text can be read one by one as well. All bytes of a character that is not ASCII are at least 128, so
none of them is taken for a quote, a backslash or a letter behind one, and reading bytes gives what reading
characters gives (`stringBytes_encode`) : the same end, the same first bad escape, known by its first byte, and if
there is none, the encoding of the same value.
-/

namespace DocScript

open String (utf8EncodeChar)

/-! ## The bytes of a character -/

theorem utf8EncodeChar_of_lt {c : Char} (h : c.toNat < 128) : utf8EncodeChar c = [c.toUInt8] := by
  have h' : c.val.toNat ≤ 127 := Nat.le_of_lt_succ h
  simp only [utf8EncodeChar, if_pos h']
  rfl

/-- A character that is not ASCII has no byte in common with those that are. -/
theorem le_of_mem_utf8EncodeChar {c : Char} (h : 128 ≤ c.toNat) : ∀ b ∈ utf8EncodeChar c, 128 ≤ b.toNat := by
  have h' : ¬c.val.toNat ≤ 127 := Nat.not_le.2 h
  simp only [utf8EncodeChar, if_neg h']
  generalize c.val.toNat = n
  split_ifs <;> simp only [List.forall_mem_cons, List.not_mem_nil, false_imp_iff, implies_true, and_true,
    UInt8.toNat_ofNat'] <;> omega

/-- An encoded text is decoded to the text. -/
theorem fromUTF8?_encode (cs : List Char) :
    String.fromUTF8? (cs.flatMap utf8EncodeChar).toByteArray = some (String.ofList cs) := by
  have hbytes : (cs.flatMap utf8EncodeChar).toByteArray = (String.ofList cs).toByteArray :=
    String.toByteArray_ofList.symm
  rw [hbytes, String.fromUTF8?, dif_pos (String.ofList cs).isValidUTF8]
  rfl

namespace Lexeme

/-! ## Items -/

/-- A part of a string literal : a character that stands for itself, or a backslash with the character behind it. -/
inductive StringItem where
  | plain (c : Char) (notQuote : c ≠ '"') (notBackslash : c ≠ '\\')
  | escape (letter : Char)

namespace StringItem

/-- How the item is written. -/
def spelling : StringItem → List Char
  | plain c _ _ => [c]
  | escape l => ['\\', l]

/-- The character that the item stands for. -/
def value? : StringItem → Option Char
  | plain c _ _ => some c
  | escape l => Quoted.escaped? l

/-- What stands behind the backslash of an item that stands for nothing. -/
def badLetter? : StringItem → Option Char
  | plain _ _ _ => none
  | escape l => if Quoted.escaped? l = none then some l else none

end StringItem

open StringItem

/-- What is read from items with a quote behind them. -/
theorem stringBody_items (xs : List StringItem) (rest : List Char) :
    stringBody (xs.flatMap spelling ++ '"' :: rest) =
      (⟨xs.filterMap value?, (xs.findSome? badLetter?).map leadByte, true, xs.flatMap spelling ++ ['"']⟩, rest) := by
  induction xs with
  | nil =>
    rw [List.flatMap_nil, List.nil_append, stringBody.eq_def]
    simp
  | cons x xs ih =>
    rw [List.flatMap_cons, List.append_assoc]
    cases x with
    | plain c hq hs =>
      rw [spelling, List.singleton_append, stringBody.eq_def]
      simp [hq, hs, ih, value?, List.findSome?_cons, badLetter?]
    | escape l =>
      rw [spelling, List.cons_append, List.singleton_append, stringBody.eq_def]
      cases hl : Quoted.escaped? l <;> simp [ih, hl, value?, badLetter?]

/-- A literal that is closed consists of items. -/
theorem exists_items (cs : List Char) (h : (stringBody cs).1.closed = true) :
    ∃ (xs : List StringItem) (rest : List Char), cs = xs.flatMap spelling ++ '"' :: rest := by
  fun_induction stringBody cs with
  | case1 => contradiction
  | case2 cs => exact ⟨[], cs, rfl⟩
  | case3 => contradiction
  | case4 l cs b rest hb _ _ _ ih | case5 l cs b rest hb _ _ ih =>
    obtain ⟨xs, rest, hcs⟩ := ih (by rw [hb]; exact h)
    exact ⟨.escape l :: xs, rest, by rw [hcs]; rfl⟩
  | case6 c cs hq hs b rest hb ih =>
    obtain ⟨xs, rest, hcs⟩ := ih (by rw [hb]; exact h)
    exact ⟨.plain c hq hs :: xs, rest, by rw [hcs]; rfl⟩

/-! ## Reading bytes -/

/-- What follows the byte of an opening quote, up to the closing one or the end of the text. -/
structure StringBytes where
  /-- The bytes that were collected. -/
  value : List UInt8
  /-- What stood behind the first backslash that starts no escape. -/
  badEscape : Option UInt8
  closed : Bool
  text : List UInt8

/-- The byte that the letter `b` stands for after a backslash. -/
def escapedByte? (b : UInt8) : Option UInt8 := (Quoted.escaped? (.ofNat b.toNat)).map Char.toUInt8

/-- Reads the bytes of a string literal behind its opening quote, one at a time. -/
def stringBytes : List UInt8 → StringBytes × List UInt8
  | [] => (⟨[], none, false, []⟩, [])
  | b :: bs =>
    if b = '"'.toUInt8 then (⟨[], none, true, [b]⟩, bs)
    else if b = '\\'.toUInt8 then
      match bs with
      | [] => (⟨[], none, false, [b]⟩, [])
      | l :: bs =>
        let (r, rest) := stringBytes bs
        match escapedByte? l with
        | some e => ({ r with value := e :: r.value, text := b :: l :: r.text }, rest)
        | none => ({ r with badEscape := some l, text := b :: l :: r.text }, rest)
    else
      let (r, rest) := stringBytes bs
      ({ r with value := b :: r.value, text := b :: r.text }, rest)

/-- Bytes other than those of a quote and a backslash are collected. -/
theorem stringBytes_append {us : List UInt8} (h : ∀ b ∈ us, b ≠ '"'.toUInt8 ∧ b ≠ '\\'.toUInt8) (bs : List UInt8) :
    stringBytes (us ++ bs) = ({ (stringBytes bs).1 with
      value := us ++ (stringBytes bs).1.value, text := us ++ (stringBytes bs).1.text }, (stringBytes bs).2) := by
  induction us with
  | nil => rfl
  | cons u us ih =>
    obtain ⟨⟨hq, hs⟩, hus⟩ := List.forall_mem_cons.1 h
    rw [List.cons_append, stringBytes.eq_def]
    simp [hq, hs, ih hus]

/-- The letters of escapes and what they stand for are ASCII. -/
theorem lt_of_escaped? {l e : Char} (h : Quoted.escaped? l = some e) : l.toNat < 128 ∧ e.toNat < 128 := by
  unfold Quoted.escaped? at h
  split_ifs at h <;> cases h <;> subst_vars <;> decide

theorem ofNat_toNat_toUInt8 {c : Char} (h : c.toNat < 128) : Char.ofNat c.toUInt8.toNat = c := by
  have hbyte : c.toUInt8.toNat = c.toNat := Nat.mod_eq_of_lt (Nat.lt_trans h (by decide))
  rw [hbyte, Char.ofNat_toNat]

/-- Behind a backslash the first byte of a character decides, and the others are read like any text. -/
theorem encode_badLetter {l : Char} (h : Quoted.escaped? l = none) : ∃ u us, utf8EncodeChar l = u :: us ∧
    leadByte l = .ofNat u.toNat ∧ escapedByte? u = none ∧ ∀ b ∈ us, 128 ≤ b.toNat := by
  obtain ⟨u, us, hl⟩ := List.exists_cons_of_ne_nil (String.utf8EncodeChar_ne_nil (c := l))
  refine ⟨u, us, hl, by simp only [leadByte, hl], ?_⟩
  rcases Nat.lt_or_ge l.toNat 128 with hlt | hge
  · obtain ⟨rfl, rfl⟩ := List.cons.inj (hl.symm.trans (utf8EncodeChar_of_lt hlt))
    rw [escapedByte?, ofNat_toNat_toUInt8 hlt, h]
    exact ⟨rfl, by simp⟩
  · have hbytes := le_of_mem_utf8EncodeChar hge
    rw [hl, List.forall_mem_cons] at hbytes
    refine ⟨?_, hbytes.2⟩
    rw [escapedByte?, Option.map_eq_none_iff]
    by_contra hsome
    obtain ⟨e, he⟩ := Option.ne_none_iff_exists'.1 hsome
    have hlt := (lt_of_escaped? he).1
    rw [Char.toNat_ofNat, if_pos] at hlt
    · omega
    · have := u.toNat_lt
      exact .inl (by omega)

theorem stringBytes_quote (bs : List UInt8) :
    stringBytes ('"'.toUInt8 :: bs) = (⟨[], none, true, ['"'.toUInt8]⟩, bs) := by
  rw [stringBytes.eq_def]
  simp

theorem backslash_ne_quote : '\\'.toUInt8 ≠ '"'.toUInt8 := by decide

theorem stringBytes_escape {l e : UInt8} (h : escapedByte? l = some e) (bs : List UInt8) :
    stringBytes ('\\'.toUInt8 :: l :: bs) = ({ (stringBytes bs).1 with
      value := e :: (stringBytes bs).1.value, text := '\\'.toUInt8 :: l :: (stringBytes bs).1.text },
        (stringBytes bs).2) := by
  rw [stringBytes.eq_def]
  simp [h, backslash_ne_quote]

theorem stringBytes_badEscape {l : UInt8} (h : escapedByte? l = none) (bs : List UInt8) :
    stringBytes ('\\'.toUInt8 :: l :: bs) = ({ (stringBytes bs).1 with
      badEscape := some l, text := '\\'.toUInt8 :: l :: (stringBytes bs).1.text }, (stringBytes bs).2) := by
  rw [stringBytes.eq_def]
  simp [h, backslash_ne_quote]

/-- The bytes of a character are neither those of a quote nor those of a backslash, unless the character is one. -/
theorem ne_of_mem_utf8EncodeChar {c : Char} (hq : c ≠ '"') (hs : c ≠ '\\') :
    ∀ b ∈ utf8EncodeChar c, b ≠ '"'.toUInt8 ∧ b ≠ '\\'.toUInt8 := by
  intro b hb
  rcases Nat.lt_or_ge c.toNat 128 with hlt | hge
  · obtain rfl : b = c.toUInt8 := by simpa [utf8EncodeChar_of_lt hlt] using hb
    constructor
    · intro h
      exact hq (by rw [← ofNat_toNat_toUInt8 hlt, h]; rfl)
    · intro h
      exact hs (by rw [← ofNat_toNat_toUInt8 hlt, h]; rfl)
  · have hbyte := le_of_mem_utf8EncodeChar hge b hb
    constructor <;> rintro rfl <;> exact absurd hbyte (by decide)

/-- What was read from bytes is what was read from the characters that they encode. -/
structure StringBytes.Encodes (r : StringBytes) (b : StringBody) : Prop where
  closed : r.closed = b.closed
  text : r.text = b.text.flatMap utf8EncodeChar
  badEscape : r.badEscape.map (Char.ofNat ·.toNat) = b.badEscape
  value : b.badEscape = none → r.value = b.value.flatMap utf8EncodeChar

/-- Reading the bytes of a text gives what reading its characters gives. -/
theorem stringBytes_encode (cs : List Char) :
    (stringBytes (cs.flatMap utf8EncodeChar)).1.Encodes (stringBody cs).1 ∧
      (stringBytes (cs.flatMap utf8EncodeChar)).2 = (stringBody cs).2.flatMap utf8EncodeChar := by
  have hslash : utf8EncodeChar '\\' = ['\\'.toUInt8] := rfl
  fun_induction stringBody cs with
  | case1 => exact ⟨⟨rfl, rfl, rfl, fun _ => rfl⟩, rfl⟩
  | case2 cs =>
    have hquote : utf8EncodeChar '"' = ['"'.toUInt8] := rfl
    rw [List.flatMap_cons, hquote, List.singleton_append, stringBytes_quote]
    exact ⟨⟨rfl, rfl, rfl, fun _ => rfl⟩, rfl⟩
  | case3 => exact ⟨⟨rfl, rfl, rfl, fun _ => rfl⟩, rfl⟩
  | case4 l cs b rest hb e hl _ ih =>
    obtain ⟨hlt, he⟩ := lt_of_escaped? hl
    have hbyte : escapedByte? l.toUInt8 = some e.toUInt8 := by rw [escapedByte?, ofNat_toNat_toUInt8 hlt, hl]; rfl
    rw [hb] at ih
    simp only [List.flatMap_cons, hslash, utf8EncodeChar_of_lt hlt, List.singleton_append, stringBytes_escape hbyte]
    refine ⟨⟨ih.1.closed, ?_, ih.1.badEscape, fun hgood => ?_⟩, ih.2⟩
    · simp [hslash, utf8EncodeChar_of_lt hlt, ih.1.text]
    · simp [utf8EncodeChar_of_lt he, ih.1.value hgood]
  | case5 l cs b rest hb hl _ ih =>
    obtain ⟨u, us, hu, hlead, hbad, hus⟩ := encode_badLetter hl
    have hplain : ∀ b ∈ us, b ≠ '"'.toUInt8 ∧ b ≠ '\\'.toUInt8 := by
      intro b hb
      constructor <;> rintro rfl <;> exact absurd (hus _ hb) (by decide)
    rw [hb] at ih
    simp only [List.flatMap_cons, hslash, hu, List.cons_append, List.nil_append, stringBytes_badEscape hbad,
      stringBytes_append hplain]
    refine ⟨⟨ih.1.closed, ?_, ?_, fun hgood => ?_⟩, ih.2⟩
    · simp [hslash, hu, ih.1.text]
    · simp [hlead]
    · contradiction
  | case6 c cs hq hs b rest hb ih =>
    rw [hb] at ih
    simp only [List.flatMap_cons, stringBytes_append (ne_of_mem_utf8EncodeChar hq hs)]
    refine ⟨⟨ih.1.closed, ?_, ih.1.badEscape, fun hgood => ?_⟩, ih.2⟩
    · simp [ih.1.text]
    · simp [ih.1.value hgood]

/-! ## Written literals -/

/-- A string that was written as a literal is read from that literal alone, whatever follows. -/
theorem scan_quote (s : String) (rest : List Char) :
    ∃ cs, (Quoted.quote s).toList = '"' :: cs ∧
      scan '"' (cs ++ rest) = (⟨.string s, (Quoted.quote s).toList⟩, rest) := by
  obtain ⟨hvalue, hbad, hclosed, hrest⟩ := stringBody_encode s.toList rest
  have htext : (stringBody (s.toList.flatMap Quoted.encodeChar ++ '"' :: rest)).1.text =
      s.toList.flatMap Quoted.encodeChar ++ ['"'] := by
    have hsplit := stringBody_split (s.toList.flatMap Quoted.encodeChar ++ '"' :: rest)
    rw [hrest] at hsplit
    exact List.append_cancel_right (hsplit.trans (List.append_cons _ _ _))
  have hquote : (Quoted.quote s).toList = '"' :: (s.toList.flatMap Quoted.encodeChar ++ ['"']) := by
    simp [Quoted.quote, Quoted.encode]
  refine ⟨_, hquote, ?_⟩
  rw [scan, if_pos rfl, string, ← List.append_cons]
  simp [StringBody.kind, hvalue, hbad, hclosed, hrest, htext, hquote]

end Lexeme

open Lexeme

theorem Segmentation.ofText_quote (s : String) (rest : List Char) :
    ofText ((Quoted.quote s).toList ++ rest) =
      (ofText rest).cons ⟨.empty, ⟨.string s, (Quoted.quote s).toList⟩⟩ := by
  obtain ⟨cs, hquote, hscan⟩ := scan_quote s rest
  have hskip : Trivia.skip ('"' :: (cs ++ rest)) = (.empty, '"' :: (cs ++ rest)) := skip_visible (by simp [Visible])
  rw [hquote, List.cons_append, ofText_of_lexeme hskip, hscan, hquote]

/-- The first token of a text that starts with a literal. -/
theorem Source.tokens_quote (name s r : String) :
    ∃ ts, Source.tokens ⟨name, Quoted.quote s ++ r⟩ =
      ⟨.string s, ⟨.start, (Pos.start.advance (Quoted.quote s).toList).lastOf⟩, Quoted.quote s⟩ :: ts := by
  have hmarks : Layout.start.enter Trivia.empty.entered false = ([], .start) := rfl
  rw [Source.tokens, Source.trace, String.toList_append, Segmentation.ofText_quote]
  simp only [Segmentation.cons, traceFrom, hmarks]
  have htoken : Token.ofLexeme .start ⟨.string s, (Quoted.quote s).toList⟩ =
      ⟨.string s, ⟨.start, (Pos.start.advance (Quoted.quote s).toList).lastOf⟩, Quoted.quote s⟩ := by
    simp [Token.ofLexeme, TokenKind.isError]
  exact ⟨_, congrArg (List.cons · _) htoken⟩

/-- The kind of a literal in terms of its bytes. -/
theorem Lexeme.kind_string_iff (cs : List Char) (v : String) :
    (scan '"' cs).1.kind = .string v ↔
      (stringBytes (cs.flatMap utf8EncodeChar)).1.closed = true ∧
        (stringBytes (cs.flatMap utf8EncodeChar)).1.badEscape = none ∧
          String.fromUTF8? (stringBytes (cs.flatMap utf8EncodeChar)).1.value.toByteArray = some v := by
  have hreads := (stringBytes_encode cs).1
  have hkind : (scan '"' cs).1.kind = (stringBody cs).1.kind := by rw [scan, if_pos rfl, string]
  have hbad : (stringBytes (cs.flatMap utf8EncodeChar)).1.badEscape = none ↔ (stringBody cs).1.badEscape = none := by
    rw [← hreads.badEscape, Option.map_eq_none_iff]
  rw [hkind, StringBody.kind, hreads.closed, hbad]
  cases hclosed : (stringBody cs).1.closed with
  | false => simp
  | true =>
    cases hescape : (stringBody cs).1.badEscape with
    | some c => simp
    | none => simp [hreads.value hescape, fromUTF8?_encode]

/-- String literals are a codec. A text that starts with the literal of a string has the string as its first token,
which covers the literal and nothing more. What the bytes behind an opening quote stand for is always the encoding
of a string, if they are those of a text, the literal is closed and all its escapes are known; so decoding replaces
nothing, the token has that string as its value, and writing the value as a literal and reading that gives it
again. -/
theorem string_literal_codec :
    (∀ name s r : String,
      (∃ ts, Source.tokens ⟨name, Quoted.quote s ++ r⟩ =
        ⟨.string s, ⟨.start, (Pos.start.advance (Quoted.quote s).toList).lastOf⟩, Quoted.quote s⟩ :: ts) ∧
      Segmentation.ofText (Quoted.quote s ++ r).toList =
        (Segmentation.ofText r.toList).cons ⟨.empty, ⟨.string s, (Quoted.quote s).toList⟩⟩) ∧
    ∀ cs : List Char,
      let read := (stringBytes (cs.flatMap utf8EncodeChar)).1
      (read.closed = true → read.badEscape = none → ∃ v, String.fromUTF8? read.value.toByteArray = some v) ∧
      ∀ v, ((scan '"' cs).1.kind = .string v ↔
          read.closed = true ∧ read.badEscape = none ∧ String.fromUTF8? read.value.toByteArray = some v) ∧
        ((scan '"' cs).1.kind = .string v → ∀ name r : String,
          (Source.tokens ⟨name, Quoted.quote v ++ r⟩).head?.map Token.kind = some (.string v)) := by
  refine ⟨fun name s r => ⟨Source.tokens_quote name s r, ?_⟩,
    fun cs => ⟨fun _ hbad => ?_, fun v => ⟨kind_string_iff cs v, ?_⟩⟩⟩
  · rw [String.toList_append, Segmentation.ofText_quote]
  · have hreads := (stringBytes_encode cs).1
    have hgood : (stringBody cs).1.badEscape = none := by rw [← hreads.badEscape, hbad]; rfl
    exact ⟨_, by rw [hreads.value hgood, fromUTF8?_encode]⟩
  · intro _ name r
    obtain ⟨ts, hts⟩ := Source.tokens_quote name v r
    rw [hts]
    rfl

/-- A literal with a character of three bytes in it, an escaped quote and a line break, and more text behind it. -/
theorem string_literal_codec_mixed :
    let cs := ['€', '\\', '"', '\\', 'n', '"', '+', 'x']
    let v := String.ofList ['€', '"', '\n']
    (scan '"' cs).1.kind = .string v ∧
      String.fromUTF8? (stringBytes (cs.flatMap utf8EncodeChar)).1.value.toByteArray = some v ∧
      (Source.tokens ⟨"main", Quoted.quote v ++ "+x"⟩).head?.map Token.kind = some (.string v) := by
  intro cs v
  have hkind : (scan '"' cs).1.kind = .string v := rfl
  obtain ⟨hiff, hagain⟩ := (string_literal_codec.2 cs).2 v
  exact ⟨hkind, (hiff.1 hkind).2.2, hagain hkind "main" "+x"⟩

end DocScript
