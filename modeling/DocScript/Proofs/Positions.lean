import DocScript.Proofs.Grammar.Spans

/-!
# Positions of tokens and diagnostics

The line and the column of a token lead to the byte of the text where it begins, through the index of the line starts
(`Source.Places`). A diagnostic, of the scanner or of the parser, is about a token of the script, and so it quotes a
line that is there and that shows the token.
-/

namespace DocScript

variable {s : Source} {d : Diagnostic}

/-- The token begins where the text `front` ends, and its line and column say so. -/
def Token.InPlace (s : Source) (t : Token) (front : List Char) : Prop :=
  ∃ rest, s.Places t.span.start front rest ∧ t.Quotes rest

/-- The diagnostic points at the token, and quotes the line where it begins : `before`, which takes up the columns in
front of the token, and as much of the text from the token on as stands on that line, without the carriage returns of
the line break. -/
def Diagnostic.Shows (s : Source) (t : Token) (d : Diagnostic) : Prop :=
  d.span = t.span ∧ d.lexeme = t.lexeme ∧ s.line? t.span.start.line = some d.sourceLine ∧
    ∃ before rest, byteSize before = t.span.start.col - 1 ∧ t.Quotes rest ∧
      d.sourceLine = String.ofList (Source.trimReturns (before ++ rest.takeWhile (· ≠ '\n')))

theorem Source.Places.line?_eq {p : Pos} {front rest : List Char} (h : s.Places p front rest) :
    ∃ before, byteSize before = p.col - 1 ∧
      s.line? p.line = some (String.ofList (trimReturns (before ++ rest.takeWhile (· ≠ '\n')))) := by
  obtain ⟨before, -, hcol, hline⟩ := h.line
  obtain ⟨n, hn⟩ := Nat.exists_eq_add_one.2 h.line_pos
  refine ⟨before, hcol, ?_⟩
  rw [hn, Nat.add_sub_cancel] at hline
  rw [hn, Source.line?, hline, Option.map_some]

theorem Source.forall₂_inPlace (s : Source) : List.Forall₂ (Token.InPlace s) s.tokens s.fronts := by
  refine s.forall₂_tokens.imp fun t front h => ?_
  obtain ⟨rest, htext, hstart, hquotes⟩ := h
  exact ⟨rest, hstart ▸ s.places_advance htext, hquotes⟩

theorem Token.InPlace.shows {t : Token} {front : List Char} (h : t.InPlace s front) (code : ErrorCode)
    (message : String) : (t.complain s code message).Shows s t := by
  obtain ⟨rest, hplaces, hquotes⟩ := h
  obtain ⟨before, hcol, hline⟩ := hplaces.line?_eq
  have hsource : (t.complain s code message).sourceLine =
      String.ofList (Source.trimReturns (before ++ rest.takeWhile (· ≠ '\n'))) := by
    rw [complain, hline]
    rfl
  exact ⟨rfl, rfl, hline.trans (congrArg some hsource.symm), before, rest, hcol, hquotes, hsource⟩

theorem Diagnostic.About.shows (h : d.About s) : ∃ t ∈ s.tokens, d.Shows s t := by
  obtain ⟨t, ht, code, message, rfl⟩ := h
  obtain ⟨i, rfl⟩ := List.mem_iff_get.1 ht
  have hplace := s.forall₂_inPlace.get i.2 (s.forall₂_inPlace.length_eq ▸ i.2)
  exact ⟨_, ht, hplace.shows code message⟩

theorem Diagnostics.mem_foldl_push {new : List Diagnostic} {ds : Diagnostics} (h : d ∈ (new.foldl push ds).stored) :
    d ∈ ds.stored ∨ d ∈ new := by
  induction new generalizing ds with
  | nil => exact .inl h
  | cons d' new ih =>
    rcases ih h with h | h
    · rcases mem_push h with h | rfl
      · exact .inl h
      · exact .inr List.mem_cons_self
    · exact .inr (List.mem_cons_of_mem _ h)

theorem Source.about_scanErrors (h : d ∈ s.scanErrors.stored) : d.About s := by
  rcases Diagnostics.mem_foldl_push h with h | h
  · simp [Diagnostics.empty] at h
  · obtain ⟨t, ht, he⟩ := List.mem_filterMap.1 h
    exact about_of_scanError? ht he

theorem Source.about_parse (h : d ∈ s.parse.errors.stored) : d.About s := by
  obtain ⟨q, hq, hstands, -⟩ := s.program_lays
  rw [Source.parse, hq] at h
  exact hstands.about d h

end DocScript
