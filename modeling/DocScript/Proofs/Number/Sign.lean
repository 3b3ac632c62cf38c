import DocScript.Proofs.Number.Text

/-!
# Signs of numbers

Negation turns the sign of a finite double around and leaves the rest of it (`Parts.ofFloat_neg`), so the text
of a negative number is a minus sign and the text of the number without it (`Number.text_neg`). A
finite double equals itself, and zero only if its mantissa is zero.
-/

namespace DocScript

open Float.Model Float.Model.UnpackedFloat Rounding

namespace Parts

variable {x : Float} {n : Bool} {m : Nat} {e : Int}

/-- A finite double other than zero is what its parts are packed to. -/
theorem exists_eq_pack (h : ofFloat x = finite n m e) (hm : 0 < m) :
    ∃ (s : Sign) (hc : Canonical m e), isNegative s = n ∧ x = .ofModel (.pack (.finite s m e hc.pos)) := by
  have hc := canonical_of_finite h hm
  cases n with
  | false => exact ⟨.positive, hc, rfl, eq_of_finite h (ofFloat_pack .positive hc)⟩
  | true => exact ⟨.negative, hc, rfl, eq_of_finite h (ofFloat_pack .negative hc)⟩

/-- Negation turns the sign around. -/
theorem ofFloat_neg (h : ofFloat x = finite n m e) (hm : 0 < m) : ofFloat (-x) = finite (!n) m e := by
  obtain ⟨s, hc, rfl, rfl⟩ := exists_eq_pack h hm
  have hneg : -Float.ofModel (.pack (.finite s m e hc.pos)) = .ofModel (.pack (.finite (-s) m e hc.pos)) := by
    change Float.ofModel (.pack (Float.Model.unpack _).neg) = _
    rw [unpack_pack s hc]
    rfl
  rw [hneg, ofFloat_pack (-s) hc]
  cases s <;> rfl

theorem neg_neg_of_finite (h : ofFloat x = finite n m e) (hm : 0 < m) : -(-x) = x := by
  have hneg := ofFloat_neg (ofFloat_neg h hm) hm
  rw [Bool.not_not] at hneg
  exact eq_of_finite hneg h

/-- There are two zeros. -/
theorem eq_zero_of_finite (h : ofFloat x = finite n 0 e) : x = 0 ∨ x = -0 := by
  obtain rfl := exponent_of_zero h
  cases n with
  | false => exact .inl (eq_of_finite h (by decide +kernel))
  | true => exact .inr (eq_of_finite h (by decide +kernel))

/-- A finite double equals itself. -/
theorem beq_self_of_finite (h : ofFloat x = finite n m e) : (x == x) = true := by
  rcases Nat.eq_zero_or_pos m with rfl | hm
  · rcases eq_zero_of_finite h with rfl | rfl <;> decide +kernel
  · obtain ⟨s, hc, -, rfl⟩ := exists_eq_pack h hm
    change UnpackedFloat.beq (Float.Model.unpack _) (Float.Model.unpack _) = true
    rw [unpack_pack s hc]
    cases s <;> simp [UnpackedFloat.beq, UnpackedFloat.compare]

/-- A finite double other than both zeros does not equal zero. -/
theorem beq_zero_of_finite (h : ofFloat x = finite n m e) (hm : 0 < m) : (x == 0) = false := by
  obtain ⟨s, hc, -, rfl⟩ := exists_eq_pack h hm
  have hzero : Float.Model.unpack (Float.toModel 0) = .zero .positive := rfl
  change UnpackedFloat.beq (Float.Model.unpack _) (Float.Model.unpack (Float.toModel 0)) = false
  rw [unpack_pack s hc, hzero]
  cases s <;> simp [UnpackedFloat.beq, UnpackedFloat.compare]

end Parts

namespace Number

variable {x : Float} {m : Nat} {e : Int}

/-- A negative number is written with a minus sign in front of what it is without it. -/
theorem text_neg (h : Parts.ofFloat x = .finite true m e) (hm : 0 < m) : text x = "-" ++ text (-x) := by
  have hneg : Parts.ofFloat (-x) = .finite false m e := Parts.ofFloat_neg h hm
  have hsigned (cs : List Char) : signed true cs = "-" ++ signed false cs := by
    apply String.ext
    simp [signed]
  have hshort : signedText x = "-" ++ signedText (-x) := by
    simp only [signedText, h, hneg, hsigned]
  simp only [text, h, hneg]
  cases hw : whole? m e with
  | none => exact hshort
  | some n =>
    -- a whole number is zero only if the mantissa is
    have hn : n ≠ 0 := by
      rintro rfl
      have hv := whole?_eq_some hw
      have hp : (0 : ℚ) < m * 2 ^ e := mul_pos (by exact_mod_cast hm) (two_zpow_pos e)
      rw [← hv] at hp
      exact absurd hp (by simp)
    dsimp only
    split
    · simp only [bne_iff_ne.2 hn, Bool.and_true]
      exact hsigned _
    · exact hshort

end Number

end DocScript
