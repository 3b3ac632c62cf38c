import DocScript.Number
import DocScript.Proofs.Number.Encoding

/-!
# Reading decimals

A literal is read as the double nearest to its decimal : a decimal in the interval of a double is read as that
double (`ofScientific_eq`). Small decimals are read by one division of doubles that are exact, and all
others by a division of whole numbers, and both divisions round once (`exists_ofScientific`).

Whatever its digits are, a literal is never negative and never NaN (`Positive`).
-/

namespace DocScript

open Float.Model Float.Model.UnpackedFloat Rounding

namespace Rounding

/-- A double lies in its own interval. -/
theorem rounds_self (m : Nat) (e : Int) : Rounds (m * 2 ^ e) m e := by
  have hp := two_zpow_pos e
  have hg : (0 : ℚ) < gap m e := by
    unfold gap
    split <;> norm_num
  constructor
  · exact mul_le_mul_of_nonneg_right (by linarith) hp.le
  · exact mul_le_mul_of_nonneg_right (by linarith) hp.le
  · exact fun _ => ⟨mul_lt_mul_of_pos_right (by linarith) hp, mul_lt_mul_of_pos_right (by linarith) hp⟩

/-- What rounds to a positive number is positive. -/
theorem Rounds.pos {x : ℚ} {m : Nat} {e : Int} (h : Rounds x m e) (hm : 0 < m) : 0 < x := by
  have hmq : (1 : ℚ) ≤ m := by exact_mod_cast hm
  have hg := gap_le m e
  exact lt_of_lt_of_le (mul_pos (by linarith) (two_zpow_pos e)) h.low

/-- Only zero is rounded from the middle between zero and the least double. -/
theorem Rounds.lt_of_normalized {x : ℚ} {m : Nat} {e : Int} (h : Rounds x m e) (hc : Normalized m e) :
    2 ^ (-1075 : Int) < x := by
  have hgap := gap_le m e
  have hpow : (2 : ℚ) ^ (-1074 : Int) ≤ 2 ^ e := zpow_le_zpow_right₀ (by norm_num) hc.low
  have hhalf : (2 : ℚ) ^ (-1075 : Int) = 1 / 2 * 2 ^ (-1074 : Int) := by
    rw [show (-1075 : Int) = -1 + -1074 from rfl, zpow_add₀ (by norm_num), zpow_neg_one, one_div]
  have hscale : ∀ r : ℚ, 1 / 2 ≤ r → (2 : ℚ) ^ (-1075 : Int) ≤ r * 2 ^ e := fun r hr =>
    hhalf ▸ mul_le_mul hr hpow (two_zpow_pos _).le (by linarith)
  rcases Nat.lt_or_eq_of_le hc.pos with hm | rfl
  · have hmq : (2 : ℚ) ≤ m := by exact_mod_cast hm
    calc (2 : ℚ) ^ (-1075 : Int) ≤ 1 / 2 * 2 ^ e := hscale _ le_rfl
      _ < (m - gap m e / 4 : ℚ) * 2 ^ e := mul_lt_mul_of_pos_right (by linarith) (two_zpow_pos e)
      _ ≤ x := h.low
  · exact lt_of_le_of_lt (hscale _ (by push_cast; linarith)) (h.strict rfl).1

/-- A count below `2 ^ 53` is a double. -/
theorem canonical_shift {c : Nat} (hc : 0 < c) (hlt : c < 2 ^ 53) :
    Canonical (c * 2 ^ (52 - c.log2)) (c.log2 - 52) ∧
      ((c * 2 ^ (52 - c.log2) : Nat) : ℚ) * 2 ^ (c.log2 - 52 : Int) = c := by
  have hlog : c.log2 < 53 := (Nat.log2_lt hc.ne').2 hlt
  have hlow : 2 ^ 52 ≤ c * 2 ^ (52 - c.log2) := by
    calc 2 ^ 52 = 2 ^ (c.log2 + (52 - c.log2)) := by congr 1; omega
      _ = 2 ^ c.log2 * 2 ^ (52 - c.log2) := Nat.pow_add ..
      _ ≤ c * 2 ^ (52 - c.log2) := Nat.mul_le_mul_right _ (Nat.log2_self_le hc.ne')
  have hhigh : c * 2 ^ (52 - c.log2) < 2 ^ 53 := by
    calc c * 2 ^ (52 - c.log2) < 2 ^ (c.log2 + 1) * 2 ^ (52 - c.log2) :=
          Nat.mul_lt_mul_of_pos_right Nat.lt_log2_self (Nat.two_pow_pos _)
      _ = 2 ^ (c.log2 + 1 + (52 - c.log2)) := (Nat.pow_add ..).symm
      _ = 2 ^ 53 := by congr 1; omega
  refine ⟨⟨by omega, hhigh, by omega, by omega, .inl hlow⟩, ?_⟩
  have hpow : (2 : ℚ) ^ (52 - c.log2) * 2 ^ (c.log2 - 52 : Int) = 1 := by
    rw [← zpow_natCast, ← zpow_add₀ (by norm_num)]
    rw [show ((52 - c.log2 : Nat) : Int) + (c.log2 - 52) = 0 by omega, zpow_zero]
  push_cast
  rw [mul_assoc, hpow, mul_one]

end Rounding

/-- A count below `2 ^ 53` becomes the double of its value. -/
theorem unpack_toFloat {c : Nat} (hc : 0 < c) (hlt : c < 2 ^ 53) :
    ∃ m e, ∃ h : Canonical m e, c.toUInt64.toFloat.toModel.unpack = .finite .positive m e h.pos ∧
      (m : ℚ) * 2 ^ e = c := by
  obtain ⟨hcan, hvalue⟩ := canonical_shift hc hlt
  have hnat : c.toUInt64.toNat = c := Nat.mod_eq_of_lt (by omega)
  have hround := (rounded_round hc).eq_finite hcan.normalized (hvalue ▸ rounds_self _ _)
  refine ⟨_, _, hcan, ?_, hvalue⟩
  change (Float.Model.pack (UnpackedFloat.normalize Format.binary64 (c.toUInt64.toNat : Int) 0
    .positive)).unpack = _
  rw [hnat, UnpackedFloat.normalize, Int.compare_eq_gt.2 (by omega)]
  simp only [Int.toNat_natCast]
  rw [hround]
  exact Parts.unpack_pack .positive hcan

/-- Whether the parts are those of the count `n`. -/
def Parts.isCount (n : Nat) : Parts → Bool
  | finite false m e => 0 < m && m * 2 ^ e.toNat == n * 2 ^ (-e).toNat
  | _ => false

theorem Parts.isCount_iff {p : Parts} {n : Nat} (h : p.isCount n = true) :
    ∃ m e, p = finite false m e ∧ 0 < m ∧ (m : ℚ) * 2 ^ e = n := by
  unfold isCount at h
  split at h
  · next m e =>
    simp only [Bool.and_eq_true, decide_eq_true_eq, beq_iff_eq] at h
    refine ⟨m, e, rfl, h.1, ?_⟩
    have hq : (m : ℚ) * 2 ^ e.toNat = n * 2 ^ (-e).toNat := by exact_mod_cast h.2
    have hsplit : (2 : ℚ) ^ e * 2 ^ (-e).toNat = 2 ^ e.toNat := by
      rw [← zpow_natCast, ← zpow_natCast, ← zpow_add₀ (by norm_num)]
      congr 1
      omega
    have hpos : (0 : ℚ) < 2 ^ (-e).toNat := by positivity
    apply mul_right_cancel₀ hpos.ne'
    rw [mul_assoc, hsplit, hq]
  · nomatch h

/-- The powers of ten that are doubles. -/
theorem unpack_powersOfTen {k : Nat} (hk : k < Float.exactlyRepresentablePowersOfTen.size) :
    ∃ m e, ∃ h : 0 < m,
      Float.exactlyRepresentablePowersOfTen[k].toModel.unpack = .finite .positive m e h ∧
      (m : ℚ) * 2 ^ e = 10 ^ k := by
  have hall : ∀ i : Fin 23,
      (Parts.ofFloat Float.exactlyRepresentablePowersOfTen[i]).isCount (10 ^ i.val) = true := by
    decide +kernel
  obtain ⟨m, e, hp, hm, hvalue⟩ := Parts.isCount_iff (hall ⟨k, hk⟩)
  refine ⟨m, e, hm, Parts.unpack_of_finite hp hm, ?_⟩
  rw [hvalue]
  push_cast
  rfl

/-! ## Literals -/

/-- The division of whole numbers that reads a decimal. -/
theorem rounded_ofScientific {c k : Nat} (hc : 0 < c) (hk : k ≤ c.log2 + 2048) :
    Rounded (c / 10 ^ k) (UnpackedFloat.ofScientific Format.binary64 c (Int.negOfNat k)) := by
  have hneg : Int.negOfNat k = -(k : Int) := Int.negOfNat_eq
  rw [UnpackedFloat.ofScientific, dif_neg hc.ne', hneg, if_neg (by norm_num), if_neg (by norm_num; omega)]
  by_cases hk0 : k = 0
  · subst hk0
    have hbits : Format.binary64.mantissaBits = 53 := rfl
    have hshift : c <<< Format.binary64.mantissaBits * 10 ^ (-((0 : Nat) : Int)).toNat = c * 2 ^ 53 := by
      rw [Nat.shiftLeft_eq]
      exact Nat.mul_one _
    have hlog := log2_add_le hc 53
    have hvalue : ((c * 2 ^ 53 : Nat) : ℚ) * 2 ^ (-(Format.binary64.mantissaBits : Int) + 0) = c / 10 ^ 0 := by
      rw [hbits]
      push_cast
      norm_num
      ring
    rw [if_pos (by simp)]
    simp only [UnpackedFloat.mul, hshift]
    rw [← hvalue]
    exact .mk (approximates_exact _) (by rw [hbits]; omega)
  · rw [if_neg (by omega)]
    simp only [neg_neg, Int.toNat_natCast]
    simpa using @rounded_div c (10 ^ k) 0 0 hc (Nat.pow_pos (by decide))

/-- Decimals with more places than any double has are not divided : they are zero. -/
theorem ofScientific_eq_zero {c k : Nat} (hc : 0 < c) (hk : c.log2 + 2048 < k) :
    UnpackedFloat.ofScientific Format.binary64 c (Int.negOfNat k) = .zero .positive ∧
      (c / 10 ^ k : ℚ) ≤ 2 ^ (-1075 : Int) := by
  have hneg : Int.negOfNat k = -(k : Int) := Int.negOfNat_eq
  constructor
  · rw [UnpackedFloat.ofScientific, dif_neg hc.ne', hneg, if_neg (by norm_num), if_pos (by norm_num; omega)]
  · calc (c / 10 ^ k : ℚ) ≤ 2 ^ (c.log2 + 1 : Int) / 2 ^ k := by
          refine div_le_div₀ (two_zpow_pos _).le ?_ (by positivity) ?_
          · exact_mod_cast Nat.lt_log2_self.le
          · exact pow_le_pow_left₀ (by norm_num) (by norm_num) k
      _ = 2 ^ (c.log2 + 1 - k : Int) := by rw [zpow_sub₀ (by norm_num), zpow_natCast]
      _ ≤ 2 ^ (-1075 : Int) := zpow_le_zpow_right₀ (by norm_num) (by omega)

/-- A decimal is rounded once, if it is not so small that it is zero anyway. -/
theorem exists_ofScientific {c : Nat} (hc : 0 < c) (k : Nat) :
    ∃ u, Float.ofScientific c true k = .ofModel (.pack u) ∧
      (Rounded (c / 10 ^ k) u ∨ u = .zero .positive ∧ (c / 10 ^ k : ℚ) ≤ 2 ^ (-1075 : Int)) := by
  unfold Float.ofScientific
  split
  · next h =>
    obtain ⟨m₁, e₁, h₁, hu₁, hv₁⟩ := unpack_toFloat hc h.1
    obtain ⟨m₂, e₂, h₂, hu₂, hv₂⟩ := unpack_powersOfTen (k := k)
      (by simp [Float.exactlyRepresentablePowersOfTen]; omega)
    refine ⟨_, ?_, .inl (hv₁ ▸ hv₂ ▸ rounded_div h₁.pos h₂)⟩
    simp only [if_true]
    change Float.ofModel (Float.Model.pack (UnpackedFloat.div Format.binary64 _ _)) = _
    rw [hu₁, hu₂]
  · simp only [if_true]
    refine ⟨_, rfl, ?_⟩
    by_cases hk : k ≤ c.log2 + 2048
    · exact .inl (rounded_ofScientific hc hk)
    · exact .inr (ofScientific_eq_zero hc (by omega))

/-- A decimal in the interval of a double is read as that double. -/
theorem ofScientific_eq {x : Float} {c k m : Nat} {e : Int} (hx : Parts.ofFloat x = .finite false m e)
    (hm : 0 < m) (hr : Rounds (c / 10 ^ k) m e) : Float.ofScientific c true k = x := by
  have hcan := Parts.canonical_of_finite hx hm
  have hc : 0 < c := by
    have hpos := hr.pos hm
    rcases Nat.eq_zero_or_pos c with rfl | h
    · simp at hpos
    · exact h
  obtain ⟨u, hu, h | ⟨-, hzero⟩⟩ := exists_ofScientific hc k
  · rw [hu, h.eq_finite hcan.normalized hr]
    exact Parts.eq_of_finite (Parts.ofFloat_pack .positive hcan) hx
  · exact absurd hzero (hr.lt_of_normalized hcan.normalized).not_ge

/-! ## Signs -/

/-- A double that is neither negative nor NaN. -/
def Positive (x : Float) : Prop :=
  (∃ m e, Parts.ofFloat x = .finite false m e) ∨ Parts.ofFloat x = .infinite false

/-- An unpacked number that is neither negative nor NaN. -/
def Unsigned (u : UnpackedFloat) : Prop :=
  u = .zero .positive ∨ u = .infinity .positive ∨ ∃ m e h, u = .finite .positive m e h

theorem Unsigned.positive {u : UnpackedFloat} (h : Unsigned u) : Positive (.ofModel (.pack u)) := by
  rcases h with rfl | rfl | ⟨m, e, hm, rfl⟩
  · exact .inl ⟨0, -1074, by decide +kernel⟩
  · exact .inr (by decide +kernel)
  · exact Parts.ofFloat_pack_positive m e hm

theorem unsigned_roundWithAccuracy (m : Nat) (e : Int) (a : Accuracy) :
    Unsigned (roundWithAccuracy Format.binary64 .positive m e a) := by
  unfold roundWithAccuracy
  dsimp only
  split
  · exact .inl rfl
  · exact .inr (.inr ⟨_, _, _, rfl⟩)

theorem unsigned_ofNat (n : Nat) : Unsigned (UnpackedFloat.ofNat Format.binary64 n) := by
  unfold UnpackedFloat.ofNat UnpackedFloat.ofInt UnpackedFloat.normalize
  split
  · next h => exact absurd (Int.compare_eq_lt.1 h) (by omega)
  · exact .inl rfl
  · exact unsigned_roundWithAccuracy ..

/-- Counts are not negative. -/
theorem positive_ofNat (n : Nat) : Positive (Number.ofNat n) :=
  (unsigned_ofNat (UInt64.ofNat n).toNat).positive

theorem unsigned_ofScientific (c k : Nat) :
    Unsigned (UnpackedFloat.ofScientific Format.binary64 c (Int.negOfNat k)) := by
  unfold UnpackedFloat.ofScientific
  split
  · exact .inl rfl
  split
  · exact .inr (.inl rfl)
  split
  · exact .inl rfl
  split
  · exact unsigned_roundWithAccuracy ..
  · exact unsigned_roundWithAccuracy ..

/-- Literals are not negative. -/
theorem positive_ofScientific (c k : Nat) : Positive (Float.ofScientific c true k) := by
  unfold Float.ofScientific
  split
  · next h =>
    obtain ⟨m₂, e₂, h₂, hu₂, -⟩ := unpack_powersOfTen (k := k)
      (by simp [Float.exactlyRepresentablePowersOfTen]; omega)
    simp only [if_true]
    change Positive (.ofModel (.pack (UnpackedFloat.div Format.binary64 _ _)))
    apply Unsigned.positive
    rcases Nat.eq_zero_or_pos c with rfl | hc
    · rw [hu₂, show (0 : Nat).toUInt64.toFloat.toModel.unpack = .zero .positive from rfl]
      exact .inl rfl
    · obtain ⟨m₁, e₁, h₁, hu₁, -⟩ := unpack_toFloat hc h.1
      rw [hu₁, hu₂]
      exact unsigned_roundWithAccuracy ..
  · simp only [if_true]
    exact (unsigned_ofScientific c k).positive

end DocScript
