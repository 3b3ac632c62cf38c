import Mathlib

/-!
# Rounding to doubles

A finite double other than zero is `m * 2 ^ e` for one pair of a mantissa and an exponent (`Canonical`), and
the numbers that round to it fill the interval between the midpoints to its neighbours, with the ends of the
interval if the mantissa is even (`Rounds`). The model of doubles rounds by shifting a mantissa to the
right, with two bits that remember what was shifted out. `Approximates` says what the two bits know about the
number, a shift keeps it (`Approximates.shiftRight`), and it is enough to decide how the number
rounds (`Approximates.rounded`).

`roundWithAccuracy_eq` is the result : whatever lies in the interval of a double is rounded to that double.
The shift goes to the exponent of the double, or, just below a power of two, to the one before, and then the
mantissa overflows and is shifted once more. Up to the middle between zero and the least double everything is
rounded to zero (`roundWithAccuracy_eq_zero`). Every operation that rounds once approximates its value and rounds
the approximation (`Rounded`); `rounded_div` is the one for quotients.
-/

namespace DocScript.Rounding

open Float.Model Float.Model.UnpackedFloat

/-! ## Doubles and their intervals -/

/-- The mantissa and the exponent of a finite double other than zero. -/
structure Canonical (m : Nat) (e : Int) : Prop where
  pos : 0 < m
  lt : m < 2 ^ 53
  low : -1074 ≤ e
  high : e ≤ 971
  normal : 2 ^ 52 ≤ m ∨ e = -1074

/-- What rounding gives, which knows no greatest exponent. -/
structure Normalized (m : Nat) (e : Int) : Prop where
  pos : 0 < m
  lt : m < 2 ^ 53
  low : -1074 ≤ e
  normal : 2 ^ 52 ≤ m ∨ e = -1074

theorem Canonical.normalized {m : Nat} {e : Int} (h : Canonical m e) : Normalized m e :=
  ⟨h.pos, h.lt, h.low, h.normal⟩

/-- The distance to the midpoint below, in quarters of the last digit. Below a power of two the
neighbour is half as far away, except under the least exponent. -/
def gap (m : Nat) (e : Int) : Nat := if m = 2 ^ 52 ∧ e ≠ -1074 then 1 else 2

/-- `x` rounds to `m * 2 ^ e`. -/
structure Rounds (x : ℚ) (m : Nat) (e : Int) : Prop where
  low : (m - gap m e / 4 : ℚ) * 2 ^ e ≤ x
  high : x ≤ (m + 1 / 2 : ℚ) * 2 ^ e
  strict : m % 2 = 1 → (m - gap m e / 4 : ℚ) * 2 ^ e < x ∧ x < (m + 1 / 2 : ℚ) * 2 ^ e

theorem two_zpow_pos (e : Int) : (0 : ℚ) < 2 ^ e := zpow_pos (by norm_num) e

theorem two_zpow_lt {a b : Int} : (2 : ℚ) ^ a < 2 ^ b ↔ a < b := zpow_lt_zpow_iff_right₀ (by norm_num)

theorem gap_le (m : Nat) (e : Int) : (gap m e : ℚ) ≤ 2 := by
  unfold gap
  split <;> norm_num

theorem gap_nonneg (m : Nat) (e : Int) : (0 : ℚ) ≤ gap m e := Nat.cast_nonneg _

/-! ## Mantissas that approximate a number -/

/-- `em` is the whole part of `x`, with one bit that says whether `x` is at least half way to the next whole
number, and one that says whether it is neither whole nor half way. -/
structure Approximates (em : ExtendedMantissa) (x : ℚ) : Prop where
  le : (em.mantissa : ℚ) ≤ x
  lt : x < em.mantissa + 1
  round : em.roundBit = true ↔ (em.mantissa + 1 / 2 : ℚ) ≤ x
  sticky : em.stickyBit = true ↔ x ≠ em.mantissa ∧ x ≠ (em.mantissa + 1 / 2 : ℚ)

namespace Approximates

variable {em : ExtendedMantissa} {x : ℚ}

/-- Either bit is set exactly if `x` is not whole. -/
theorem inexact (h : Approximates em x) : (em.roundBit || em.stickyBit) = true ↔ x ≠ em.mantissa := by
  rw [Bool.or_eq_true, h.round, h.sticky]
  constructor
  · rintro (hr | hs)
    · intro hx
      linarith
    · exact hs.1
  · intro hx
    by_cases hr : (em.mantissa + 1 / 2 : ℚ) ≤ x
    · exact .inl hr
    · exact .inr ⟨hx, fun he => hr he.ge⟩

/-- A shift to the right halves the number. -/
theorem shiftRightOne (h : Approximates em x) : Approximates em.shiftRightOne (x / 2) := by
  have hle := h.le
  have hlt := h.lt
  have hinexact := h.inexact
  obtain ⟨a, ha⟩ : ∃ a, a = em.mantissa / 2 := ⟨_, rfl⟩
  rcases Nat.mod_two_eq_zero_or_one em.mantissa with hm | hm
  · have hmant : em.mantissa = 2 * a := by omega
    have hq : (em.mantissa : ℚ) = 2 * a := by rw [hmant]; push_cast; ring
    rw [hq] at hle hlt hinexact
    refine ⟨?_, ?_, ?_, ?_⟩ <;> simp only [ExtendedMantissa.shiftRightOne, ← ha]
    · linarith
    · linarith
    · simp only [hm, bne_self_eq_false, Bool.false_eq_true, false_iff, not_le]
      linarith
    · rw [hinexact]
      constructor
      · intro hx
        exact ⟨fun he => hx (by linarith), fun he => by linarith⟩
      · rintro ⟨hx, -⟩ he
        exact hx (by linarith)
  · have hmant : em.mantissa = 2 * a + 1 := by omega
    have hq : (em.mantissa : ℚ) = 2 * a + 1 := by rw [hmant]; push_cast; ring
    rw [hq] at hle hlt hinexact
    refine ⟨?_, ?_, ?_, ?_⟩ <;> simp only [ExtendedMantissa.shiftRightOne, ← ha]
    · linarith
    · linarith
    · simp only [hm, show ((1 : Nat) != 0) = true from rfl, true_iff]
      linarith
    · rw [hinexact]
      constructor
      · intro hx
        exact ⟨fun he => by linarith, fun he => hx (by linarith)⟩
      · rintro ⟨-, hx⟩ he
        exact hx (by linarith)

theorem shiftRight (h : Approximates em x) (k : Nat) : Approximates (em >>> k) (x / 2 ^ k) := by
  induction k with
  | zero =>
    rw [pow_zero, div_one]
    exact h
  | succ k ih =>
    have hs : em >>> (k + 1) = (em >>> k).shiftRightOne := rfl
    rw [hs, pow_succ, ← div_div]
    exact ih.shiftRightOne

/-- A number at most half a unit away from `m` is rounded to `m`; at half a unit `m` has to be even. -/
theorem rounded (h : Approximates em x) {m : Nat} (hlow : (m - 1 / 2 : ℚ) ≤ x)
    (hhigh : x ≤ (m + 1 / 2 : ℚ)) (hstrict : m % 2 = 1 → (m - 1 / 2 : ℚ) < x ∧ x < (m + 1 / 2 : ℚ)) :
    em.roundedMantissa = m := by
  obtain ⟨hle, hlt, hround, hsticky⟩ := h
  have hm : m = em.mantissa ∨ m = em.mantissa + 1 := by
    have h₁ : (m : ℚ) < em.mantissa + 2 := by linarith
    have h₂ : (em.mantissa : ℚ) < m + 1 := by linarith
    norm_cast at h₁ h₂
    omega
  obtain ⟨a, r, s⟩ := em
  simp only at hle hlt hround hsticky hm
  rcases hm with rfl | rfl
  · -- rounded down, from below the middle or from the middle
    cases r with
    | false => cases s <;> rfl
    | true =>
      have hx : x = (m + 1 / 2 : ℚ) := le_antisymm hhigh (hround.1 rfl)
      have heven : m % 2 ≠ 1 := fun ho => absurd (hstrict ho).2 (by rw [hx]; exact lt_irrefl _)
      have hs : s = false := by
        cases s with
        | false => rfl
        | true => exact absurd hx (hsticky.1 rfl).2
      subst hs
      simp only [ExtendedMantissa.roundedMantissa, ExtendedMantissa.accuracy, Accuracy.roundToNearestEven]
      omega
  · -- rounded up
    push_cast at hlow hhigh hstrict
    have hr : r = true := hround.2 (by linarith)
    subst hr
    cases s with
    | true => rfl
    | false =>
      have hx : x = (a + 1 / 2 : ℚ) := by
        by_contra hne
        have := hsticky.2 ⟨by linarith [hround.1 rfl], hne⟩
        simp at this
      have heven : (a + 1) % 2 ≠ 1 := fun ho => by
        have := (hstrict ho).1
        linarith
      simp only [ExtendedMantissa.roundedMantissa, ExtendedMantissa.accuracy, Accuracy.roundToNearestEven]
      omega

end Approximates

theorem approximates_exact (m : Nat) :
    Approximates (.ofMantissaAndAccuracy m .exact) m := by
  constructor <;> simp [ExtendedMantissa.ofMantissaAndAccuracy]

/-- A whole number and a proper fraction, whose accuracy is found by comparing it with a half. -/
theorem approximates_fraction (q : Nat) {r b : Nat} (hr : r < b) :
    Approximates (.ofMantissaAndAccuracy q (accuracyOfFraction r b)) (q + r / b : ℚ) := by
  have hb : (0 : ℚ) < b := by exact_mod_cast Nat.zero_lt_of_lt hr
  have hlow : (0 : ℚ) ≤ r / b := by positivity
  have hhigh : (r / b : ℚ) < 1 := (div_lt_one hb).2 (by exact_mod_cast hr)
  have hzero : (r / b : ℚ) = 0 ↔ r = 0 := by simp [div_eq_zero_iff, hb.ne']
  have hhalf : (1 / 2 : ℚ) ≤ r / b ↔ b ≤ 2 * r := by
    rw [div_le_div_iff₀ (by norm_num) hb]
    norm_cast
    omega
  have hmiddle : (r / b : ℚ) = 1 / 2 ↔ 2 * r = b := by
    rw [div_eq_div_iff hb.ne' (by norm_num)]
    norm_cast
    omega
  -- in terms of the fraction alone
  have bits : ∀ em : ExtendedMantissa, em.mantissa = q → (em.roundBit = true ↔ b ≤ 2 * r) →
      (em.stickyBit = true ↔ r ≠ 0 ∧ 2 * r ≠ b) → Approximates em (q + r / b : ℚ) := by
    rintro em rfl hround hsticky
    refine ⟨by linarith, by linarith, ?_, ?_⟩
    · rw [hround, ← hhalf, add_le_add_iff_left]
    · rw [hsticky, Ne, Ne, ← hmiddle, ← hzero, Ne, Ne, add_right_inj, add_eq_left]
  unfold accuracyOfFraction
  by_cases h0 : r = 0
  · rw [if_pos h0]
    apply bits <;> simp [ExtendedMantissa.ofMantissaAndAccuracy] <;> omega
  · rw [if_neg h0]
    rcases Nat.lt_trichotomy (2 * r) b with h | h | h
    · rw [Nat.compare_eq_lt.2 h]
      apply bits <;> simp [ExtendedMantissa.ofMantissaAndAccuracy] <;> omega
    · rw [Nat.compare_eq_eq.2 h]
      apply bits <;> simp [ExtendedMantissa.ofMantissaAndAccuracy] <;> omega
    · rw [Nat.compare_eq_gt.2 h]
      apply bits <;> simp [ExtendedMantissa.ofMantissaAndAccuracy] <;> omega

/-- A quotient of whole numbers, with what its remainder knows. -/
theorem approximates_div (a : Nat) {b : Nat} (hb : 0 < b) :
    Approximates (.ofMantissaAndAccuracy (a / b) (accuracyOfFraction (a % b) b)) (a / b : ℚ) := by
  have hbq : (b : ℚ) ≠ 0 := by exact_mod_cast hb.ne'
  have hx : (a / b : ℚ) = (a / b : Nat) + (a % b : Nat) / b := by
    field_simp
    exact_mod_cast (Nat.div_add_mod a b).symm
  rw [hx]
  exact approximates_fraction (a / b) (Nat.mod_lt a hb)

/-! ## Shifts to the exponent of a double -/

/-- The exponent that a mantissa is shifted to. -/
theorem targetExponent_eq (m : Nat) (e : Int) :
    Format.binary64.targetExponent (totalExponent m e) = max (m.log2 + e - 52) (-1074) := by
  simp only [Format.targetExponent, totalExponent, Format.mantissaBits, Format.minExponent]
  norm_num
  omega

/-- A mantissa that fits is not shifted. -/
theorem shift_of_normalized {m : Nat} {e : Int} (h : Normalized m e) :
    shiftToTargetExponent Format.binary64 m e .exact = (⟨m, false, false⟩, e) := by
  have hlog : m.log2 < 53 := (Nat.log2_lt h.pos.ne').2 h.lt
  have hlow := h.low
  have hs : (max (m.log2 + e - 52 : Int) (-1074) - e).toNat = 0 := by omega
  rw [shiftToTargetExponent, targetExponent_eq, shiftToExponent, hs]
  simp only [Nat.cast_zero, add_zero]
  rfl

/-- One that overflowed is shifted once more. -/
theorem shift_of_overflow {e : Int} (h : -1074 ≤ e) :
    shiftToTargetExponent Format.binary64 (2 ^ 53) e .exact = (⟨2 ^ 52, false, false⟩, e + 1) := by
  have hs : (max ((2 ^ 53 : Nat).log2 + e - 52 : Int) (-1074) - e).toNat = 1 := by
    rw [Nat.log2_two_pow]
    omega
  rw [shiftToTargetExponent, targetExponent_eq, shiftToExponent, hs]
  rfl

/-- A number in the interval of a double lies below the next power of two. -/
theorem Rounds.lt_zpow {m : Nat} {e : Int} {x : ℚ} (hc : Normalized m e) (h : Rounds x m e) :
    x < 2 ^ (53 + e) := by
  have hm : (m : ℚ) + 1 ≤ 2 ^ (53 : Int) := by exact_mod_cast hc.lt
  have hp := two_zpow_pos e
  calc x ≤ (m + 1 / 2 : ℚ) * 2 ^ e := h.high
    _ < 2 ^ (53 : Int) * 2 ^ e := by
      apply mul_lt_mul_of_pos_right _ hp
      linarith
    _ = 2 ^ (53 + e) := (zpow_add₀ (by norm_num) _ _).symm

/-- It does not lie more than one power of two lower, and only below a power of two itself. -/
theorem Rounds.zpow_lt {m : Nat} {e : Int} {x : ℚ} (h : Rounds x m e) (hm : 2 ^ 52 ≤ m) :
    (2 : ℚ) ^ (51 + e) < x ∧ (m ≠ 2 ^ 52 → (2 : ℚ) ^ (52 + e) < x) := by
  have hp := two_zpow_pos e
  have hgap := gap_le m e
  have hlow : ∀ {a : Int}, (2 : ℚ) ^ a < m - gap m e / 4 → (2 : ℚ) ^ (a + e) < x := by
    intro a ha
    rw [zpow_add₀ (by norm_num)]
    exact lt_of_lt_of_le (mul_lt_mul_of_pos_right ha hp) h.low
  refine ⟨hlow ?_, fun hne => hlow ?_⟩
  · have hmq : (4503599627370496 : ℚ) ≤ m := by exact_mod_cast hm
    norm_num
    linarith
  · have hmq : (4503599627370497 : ℚ) ≤ m := by exact_mod_cast Nat.lt_of_le_of_ne hm (Ne.symm hne)
    norm_num
    linarith

/-- The place of the first digit of a number whose whole part is `q`. -/
theorem lt_zpow_log2 {q : Nat} {x : ℚ} (hq : x < q + 1) (t : Int) : x * 2 ^ t < 2 ^ (q.log2 + 1 + t) := by
  have hn : (q : ℚ) + 1 ≤ 2 ^ (q.log2 + 1 : Int) := by exact_mod_cast Nat.lt_log2_self (n := q)
  rw [zpow_add₀ (by norm_num)]
  exact mul_lt_mul_of_pos_right (lt_of_lt_of_le hq hn) (two_zpow_pos t)

/-- The least power of two in a number whose whole part is `q`. -/
theorem zpow_log2_le {q : Nat} {x : ℚ} (h0 : q ≠ 0) (hq : (q : ℚ) ≤ x) (t : Int) : 2 ^ (q.log2 + t) ≤ x * 2 ^ t := by
  have hn : (2 : ℚ) ^ (q.log2 : Int) ≤ q := by exact_mod_cast Nat.log2_self_le h0
  rw [zpow_add₀ (by norm_num)]
  exact mul_le_mul_of_nonneg_right (hn.trans hq) (two_zpow_pos t).le

/-- A number in the interval of a double is shifted to the exponent of the double, or, just below a power of
two, to the exponent before. -/
theorem targetExponent_cases {q m : Nat} {t e : Int} {x : ℚ} (hc : Normalized m e) (hq : (q : ℚ) ≤ x)
    (hq' : x < q + 1) (hr : Rounds (x * 2 ^ t) m e) (ht : t ≤ max (q.log2 + t - 52) (-1074)) :
    max (q.log2 + t - 52) (-1074) = e ∨
      max (q.log2 + t - 52) (-1074) = e - 1 ∧ m = 2 ^ 52 ∧ -1074 < e := by
  have hlow := hc.low
  have hnormal : e ≠ -1074 → 2 ^ 52 ≤ m := hc.normal.resolve_right
  have hlt := lt_zpow_log2 hq' t
  have habove : e ≠ -1074 → 51 + e < q.log2 + 1 + t ∧ (m ≠ 2 ^ 52 → 52 + e < q.log2 + 1 + t) := by
    intro he
    obtain ⟨h₁, h₂⟩ := hr.zpow_lt (hnormal he)
    exact ⟨two_zpow_lt.1 (h₁.trans hlt), fun hne => two_zpow_lt.1 ((h₂ hne).trans hlt)⟩
  by_cases hq0 : q = 0
  · -- nothing is left of the mantissa, so that the exponent is the least one
    subst hq0
    simp only [Nat.log2_zero, Nat.cast_zero, zero_add] at *
    by_cases he : e = -1074
    · omega
    · have := (habove he).1
      omega
  · have hbelow : q.log2 + t < 53 + e :=
      two_zpow_lt.1 (lt_of_le_of_lt (zpow_log2_le hq0 hq t) (hr.lt_zpow hc))
    by_cases he : e = -1074
    · omega
    · obtain ⟨h₁, h₂⟩ := habove he
      by_cases hm : m = 2 ^ 52
      · omega
      · have := h₂ hm
        omega

/-! ## Results -/

theorem mantissa_ofMantissaAndAccuracy (q : Nat) (a : Accuracy) :
    (ExtendedMantissa.ofMantissaAndAccuracy q a).mantissa = q := by
  cases a with
  | exact => rfl
  | inexact o => cases o <;> rfl

/-- The first shift of a rounding. -/
theorem approximates_shift {q : Nat} {t : Int} {a : Accuracy} {x : ℚ}
    (hx : Approximates (.ofMantissaAndAccuracy q a) x) (ht : t ≤ max (q.log2 + t - 52) (-1074)) :
    ∃ em y, shiftToTargetExponent Format.binary64 q t a = (em, max (q.log2 + t - 52) (-1074)) ∧
      Approximates em y ∧ x * 2 ^ t = y * 2 ^ max (q.log2 + t - 52) (-1074) := by
  obtain ⟨k, hk⟩ : ∃ k : Nat, k = (max (q.log2 + t - 52) (-1074) - t).toNat := ⟨_, rfl⟩
  have hkt : t + k = max (q.log2 + t - 52) (-1074) := by omega
  refine ⟨ExtendedMantissa.ofMantissaAndAccuracy q a >>> k, x / 2 ^ k, ?_, hx.shiftRight k, ?_⟩
  · rw [shiftToTargetExponent, targetExponent_eq, shiftToExponent, ← hk, hkt]
  · rw [← hkt, zpow_add₀ (by norm_num), zpow_natCast]
    field_simp

/-- What lies in the interval of a double is rounded to it. -/
theorem roundWithAccuracy_eq {q m : Nat} {t e : Int} {a : Accuracy} {x : ℚ} (s : Sign) (hc : Normalized m e)
    (hx : Approximates (.ofMantissaAndAccuracy q a) x) (hr : Rounds (x * 2 ^ t) m e)
    (ht : t ≤ max (q.log2 + t - 52) (-1074)) :
    roundWithAccuracy Format.binary64 s q t a = .finite s m e hc.pos := by
  have hle := hx.le
  have hlt := hx.lt
  rw [mantissa_ofMantissaAndAccuracy] at hle hlt
  have hcases := targetExponent_cases hc hle hlt hr ht
  have hgap := gap_le m e
  have hnonneg := gap_nonneg m e
  obtain ⟨em, y, hfirst, happrox, hvalue⟩ := approximates_shift hx ht
  rw [roundWithAccuracy, hfirst]
  dsimp only
  rw [hvalue] at hr
  rcases hcases with he | ⟨he, rfl, hlow⟩
  · rw [he] at hr
    have hp := two_zpow_pos e
    have hrounded := happrox.rounded (m := m)
      (by
        have := le_of_mul_le_mul_right hr.low hp
        linarith)
      (le_of_mul_le_mul_right hr.high hp)
      (fun ho => by
        obtain ⟨h₁, h₂⟩ := hr.strict ho
        have := lt_of_mul_lt_mul_right h₁ hp.le
        exact ⟨by linarith, lt_of_mul_lt_mul_right h₂ hp.le⟩)
    rw [hrounded, he, shift_of_normalized hc]
    simp [hc.pos.ne']
  · rw [he] at hr
    have hp := two_zpow_pos (e - 1)
    have htwo : (2 : ℚ) ^ e = 2 * 2 ^ (e - 1) := by
      rw [← zpow_one_add₀ (by norm_num)]
      congr 1
      ring
    have hg : gap (2 ^ 52) e = 1 := by simp [gap, hlow.ne']
    have hrlow := hr.low
    rw [hg, htwo, ← mul_assoc] at hrlow
    have hrounded := happrox.rounded (m := 2 ^ 53)
      (by
        have := le_of_mul_le_mul_right hrlow hp
        push_cast at this ⊢
        linarith)
      (by
        have hbelow : x * 2 ^ t < 2 ^ (53 + (e - 1)) :=
          lt_of_lt_of_le (lt_zpow_log2 hlt t) (zpow_le_zpow_right₀ (by norm_num) (by omega))
        rw [hvalue, he, zpow_add₀ (by norm_num)] at hbelow
        have := lt_of_mul_lt_mul_right hbelow hp.le
        push_cast
        norm_num at this ⊢
        linarith)
      (by norm_num)
    rw [hrounded, he, shift_of_overflow (by omega)]
    simp

/-- Up to the middle between zero and the least double, everything is rounded to zero. -/
theorem roundWithAccuracy_eq_zero {q : Nat} {t : Int} {a : Accuracy} {x : ℚ} (s : Sign)
    (hx : Approximates (.ofMantissaAndAccuracy q a) x) (hlow : x * 2 ^ t ≤ 2 ^ (-1075 : Int))
    (ht : t ≤ max (q.log2 + t - 52) (-1074)) : roundWithAccuracy Format.binary64 s q t a = .zero s := by
  have hle := hx.le
  rw [mantissa_ofMantissaAndAccuracy] at hle
  have he : max (q.log2 + t - 52) (-1074) = -1074 := by
    by_cases hq0 : q = 0
    · subst hq0
      simp only [Nat.log2_zero, Nat.cast_zero, zero_add] at ht ⊢
      omega
    · have := (zpow_le_zpow_iff_right₀ (by norm_num)).1 ((zpow_log2_le hq0 hle t).trans hlow)
      omega
  obtain ⟨em, y, hfirst, happrox, hvalue⟩ := approximates_shift hx ht
  rw [he] at hfirst hvalue
  have hhalf : y ≤ 1 / 2 := by
    rw [hvalue, show (-1075 : Int) = -1 + -1074 from rfl, zpow_add₀ (by norm_num)] at hlow
    have := le_of_mul_le_mul_right hlow (two_zpow_pos _)
    norm_num at this ⊢
    exact this
  have hnonneg : 0 ≤ y := (Nat.cast_nonneg _).trans happrox.le
  have hrounded := happrox.rounded (m := 0) (by push_cast; linarith) (by push_cast; linarith) (by norm_num)
  rw [roundWithAccuracy, hfirst]
  dsimp only
  rw [hrounded]
  rfl

/-- `u` is what `x` is rounded to, from an approximation with all the digits that count. -/
inductive Rounded : ℚ → UnpackedFloat → Prop
  | mk {q : Nat} {t : Int} {a : Accuracy} {x : ℚ} (hx : Approximates (.ofMantissaAndAccuracy q a) x)
      (ht : t ≤ max (q.log2 + t - 52) (-1074)) :
      Rounded (x * 2 ^ t) (roundWithAccuracy Format.binary64 .positive q t a)

theorem Rounded.eq_finite {x : ℚ} {u : UnpackedFloat} {m : Nat} {e : Int} (h : Rounded x u)
    (hc : Normalized m e) (hr : Rounds x m e) : u = .finite .positive m e hc.pos := by
  obtain ⟨hx, ht⟩ := h
  exact roundWithAccuracy_eq .positive hc hx hr ht

theorem Rounded.eq_zero {x : ℚ} {u : UnpackedFloat} (h : Rounded x u) (hlow : x ≤ 2 ^ (-1075 : Int)) :
    u = .zero .positive := by
  obtain ⟨hx, ht⟩ := h
  exact roundWithAccuracy_eq_zero .positive hx hlow ht

/-- A factor that is a power of two adds its digits. -/
theorem log2_add_le {c : Nat} (hc : 0 < c) (k : Nat) : c.log2 + k ≤ (c * 2 ^ k).log2 := by
  rw [Nat.le_log2 (by positivity), Nat.pow_add]
  exact Nat.mul_le_mul_right _ (Nat.log2_self_le hc.ne')

/-- A whole number is shifted up to have all the digits of a mantissa, and then rounded. -/
theorem rounded_round {c : Nat} (hc : 0 < c) : Rounded c (UnpackedFloat.round Format.binary64 .positive c 0) := by
  obtain ⟨k, hk⟩ : ∃ k, k = 52 - c.log2 := ⟨_, rfl⟩
  have hs : (0 - max (c.log2 + 0 - 52 : Int) (-1074)).toNat = k := by omega
  have hlog := log2_add_le hc k
  have hvalue : ((c * 2 ^ k : Nat) : ℚ) * 2 ^ (0 - (k : Int)) = c := by
    rw [zero_sub, zpow_neg, zpow_natCast]
    push_cast
    field_simp
  rw [UnpackedFloat.round, targetExponent_eq, decreaseExponent, hs, Nat.shiftLeft_eq, ← hvalue]
  exact .mk (approximates_exact _) (by omega)

/-- Quotients are rounded once. -/
theorem rounded_div {m₁ m₂ : Nat} {e₁ e₂ : Int} (h₁ : 0 < m₁) (h₂ : 0 < m₂) :
    Rounded (m₁ * 2 ^ e₁ / (m₂ * 2 ^ e₂))
      (UnpackedFloat.div Format.binary64 (.finite .positive m₁ e₁ h₁) (.finite .positive m₂ e₂ h₂)) := by
  -- the exponent of the quotient is low enough to leave all digits of the mantissa
  obtain ⟨t, ht⟩ : ∃ t, t = min (e₁ - e₂) (max (m₁.log2 + e₁ - (m₂.log2 + e₂) - 53) (-1074)) := ⟨_, rfl⟩
  have htarget : min (e₁ - e₂)
      (Format.binary64.targetExponent (totalExponent m₁ e₁ - totalExponent m₂ e₂)) = t := by
    rw [ht]
    simp only [Format.targetExponent, totalExponent, Format.mantissaBits, Format.minExponent]
    norm_num
    omega
  obtain ⟨k, hk⟩ : ∃ k : Nat, k = (e₁ - e₂ - t).toNat := ⟨_, rfl⟩
  have hkt : (k : Int) = e₁ - e₂ - t := by omega
  have hcore : divCore Format.binary64 m₁ e₁ m₂ e₂ =
      (m₁ * 2 ^ k / m₂, t, accuracyOfFraction (m₁ * 2 ^ k % m₂) m₂) := by
    rw [divCore, htarget, ← hk, Nat.shiftLeft_eq]
  have hvalue : (m₁ * 2 ^ k : Nat) / m₂ * (2 : ℚ) ^ t = m₁ * 2 ^ e₁ / (m₂ * 2 ^ e₂) := by
    have hpow : (2 : ℚ) ^ e₁ = 2 ^ k * 2 ^ e₂ * 2 ^ t := by
      rw [← zpow_natCast, ← zpow_add₀ (by norm_num), ← zpow_add₀ (by norm_num), hkt]
      congr 1
      ring
    have hm₂ : (m₂ : ℚ) ≠ 0 := by exact_mod_cast h₂.ne'
    have he₂ := (two_zpow_pos e₂).ne'
    rw [hpow]
    push_cast
    field_simp
  have hdigits : t ≤ max ((m₁ * 2 ^ k / m₂).log2 + t - 52) (-1074) := by
    by_cases hlow : t ≤ -1074
    · exact le_max_of_le_right hlow
    · have hq : 2 ^ 52 ≤ m₁ * 2 ^ k / m₂ := by
        rw [Nat.le_div_iff_mul_le h₂]
        calc 2 ^ 52 * m₂ ≤ 2 ^ 52 * 2 ^ (m₂.log2 + 1) := Nat.mul_le_mul_left _ Nat.lt_log2_self.le
          _ = 2 ^ (52 + (m₂.log2 + 1)) := (Nat.pow_add ..).symm
          _ ≤ 2 ^ (m₁.log2 + k) := Nat.pow_le_pow_right (by decide) (by omega)
          _ = 2 ^ m₁.log2 * 2 ^ k := Nat.pow_add ..
          _ ≤ m₁ * 2 ^ k := Nat.mul_le_mul_right _ (Nat.log2_self_le h₁.ne')
      have hlog := (Nat.le_log2 (Nat.ne_of_gt (Nat.lt_of_lt_of_le (by decide) hq))).2 hq
      omega
  rw [UnpackedFloat.div, hcore, ← hvalue]
  exact .mk (approximates_div _ h₂) hdigits

end DocScript.Rounding
