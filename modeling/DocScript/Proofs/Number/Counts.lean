import DocScript.Machine
import DocScript.Proofs.Number.Equality
import DocScript.Proofs.Number.Text

/-!
# Counts as numbers

A count below `2 ^ 53` is a number without rounding (`Number.parts_ofNat`). The places of numbers in the total order
follow their values (`Number.rank_lt_rank`), so those of counts follow the counts, and a number has the
position `i` exactly if it is the count `i`, up to the sign of zero (`Machine.position?_eq_some_iff`).
-/

namespace DocScript

open Rounding

/-! ## The total order -/

namespace Parts

variable {x : Float} {m : Nat} {e : Int}

/-- The mantissa and the exponent of a number that is not negative. -/
theorem bounds_of_finite (h : ofFloat x = finite false m e) : m < 2 ^ 53 ∧ -1074 ≤ e ∧ (2 ^ 52 ≤ m ∨ e = -1074) := by
  rcases Nat.eq_zero_or_pos m with rfl | hm
  · obtain rfl := exponent_of_zero h
    exact ⟨by decide, by decide, .inr rfl⟩
  · have hc := canonical_of_finite h hm
    exact ⟨hc.lt, hc.low, hc.normal⟩

/-- The encoding counts the numbers that are not negative, from zero on. -/
theorem toNat_toBits (h : ofFloat x = finite false m e) :
    x.toBits.toNat < 2 ^ 63 ∧ (x.toBits.toNat : Int) = (e + 1074) * 2 ^ 52 + m := by
  obtain ⟨hlt, hlow, hnormal⟩ := bounds_of_finite h
  obtain ⟨hsign, hbiased, hfraction, -⟩ := fields_of_finite h
  have hbits := x.toBits.toNat_lt
  have hpos : x.toBits.toNat / 2 ^ 63 ≠ 1 := by simpa using hsign
  refine ⟨by omega, ?_⟩
  split at hbiased <;> omega

end Parts

namespace Number

variable {x y : Float}

theorem toNat_rank (x : Float) : (rank x).toNat =
    if x.toBits.toNat < 2 ^ 63 then x.toBits.toNat + 2 ^ 63 else 2 ^ 64 - 1 - x.toBits.toNat := by
  have hbits := x.toBits.toNat_lt
  have hsign : x.toBits >>> 63 = 0 ↔ x.toBits.toNat < 2 ^ 63 := by
    have hshift : UInt64.toNat 63 % 64 = 63 := rfl
    rw [← UInt64.toNat_inj, UInt64.toNat_shiftRight, hshift, Nat.shiftRight_eq_div_pow, UInt64.toNat_zero]
    omega
  simp only [rank, hsign]
  split
  · next h =>
    have htop : UInt64.toNat 0x8000000000000000 = 2 ^ 63 * 1 := rfl
    rw [UInt64.toNat_or, htop, Nat.or_comm, ← Nat.two_pow_add_eq_or_of_lt h]
    omega
  · rw [UInt64.toNat_not]
    rfl

theorem eq_of_rank (h : rank x = rank y) : x = y := by
  have hnat := congrArg UInt64.toNat h
  have hx := x.toBits.toNat_lt
  have hy := y.toBits.toNat_lt
  rw [toNat_rank, toNat_rank] at hnat
  refine eq_of_toBits (UInt64.toNat_inj.1 ?_)
  split at hnat <;> split at hnat <;> omega

/-- Of two numbers that are not negative, the lesser one comes first. -/
theorem rank_lt_rank {m m' : Nat} {e e' : Int} (hx : Parts.ofFloat x = .finite false m e)
    (hy : Parts.ofFloat y = .finite false m' e') (h : (m * 2 ^ e : ℚ) < m' * 2 ^ e') : rank x < rank y := by
  obtain ⟨hlt, hlow, hnormal⟩ := Parts.bounds_of_finite hx
  obtain ⟨hlt', hlow', hnormal'⟩ := Parts.bounds_of_finite hy
  obtain ⟨hsign, hbits⟩ := Parts.toNat_toBits hx
  obtain ⟨hsign', hbits'⟩ := Parts.toNat_toBits hy
  have hbelow : x.toBits.toNat < y.toBits.toNat := by
    rcases lt_trichotomy e e' with he | rfl | he
    · omega
    · have hm : (m : ℚ) < m' := lt_of_mul_lt_mul_right h (two_zpow_pos e).le
      have hm : m < m' := by exact_mod_cast hm
      omega
    · -- a greater exponent with a full mantissa gives the greater number
      have hm : 2 ^ 52 ≤ m := hnormal.resolve_right (by omega)
      have hge : (m' * 2 ^ e' : ℚ) ≤ m * 2 ^ e := by
        calc (m' * 2 ^ e' : ℚ) ≤ 2 ^ (53 : Int) * 2 ^ e' :=
              mul_le_mul_of_nonneg_right (by exact_mod_cast hlt'.le) (two_zpow_pos e').le
          _ = 2 ^ (52 : Int) * 2 ^ (e' + 1) := by
              rw [← zpow_add₀ (by norm_num), ← zpow_add₀ (by norm_num)]
              congr 1
              omega
          _ ≤ m * 2 ^ e :=
              mul_le_mul (by exact_mod_cast hm) (zpow_le_zpow_right₀ (by norm_num) he) (two_zpow_pos _).le
                (Nat.cast_nonneg m)
      exact absurd h hge.not_gt
  rw [UInt64.lt_iff_toNat_lt, toNat_rank, toNat_rank, if_pos hsign, if_pos hsign']
  omega

/-! ## Counts -/

/-- A count is a number without rounding. -/
theorem parts_ofNat {i : Nat} (h : i < 2 ^ 53) :
    ∃ m e, Parts.ofFloat (ofNat i) = .finite false m e ∧ (m * 2 ^ e : ℚ) = i := by
  rcases Nat.eq_zero_or_pos i with rfl | hi
  · exact ⟨0, -1074, by decide +kernel, by simp⟩
  · obtain ⟨m, e, hc, hunpack, hvalue⟩ := unpack_toFloat hi h
    refine ⟨m, e, ?_, hvalue⟩
    have hpack : ofNat i = .ofModel (.pack (.finite .positive m e hc.pos)) := by
      rw [← hunpack]
      exact pack_unpack (by simp [ofNat, hunpack])
    rw [hpack, Parts.ofFloat_pack .positive hc]
    rfl

/-- Counts come in their order. -/
theorem rank_ofNat_lt {i j : Nat} (h : i < j) (hj : j < 2 ^ 53) : rank (ofNat i) < rank (ofNat j) := by
  obtain ⟨m, e, hi, hvalue⟩ := parts_ofNat (h.trans hj)
  obtain ⟨m', e', hj, hvalue'⟩ := parts_ofNat hj
  refine rank_lt_rank hi hj ?_
  rw [hvalue, hvalue']
  exact_mod_cast h

theorem whole?_of_eq {m n : Nat} {e : Int} (h : (m * 2 ^ e : ℚ) = n) : whole? m e = some n := by
  have hpow : ∀ k, Nat.pow 2 k = 2 ^ k := fun _ => rfl
  have hnat : m * 2 ^ e.toNat = n * 2 ^ (-e).toNat := by
    have hz := zpow_toNat 2 (by norm_num) e
    have hq : (m * 2 ^ e.toNat : ℚ) = n * 2 ^ (-e).toNat := by
      rw [← h, ← hz]
      ring
    exact_mod_cast hq
  simp only [whole?, hpow]
  rcases le_or_gt 0 e with he | he
  · have hdown : (-e).toNat = 0 := by omega
    rw [hdown, Nat.pow_zero, Nat.mul_one] at hnat
    rw [hdown, Nat.pow_zero, if_pos (Nat.mod_one m), Nat.div_one, hnat]
  · have hup : e.toNat = 0 := by omega
    rw [hup, Nat.pow_zero, Nat.mul_one] at hnat
    rw [hnat, if_pos (Nat.mul_mod_left ..), Nat.mul_div_cancel _ (Nat.two_pow_pos _), hup, Nat.pow_zero, Nat.mul_one]

theorem ofNat_inj {i j : Nat} (hi : i < 2 ^ 53) (hj : j < 2 ^ 53) (h : ofNat i = ofNat j) : i = j := by
  rcases Nat.lt_trichotomy i j with hlt | rfl | hlt
  · exact absurd (rank_ofNat_lt hlt hj) (h ▸ UInt64.lt_irrefl _)
  · rfl
  · exact absurd (rank_ofNat_lt hlt hi) (h ▸ UInt64.lt_irrefl _)

end Number

namespace Machine

open Number

theorem position?_ofNat {i : Nat} (h : i < 2 ^ 53) : position? (ofNat i) = some i := by
  obtain ⟨m, e, hparts, hvalue⟩ := parts_ofNat h
  simp only [position?, hparts, Bool.false_and, Bool.false_eq_true, if_false]
  exact whole?_of_eq hvalue

/-- A number has a position if it is the count, where both zeros are one. -/
theorem position?_eq_some_iff {x : Float} {i : Nat} (h : i < 2 ^ 53) :
    position? x = some i ↔ (if x == 0 then 0 else x) = ofNat i := by
  have hzero : (0 : Float) = ofNat 0 := by decide +kernel
  constructor
  · intro hx
    unfold position? at hx
    split at hx
    · next n m e hparts =>
      split at hx
      · contradiction
      · next hsign =>
        have hvalue := whole?_eq_some hx
        rcases Nat.eq_zero_or_pos m with rfl | hm
        · obtain rfl : i = 0 := by simpa using hvalue
          have hbeq : (x == 0) = true := by
            rcases Parts.eq_zero_of_finite hparts with rfl | rfl <;> decide +kernel
          rw [if_pos hbeq, hzero]
        · obtain rfl : n = false := by simpa [hm.ne'] using hsign
          obtain ⟨m', e', hparts', hvalue'⟩ := parts_ofNat h
          rw [if_neg (by rw [Parts.beq_zero_of_finite hparts hm]; decide), ← ofScientific_whole hparts hvalue]
          exact ofScientific_whole hparts' hvalue'.symm
    · contradiction
  · intro hx
    split at hx
    · next hbeq =>
      obtain rfl : 0 = i := ofNat_inj (by decide) h (hzero.symm.trans hx)
      rcases eq_zero_of_beq hbeq with rfl | rfl <;> decide +kernel
    · rw [hx, position?_ofNat h]

end Machine

end DocScript
