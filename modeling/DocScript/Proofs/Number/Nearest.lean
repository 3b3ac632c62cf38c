import DocScript.Proofs.Number.Reading

/-!
# The nearest double

`Number.Nearest q x` says that `x` is the double nearest to the number `q`, where a tie goes to the even mantissa :
`q` lies in the interval of `x`, or it is too small for the least double, or too great for the greatest
one. Every number that is not too small lies in the interval of a mantissa and an exponent (`exists_rounds`), and
rounding finds them (`Rounded.nearest`). So a count becomes the nearest double (`Number.nearest_ofNat`), and a
decimal is read as the nearest double (`Number.nearest_ofScientific`), however many digits it has.
-/

namespace DocScript

open Float.Model Float.Model.UnpackedFloat Rounding

namespace Rounding

/-- Rounding to a whole number, where a tie goes to the even one. -/
theorem exists_even {y : ℚ} (hy : 0 ≤ y) :
    ∃ n : Nat, (n - 1 / 2 : ℚ) ≤ y ∧ y ≤ (n + 1 / 2 : ℚ) ∧
      (n % 2 = 1 → (n - 1 / 2 : ℚ) < y ∧ y < (n + 1 / 2 : ℚ)) := by
  obtain ⟨a, ha⟩ : ∃ a, a = ⌊y⌋₊ := ⟨_, rfl⟩
  have hle : (a : ℚ) ≤ y := ha ▸ Nat.floor_le hy
  have hlt : y < a + 1 := ha ▸ Nat.lt_floor_add_one y
  rcases lt_trichotomy y (a + 1 / 2) with h | h | h
  · exact ⟨a, by linarith, h.le, fun _ => ⟨by linarith, h⟩⟩
  · rcases Nat.mod_two_eq_zero_or_one a with hpar | hpar
    · exact ⟨a, by linarith, h.le, fun ho => by omega⟩
    · refine ⟨a + 1, ?_, ?_, fun ho => by omega⟩ <;> push_cast <;> linarith
  · refine ⟨a + 1, ?_, ?_, fun _ => ⟨?_, ?_⟩⟩ <;> push_cast <;> linarith

/-- An interval, in units of the last digit. -/
theorem rounds_mul {m : Nat} {e : Int} {y : ℚ} (hlow : (m - gap m e / 4 : ℚ) ≤ y) (hhigh : y ≤ (m + 1 / 2 : ℚ))
    (hstrict : m % 2 = 1 → (m - gap m e / 4 : ℚ) < y ∧ y < (m + 1 / 2 : ℚ)) : Rounds (y * 2 ^ e) m e := by
  have hp := two_zpow_pos e
  refine ⟨mul_le_mul_of_nonneg_right hlow hp.le, mul_le_mul_of_nonneg_right hhigh hp.le, fun ho => ?_⟩
  exact ⟨mul_lt_mul_of_pos_right (hstrict ho).1 hp, mul_lt_mul_of_pos_right (hstrict ho).2 hp⟩

/-- A number is a count of units of the last digit : below `2 ^ 53`, and from `2 ^ 52` on, if the unit is not
the least one. -/
theorem exists_units {x : ℚ} (hx : 2 ^ (-1075 : Int) < x) :
    ∃ (y : ℚ) (e : Int), x = y * 2 ^ e ∧ -1074 ≤ e ∧ 1 / 2 < y ∧ y < 2 ^ 53 ∧ (e ≠ -1074 → 2 ^ 52 ≤ y) := by
  have hpos : 0 < x := (two_zpow_pos _).trans hx
  have hlow : (2 : ℚ) ^ Int.log 2 x ≤ x := by exact_mod_cast Int.zpow_log_le_self (b := 2) (by decide) hpos
  have hhigh : x < 2 ^ (Int.log 2 x + 1) := by exact_mod_cast Int.lt_zpow_succ_log_self (b := 2) (by decide) x
  obtain ⟨e, he⟩ : ∃ e, e = max (Int.log 2 x - 52) (-1074) := ⟨_, rfl⟩
  have hp := two_zpow_pos e
  refine ⟨x / 2 ^ e, e, (div_mul_cancel₀ _ hp.ne').symm, by omega, ?_, ?_, fun hne => ?_⟩
  · rw [lt_div_iff₀ hp]
    by_cases hne : e = -1074
    · have hhalf : (1 / 2 : ℚ) * 2 ^ e = 2 ^ (-1075 : Int) := by
        rw [hne, show (-1075 : Int) = -1 + -1074 from rfl, zpow_add₀ (by norm_num), zpow_neg_one, one_div]
      rwa [hhalf]
    · calc (1 / 2 : ℚ) * 2 ^ e < 1 * 2 ^ e := mul_lt_mul_of_pos_right (by norm_num) hp
        _ = 2 ^ e := one_mul _
        _ ≤ 2 ^ Int.log 2 x := zpow_le_zpow_right₀ (by norm_num) (by omega)
        _ ≤ x := hlow
  · rw [div_lt_iff₀ hp, ← zpow_natCast, ← zpow_add₀ (by norm_num)]
    exact hhigh.trans_le (zpow_le_zpow_right₀ (by norm_num) (by push_cast; omega))
  · rw [le_div_iff₀ hp, ← zpow_natCast, ← zpow_add₀ (by norm_num)]
    exact (zpow_le_zpow_right₀ (by norm_num) (by push_cast; omega)).trans hlow

/-- A number that is not rounded to zero lies in the interval of a mantissa and an exponent. -/
theorem exists_rounds {x : ℚ} (hx : 2 ^ (-1075 : Int) < x) : ∃ m e, Normalized m e ∧ Rounds x m e := by
  obtain ⟨y, e, rfl, he, hhalf, hlt, hnormal⟩ := exists_units hx
  obtain ⟨n, hlow, hhigh, hstrict⟩ := exists_even (y := y) (by linarith)
  have hpos : 0 < n := by
    rcases Nat.eq_zero_or_pos n with rfl | h
    · norm_num at hhigh
      linarith
    · exact h
  have hle : n ≤ 2 ^ 53 := by
    have : (n : ℚ) < 2 ^ 53 + 1 := by linarith
    exact Nat.lt_succ_iff.1 (by exact_mod_cast this)
  rcases Nat.lt_or_eq_of_le hle with hn | rfl
  · have hbits : e ≠ -1074 → 2 ^ 52 ≤ n := fun hne => by
      have : (2 ^ 52 : ℚ) < n + 1 := by linarith [hnormal hne]
      exact Nat.lt_succ_iff.1 (by exact_mod_cast this)
    refine ⟨n, e, ⟨hpos, hn, he, ?_⟩, rounds_mul ?_ hhigh fun ho => ?_⟩
    · by_cases hne : e = -1074
      · exact .inr hne
      · exact .inl (hbits hne)
    · unfold gap
      split
      · next h =>
        have := hnormal h.2
        rw [h.1]
        norm_num at this ⊢
        linarith
      · norm_num
        linarith
    · have hg : gap n e = 2 := by
        rw [gap, if_neg]
        omega
      rw [hg]
      norm_num at hstrict ⊢
      exact hstrict ho
  · -- rounded up to the next power of two
    have htwo : y * 2 ^ e = y / 2 * 2 ^ (e + 1) := by
      rw [zpow_add_one₀ (by norm_num)]
      ring
    have hg : gap (2 ^ 52) (e + 1) = 1 := by
      rw [gap, if_pos]
      omega
    refine ⟨2 ^ 52, e + 1, ⟨by decide, by decide, by omega, .inl le_rfl⟩, ?_⟩
    rw [htwo]
    refine rounds_mul ?_ ?_ (by norm_num)
    · rw [hg]
      norm_num at hlow ⊢
      linarith
    · norm_num at hlt ⊢
      linarith

end Rounding

namespace Number

/-- `x` is the double nearest to `q`; of two that are as near, the one with the even mantissa. -/
inductive Nearest (q : ℚ) (x : Float) : Prop
  /-- Nearer to zero than to the least double. -/
  | zero (hx : Parts.ofFloat x = .finite false 0 (-1074)) (hq : 0 ≤ q) (hlow : q ≤ 2 ^ (-1075 : Int))
  | finite {m : Nat} {e : Int} (hx : Parts.ofFloat x = .finite false m e) (hm : 0 < m) (hr : Rounds q m e)
  /-- At least half a unit above the greatest double. -/
  | infinite (hx : Parts.ofFloat x = .infinite false) (hq : (2 ^ 53 - 1 / 2 : ℚ) * 2 ^ (971 : Int) ≤ q)

theorem nearest_zero {q : ℚ} (h0 : 0 ≤ q) (hlow : q ≤ 2 ^ (-1075 : Int)) :
    Nearest q (.ofModel (.pack (.zero .positive))) :=
  .zero (by decide +kernel) h0 hlow

/-- What is packed is nearest, or infinite, if its exponent is too great. -/
theorem nearest_pack {q : ℚ} {m : Nat} {e : Int} (hc : Normalized m e) (hr : Rounds q m e) :
    Nearest q (.ofModel (.pack (.finite .positive m e hc.pos))) := by
  by_cases he : e ≤ 971
  · exact .finite (Parts.ofFloat_pack .positive ⟨hc.pos, hc.lt, hc.low, he, hc.normal⟩) hc.pos hr
  · have hm : 2 ^ 52 ≤ m := hc.normal.resolve_right (by omega)
    refine .infinite ?_ ?_
    · rw [Parts.ofFloat_pack_finite, if_pos (by omega)]
      rfl
    · have hunits : (2 ^ 52 - 1 / 4 : ℚ) ≤ m - gap m e / 4 := by
        rcases Nat.lt_or_eq_of_le hm with hlt | rfl
        · have hmq : (2 ^ 52 + 1 : ℚ) ≤ m := by exact_mod_cast hlt
          linarith [gap_le m e]
        · rw [gap, if_pos (by omega)]
          norm_num
      calc (2 ^ 53 - 1 / 2 : ℚ) * 2 ^ (971 : Int) = (2 ^ 52 - 1 / 4 : ℚ) * (2 ^ (971 : Int) * 2) := by
            generalize (2 : ℚ) ^ (971 : Int) = p
            ring
        _ = (2 ^ 52 - 1 / 4 : ℚ) * 2 ^ (971 + 1 : Int) := by rw [zpow_add_one₀ (by norm_num)]
        _ ≤ (m - gap m e / 4 : ℚ) * 2 ^ e :=
            mul_le_mul hunits (zpow_le_zpow_right₀ (by norm_num) (by omega)) (two_zpow_pos _).le (by linarith)
        _ ≤ q := hr.low

end Number

open Number

/-- Rounding finds the nearest double. -/
theorem Rounding.Rounded.nearest {q : ℚ} {u : UnpackedFloat} (h : Rounded q u) (h0 : 0 ≤ q) :
    Nearest q (.ofModel (.pack u)) := by
  by_cases hlow : q ≤ 2 ^ (-1075 : Int)
  · rw [h.eq_zero hlow]
    exact nearest_zero h0 hlow
  · obtain ⟨m, e, hc, hr⟩ := exists_rounds (not_le.1 hlow)
    rw [h.eq_finite hc hr]
    exact nearest_pack hc hr

namespace Number

/-- Counts below `2 ^ 64` become the nearest double. -/
theorem nearest_ofNat {n : Nat} (h : n < 2 ^ 64) : Nearest n (ofNat n) := by
  rcases Nat.eq_zero_or_pos n with rfl | hn
  · exact .zero (by decide +kernel) (by norm_num) (by positivity)
  · have hnat : (UInt64.ofNat n).toNat = n := Nat.mod_eq_of_lt h
    change Nearest n (.ofModel (.pack (UnpackedFloat.normalize Format.binary64 ((UInt64.ofNat n).toNat : Int) 0
      .positive)))
    rw [hnat, UnpackedFloat.normalize, Int.compare_eq_gt.2 (by omega)]
    simp only [Int.toNat_natCast]
    exact (rounded_round hn).nearest (Nat.cast_nonneg n)

theorem ofScientific_zero (k : Nat) : Float.ofScientific 0 true k = .ofModel (.pack (.zero .positive)) := by
  unfold Float.ofScientific
  split
  · obtain ⟨m, e, hm, hu, -⟩ := unpack_powersOfTen (k := k)
      (by simp [Float.exactlyRepresentablePowersOfTen]; omega)
    simp only [if_true]
    change Float.ofModel (.pack (UnpackedFloat.div Format.binary64 _ _)) = _
    rw [hu, show (0 : Nat).toUInt64.toFloat.toModel.unpack = .zero .positive from rfl]
    rfl
  · rfl

/-- Decimals are read as the nearest double. -/
theorem nearest_ofScientific (c k : Nat) : Nearest (c / 10 ^ k) (Float.ofScientific c true k) := by
  rcases Nat.eq_zero_or_pos c with rfl | hc
  · rw [ofScientific_zero]
    exact nearest_zero (by simp) (by simp)
  · have h0 : (0 : ℚ) ≤ c / 10 ^ k := by positivity
    obtain ⟨u, hu, h | ⟨rfl, hlow⟩⟩ := exists_ofScientific hc k
    · rw [hu]
      exact h.nearest h0
    · rw [hu]
      exact nearest_zero h0 hlow

end Number

end DocScript
