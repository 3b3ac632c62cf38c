import DocScript.Proofs.Number.Rounding
import DocScript.Decimal.Shortest

/-!
# The shortest decimal rounds to its double

`Decimal.shortest` tries more and more digits, and takes a decimal only if it lies in the interval of the
double. What has to be shown is that it finds one. With seventeen digits the double, in units of the last
digit, is at least `10 ^ 16`, which is more than its mantissa; so the midpoints to its neighbours are more
than half a unit away, and the nearest whole number lies between them (`Interval.holds_of_near`).
-/

namespace DocScript

open Rounding

/-! ## Intervals as rational numbers -/

theorem Rounding.zpow_toNat (b : ℚ) (hb : b ≠ 0) (a : Int) : b ^ a * b ^ (-a).toNat = b ^ a.toNat := by
  rw [← zpow_natCast, ← zpow_natCast, ← zpow_add₀ hb]
  congr 1
  omega

namespace Decimal

namespace Interval

/-- `i` is the interval of `m * 2 ^ e` in units of `10 ^ unit`. -/
structure Spans (i : Interval) (m : Nat) (e unit : Int) : Prop where
  scale : 0 < i.scale
  low : (i.low : ℚ) * 10 ^ unit = (m - gap m e / 4) * 2 ^ e * i.scale
  value : (i.value : ℚ) * 10 ^ unit = m * 2 ^ e * i.scale
  high : (i.high : ℚ) * 10 ^ unit = (m + 1 / 2) * 2 ^ e * i.scale
  closed : i.closed = true ↔ m % 2 = 0

theorem low_ofParts (m : Nat) (e : Int) : (ofParts m e).low = (4 * m - gap m e) * 2 ^ (e - 2).toNat := rfl

theorem spans_ofParts {m : Nat} (e : Int) (hm : 0 < m) : (ofParts m e).Spans m e 0 := by
  have hp : ∀ k, Nat.pow 2 k = 2 ^ k := fun _ => rfl
  have hscale : (2 : ℚ) ^ (e - 2) * 2 ^ (2 - e).toNat = 2 ^ (e - 2).toNat := by
    have h := zpow_toNat 2 (by norm_num) (e - 2)
    rwa [show -(e - 2) = 2 - e by ring] at h
  have hfour : (2 : ℚ) ^ e = 4 * 2 ^ (e - 2) := by
    rw [show (4 : ℚ) = 2 ^ (2 : Int) by norm_num, ← zpow_add₀ (by norm_num)]
    congr 1
    ring
  have hgap : gap m e ≤ 4 * m := by
    unfold gap
    split <;> omega
  constructor
  · exact Nat.two_pow_pos _
  · rw [low_ofParts]
    simp only [ofParts, hp]
    push_cast [hgap]
    rw [← hscale, hfour]
    ring
  · simp only [ofParts, hp]
    push_cast
    rw [← hscale, hfour]
    ring
  · simp only [ofParts, hp]
    push_cast
    rw [← hscale, hfour]
    ring
  · simp [ofParts]

theorem Spans.inUnits {i : Interval} {m : Nat} {e : Int} (h : i.Spans m e 0) (unit : Int) :
    (i.inUnits unit).Spans m e unit := by
  have hp : ∀ k, Nat.pow 10 k = 10 ^ k := fun _ => rfl
  have hunit := zpow_toNat 10 (by norm_num) unit
  have hlow := h.low
  have hvalue := h.value
  have hhigh := h.high
  rw [zpow_zero, mul_one] at hlow hvalue hhigh
  constructor
  · exact Nat.mul_pos h.scale (Nat.pow_pos (by decide))
  · simp only [Interval.inUnits, hp]
    push_cast
    rw [← hunit, hlow]
    ring
  · simp only [Interval.inUnits, hp]
    push_cast
    rw [← hunit, hvalue]
    ring
  · simp only [Interval.inUnits, hp]
    push_cast
    rw [← hunit, hhigh]
    ring
  · exact h.closed

variable {i : Interval} {m n : Nat} {e unit : Int}

/-- A bound `b` of the interval against a whole number of units. -/
theorem Spans.bound_le (h : i.Spans m e unit) {b : Nat} {x : ℚ} (hb : (b : ℚ) * 10 ^ unit = x * i.scale) :
    b ≤ n * i.scale ↔ x ≤ n * 10 ^ unit := by
  have hten : (0 : ℚ) < 10 ^ unit := zpow_pos (by norm_num) unit
  have hscale : (0 : ℚ) < i.scale := by exact_mod_cast h.scale
  calc b ≤ n * i.scale
    _ ↔ (b : ℚ) ≤ n * i.scale := by norm_cast
    _ ↔ (b : ℚ) * 10 ^ unit ≤ n * i.scale * 10 ^ unit := (mul_le_mul_iff_left₀ hten).symm
    _ ↔ x * i.scale ≤ n * 10 ^ unit * i.scale := by rw [hb, mul_right_comm]
    _ ↔ x ≤ n * 10 ^ unit := mul_le_mul_iff_left₀ hscale

theorem Spans.le_bound (h : i.Spans m e unit) {b : Nat} {x : ℚ} (hb : (b : ℚ) * 10 ^ unit = x * i.scale) :
    n * i.scale ≤ b ↔ n * 10 ^ unit ≤ x := by
  have hten : (0 : ℚ) < 10 ^ unit := zpow_pos (by norm_num) unit
  have hscale : (0 : ℚ) < i.scale := by exact_mod_cast h.scale
  calc n * i.scale ≤ b
    _ ↔ (n * i.scale : ℚ) ≤ b := by norm_cast
    _ ↔ n * i.scale * 10 ^ unit ≤ (b : ℚ) * 10 ^ unit := (mul_le_mul_iff_left₀ hten).symm
    _ ↔ n * 10 ^ unit * i.scale ≤ x * i.scale := by rw [hb, mul_right_comm]
    _ ↔ n * 10 ^ unit ≤ x := mul_le_mul_iff_left₀ hscale

/-- The whole numbers that are taken are those that round to the double. -/
theorem Spans.holds_iff (h : i.Spans m e unit) : i.holds n = true ↔ Rounds (n * 10 ^ unit) m e := by
  have hlow := h.bound_le (n := n) h.low
  have hhigh := h.le_bound (n := n) h.high
  have hlow' := (h.le_bound (n := n) h.low).not
  have hhigh' := (h.bound_le (n := n) h.high).not
  rw [not_le, not_le] at hlow' hhigh'
  unfold holds
  by_cases hc : m % 2 = 0
  · rw [if_pos (h.closed.2 hc), Bool.and_eq_true, decide_eq_true_iff, decide_eq_true_iff, hlow, hhigh]
    exact ⟨fun hb => ⟨hb.1, hb.2, fun ho => by omega⟩, fun hr => ⟨hr.low, hr.high⟩⟩
  · rw [if_neg (fun ht => hc (h.closed.1 ht)), Bool.and_eq_true, decide_eq_true_iff, decide_eq_true_iff,
      hlow', hhigh']
    exact ⟨fun hb => ⟨hb.1.le, hb.2.le, fun _ => hb⟩, fun hr => hr.strict (by omega)⟩

/-- A number in the interval is found next to the value, if there is one. -/
theorem isSome_nearest? (h : i.holds (i.value / i.scale) = true ∨ i.holds (i.value / i.scale + 1) = true) :
    i.nearest?.isSome = true := by
  unfold nearest?
  dsimp only
  split
  · rfl
  · split
    · rfl
    · simp_all

theorem holds_of_nearest? (h : i.nearest? = some n) : i.holds n = true := by
  unfold nearest? at h
  dsimp only at h
  split at h
  · next hc =>
    obtain rfl : i.value / i.scale = n := by simpa using h
    simp only [Bool.and_eq_true] at hc
    exact hc.1
  · split at h
    · next hc =>
      obtain rfl : i.value / i.scale + 1 = n := by simpa using h
      exact hc
    · nomatch h

theorem two_mul_lt_gap (hc : Canonical m e) : 2 * m < gap m e * 10 ^ 16 := by
  have := hc.lt
  unfold gap
  split <;> omega

/-- Where the value is at least `10 ^ 16` units, whole numbers at most half a unit away are in the interval. -/
theorem holds_of_near (h : i.Spans m e unit) (hc : Canonical m e)
    (hlarge : (10 : ℚ) ^ 16 * 10 ^ unit ≤ m * 2 ^ e)
    (hlow : 2 * i.value ≤ (2 * n + 1) * i.scale) (hhigh : (2 * n) * i.scale ≤ 2 * i.value + i.scale) :
    i.holds n = true := by
  have hten : (0 : ℚ) < 10 ^ unit := zpow_pos (by norm_num) unit
  have hscale : (0 : ℚ) < i.scale := by exact_mod_cast h.scale
  have htwo := two_zpow_pos e
  have hvalue := h.value
  have hm : (m : ℚ) < 2 ^ 53 := by exact_mod_cast hc.lt
  have hpos : (0 : ℚ) < m := by exact_mod_cast hc.pos
  have hlow : (2 * i.value : ℚ) ≤ (2 * n + 1) * i.scale := by exact_mod_cast hlow
  have hhigh : (2 * n * i.scale : ℚ) ≤ 2 * i.value + i.scale := by exact_mod_cast hhigh
  -- the value in units, with half a unit to either side
  have habove : (m * 2 ^ e : ℚ) ≤ (n + 1 / 2) * 10 ^ unit := by
    have : (m * 2 ^ e * i.scale : ℚ) ≤ (n + 1 / 2) * 10 ^ unit * i.scale := by nlinarith
    exact le_of_mul_le_mul_right this hscale
  have hbelow : (n * 10 ^ unit : ℚ) ≤ m * 2 ^ e + 10 ^ unit / 2 := by
    have : (n * 10 ^ unit * i.scale : ℚ) ≤ (m * 2 ^ e + 10 ^ unit / 2) * i.scale := by nlinarith
    exact le_of_mul_le_mul_right this hscale
  -- half a unit is less than the distance to either midpoint
  have hhalf : (10 ^ unit : ℚ) / 2 < gap m e / 4 * 2 ^ e := by
    have hg : (2 * m : ℚ) < gap m e * 10 ^ 16 := by exact_mod_cast two_mul_lt_gap hc
    nlinarith
  have hgap := gap_le m e
  have hl : ((m - gap m e / 4 : ℚ)) * 2 ^ e < n * 10 ^ unit := by nlinarith
  have hh : (n * 10 ^ unit : ℚ) < (m + 1 / 2) * 2 ^ e := by nlinarith
  exact h.holds_iff.2 ⟨hl.le, hh.le, fun _ => ⟨hl, hh⟩⟩

theorem pow_pred_digitCount_le {k : Nat} (hk : k ≠ 0) : 10 ^ (digitCount k - 1) ≤ k := by
  by_contra hlt
  have hd : digitCount k - 1 = 0 ∨ 0 < digitCount k - 1 := Nat.eq_zero_or_pos _
  rcases hd with hd | hd
  · rw [hd] at hlt
    omega
  · have hle := (Nat.length_toDigits_le_iff (b := 10) (by decide) hd).2 (not_le.1 hlt)
    have : digitCount k = (Nat.toDigits 10 k).length := rfl
    omega

theorem lt_pow_digitCount (k : Nat) : k < 10 ^ digitCount k :=
  (Nat.length_toDigits_le_iff (by decide) (List.length_pos_iff.2 Nat.toDigits_ne_nil)).1 le_rfl

/-- The value has the digits that its magnitude says. -/
theorem Spans.magnitude_le (h : i.Spans m e 0) (hm : 0 < m) :
    (10 : ℚ) ^ (i.magnitude - 1) ≤ m * 2 ^ e := by
  have hscale : (0 : ℚ) < i.scale := by exact_mod_cast h.scale
  have hvalue : (i.value : ℚ) = m * 2 ^ e * i.scale := by simpa using h.value
  have hpos : 0 < i.value := by
    have : (0 : ℚ) < i.value := by
      rw [hvalue]
      have := two_zpow_pos e
      positivity
    exact_mod_cast this
  refine le_of_mul_le_mul_right ?_ hscale
  rw [← hvalue]
  unfold magnitude
  split
  · next hle =>
    have hq : i.value / i.scale ≠ 0 := (Nat.div_pos hle h.scale).ne'
    have hd : 0 < digitCount (i.value / i.scale) := List.length_pos_iff.2 Nat.toDigits_ne_nil
    have hpow : 10 ^ (digitCount (i.value / i.scale) - 1) * i.scale ≤ i.value :=
      (Nat.le_div_iff_mul_le h.scale).1 (pow_pred_digitCount_le hq)
    rw [show (digitCount (i.value / i.scale) : Int) - 1 = (digitCount (i.value / i.scale) - 1 : Nat) by omega,
      zpow_natCast]
    exact_mod_cast hpow
  · have hlt : i.scale - 1 < 10 ^ digitCount ((i.scale - 1) / i.value) * i.value :=
      (Nat.div_lt_iff_lt_mul hpos).1 (lt_pow_digitCount _)
    have hle : (i.scale : ℚ) ≤ 10 ^ digitCount ((i.scale - 1) / i.value) * i.value := by
      exact_mod_cast (by omega : i.scale ≤ 10 ^ digitCount ((i.scale - 1) / i.value) * i.value)
    rw [show (1 : Int) - digitCount ((i.scale - 1) / i.value) - 1 = -digitCount ((i.scale - 1) / i.value) by ring,
      zpow_neg, zpow_natCast, inv_mul_le_iff₀ (by positivity)]
    exact hle

/-- Seventeen digits always suffice. -/
theorem isSome_withDigits? (hc : Canonical m e) : (withDigits? (ofParts m e) 17).isSome = true := by
  have h := spans_ofParts e hc.pos
  have hu := h.inUnits ((ofParts m e).magnitude - (17 : Nat))
  have hlarge : (10 : ℚ) ^ 16 * 10 ^ ((ofParts m e).magnitude - (17 : Nat)) ≤ m * 2 ^ e := by
    refine le_of_eq_of_le ?_ (h.magnitude_le hc.pos)
    rw [← zpow_natCast, ← zpow_add₀ (by norm_num)]
    congr 1
    push_cast
    ring
  obtain ⟨j, hj⟩ : ∃ j, j = (ofParts m e).inUnits ((ofParts m e).magnitude - (17 : Nat)) := ⟨_, rfl⟩
  rw [withDigits?, Option.isSome_map]
  rw [← hj] at hu ⊢
  apply isSome_nearest?
  have hdiv := Nat.div_add_mod j.value j.scale
  have hmod := Nat.mod_lt j.value hu.scale
  have hnonneg := Nat.zero_le (j.value % j.scale)
  by_cases hr : 2 * (j.value % j.scale) ≤ j.scale
  · left
    apply holds_of_near hu hc hlarge <;> nlinarith
  · right
    apply holds_of_near hu hc hlarge <;> nlinarith

end Interval

/-- The shortest decimal of a double rounds to it. -/
theorem rounds_shortest {m : Nat} {e : Int} (hc : Canonical m e) :
    Rounds ((shortest m e).coefficient * 10 ^ (shortest m e).exponent) m e := by
  obtain ⟨d, hd⟩ : ∃ d, ((List.range 17).findSome? fun n => withDigits? (.ofParts m e) (n + 1)) = some d := by
    rw [← Option.isSome_iff_exists, List.findSome?_isSome_iff]
    exact ⟨16, by decide, Interval.isSome_withDigits? hc⟩
  have hs : shortest m e = d := by
    simp [shortest, hc.pos.ne', hd]
  obtain ⟨n, -, hn⟩ := List.exists_of_findSome?_eq_some hd
  obtain ⟨k, hk, rfl⟩ := Option.map_eq_some_iff.1 hn
  rw [hs]
  exact ((Interval.spans_ofParts e hc.pos).inUnits _).holds_iff.1 (Interval.holds_of_nearest? hk)

end Decimal

end DocScript
