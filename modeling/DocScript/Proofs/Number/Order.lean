import DocScript.Proofs.Number.Counts

/-!
# The order of numbers

`Number.rank` looks only at the encoding of a number. Here it is compared with the order `<` of doubles, which unpacks them.
Doubles other than NaN have a place on a line of whole numbers with the zeros in the middle (`Number.place`), and both orders
are the order of these places. So the ranks of numbers, with both zeros as one, are in the order of the numbers, and NaN
has the greatest rank (`Number.rank_lt_iff`).
-/

namespace DocScript.Number

open Float.Model Float.Model.UnpackedFloat Rounding

variable {x y : Float}

/-! ## Places -/

/-- An unpacked double other than NaN, with a mantissa and an exponent that an encoding has. -/
inductive Regular : UnpackedFloat → Prop
  | zero (s : Sign) : Regular (.zero s)
  | infinity (s : Sign) : Regular (.infinity s)
  | finite (s : Sign) {m : Nat} {e : Int} (h : Canonical m e) : Regular (.finite s m e h.pos)

/-- How many doubles an unpacked one is above zero. It is negative below zero. -/
def place : UnpackedFloat → Int
  | .infinity .positive => 2047 * 2 ^ 52
  | .infinity .negative => -(2047 * 2 ^ 52)
  | .finite .positive m e _ => (e + 1074) * 2 ^ 52 + m
  | .finite .negative m e _ => -((e + 1074) * 2 ^ 52 + m)
  | _ => 0

/-- Finite numbers lie between zero and infinity. -/
theorem place_bounds {m : Nat} {e : Int} (h : Canonical m e) :
    0 < (e + 1074) * 2 ^ 52 + m ∧ (e + 1074) * 2 ^ 52 + m < 2047 * 2 ^ 52 := by
  obtain ⟨hpos, hlt, hlow, hhigh, -⟩ := h
  omega

/-- The exponent decides between two places, and then the mantissa. -/
theorem place_lt_place {m m' : Nat} {e e' : Int} (h : Canonical m e) (h' : Canonical m' e') :
    (e + 1074) * 2 ^ 52 + m < (e' + 1074) * 2 ^ 52 + m' ↔ e < e' ∨ e = e' ∧ m < m' := by
  obtain ⟨-, hlt, hlow, -, hnormal⟩ := h
  obtain ⟨-, hlt', hlow', -, hnormal'⟩ := h'
  omega

/-- Unpacked doubles are in the order of their places. -/
theorem lt_iff_place {u v : UnpackedFloat} (hu : Regular u) (hv : Regular v) : u.lt v = true ↔ place u < place v := by
  rw [UnpackedFloat.lt, beq_iff_eq]
  cases hu with
  | zero s =>
    cases hv with
    | zero t => simp [UnpackedFloat.compare, place]
    | infinity t => cases t <;> simp [UnpackedFloat.compare, place]
    | finite t h =>
      have := place_bounds h
      cases t <;> simp only [UnpackedFloat.compare, place] <;> simp <;> omega
  | infinity s =>
    cases hv with
    | zero t => cases s <;> simp [UnpackedFloat.compare, place]
    | infinity t => cases s <;> cases t <;> decide
    | finite t h =>
      have := place_bounds h
      cases s <;> cases t <;> simp only [UnpackedFloat.compare, place] <;> simp <;> omega
  | finite s h =>
    have := place_bounds h
    cases hv with
    | zero t => cases s <;> simp only [UnpackedFloat.compare, place] <;> simp <;> omega
    | infinity t => cases s <;> cases t <;> simp only [UnpackedFloat.compare, place] <;> simp <;> omega
    | finite t h' =>
      have := place_bounds h'
      cases s <;> cases t <;> simp only [UnpackedFloat.compare, place, Option.some.injEq]
      case positive.positive =>
        rw [place_lt_place h h', Ordering.then_eq_lt, compare_lt_iff_lt, compare_eq_iff_eq, compare_lt_iff_lt]
      case negative.negative =>
        rw [neg_lt_neg_iff, place_lt_place h' h, Ordering.swap_eq_lt, Ordering.then_eq_gt, compare_gt_iff_gt,
          compare_eq_iff_eq, compare_gt_iff_gt]
        omega
      all_goals simp
      all_goals omega

/-! ## Ranks -/

/-- There is one NaN. -/
theorem eq_of_parts_nan (h : Parts.ofFloat x = .nan) : x = .ofModel (.pack .notANumber) := by
  obtain ⟨s, b, f, hx⟩ := exists_components x
  rw [Parts.ofFloat, hx, Parts.ofBits_packComponents, Parts.ofFields] at h
  have hbits : x.toModel.toBits.toBitVec = packComponents Format.binary64 s b f := congrArg UInt64.toBitVec hx
  split at h
  · next hb =>
    split at h
    · contradiction
    · next hf =>
      have hvalid := x.toModel.valid.eq_packedNaN
      rw [hbits, unpackExponent_packComponents, unpackMantissa_packComponents] at hvalid
      apply eq_of_toBits
      rw [hx, hvalid (BitVec.eq_of_toNat_eq hb) fun h0 => hf (by rw [h0]; rfl)]
      rfl
  · split at h <;> contradiction

theorem eq_of_parts_infinite {n : Bool} (h : Parts.ofFloat x = .infinite n) :
    ∃ s, x = .ofModel (.pack (.infinity s)) := by
  obtain ⟨s, b, f, hx⟩ := exists_components x
  rw [Parts.ofFloat, hx, Parts.ofBits_packComponents, Parts.ofFields] at h
  split at h
  · next hb =>
    split at h
    · next hf =>
      obtain rfl : b = -1#11 := BitVec.eq_of_toNat_eq hb
      obtain rfl : f = 0#52 := BitVec.eq_of_toNat_eq hf
      exact ⟨s, eq_of_toBits hx⟩
    · contradiction
  · split at h <;> contradiction

/-- The rank of a number whose place is `p`. A negative zero has a rank, but no place of its own. -/
def rankAt (p : Int) : Int := if p < 0 then 2 ^ 63 - 1 + p else 2 ^ 63 + p

theorem rankAt_lt_rankAt {p q : Int} : rankAt p < rankAt q ↔ p < q := by
  unfold rankAt
  split <;> split <;> omega

/-- No number has the rank of NaN or a greater one. -/
theorem rankAt_place_lt {u : UnpackedFloat} (h : Regular u) : rankAt (place u) < 2 ^ 64 - 2 ^ 51 := by
  have hlast : rankAt (2047 * 2 ^ 52 + 1) < 2 ^ 64 - 2 ^ 51 := by decide
  refine lt_trans (rankAt_lt_rankAt.2 ?_) hlast
  cases h with
  | zero s => simp [place]
  | infinity s => cases s <;> simp [place]
  | finite s hc =>
    have := place_bounds hc
    cases s <;> simp only [place] <;> omega

/-- A finite double other than zero is unpacked to its parts. -/
theorem unpack_of_parts {n : Bool} {m : Nat} {e : Int} (h : Parts.ofFloat x = .finite n m e) (hm : 0 < m) :
    x.toModel.unpack = .finite (if n then .negative else .positive) m e hm := by
  obtain ⟨s, hc, rfl, rfl⟩ := Parts.exists_eq_pack h hm
  rw [Parts.unpack_pack s hc]
  cases s <;> rfl

/-- The encoding without its sign is the distance to zero. -/
theorem toNat_rank_of_finite {n : Bool} {m : Nat} {e : Int} (h : Parts.ofFloat x = .finite n m e) (hm : 0 < m) :
    ((rank x).toNat : Int) = rankAt (if n then -((e + 1074) * 2 ^ 52 + m) else (e + 1074) * 2 ^ 52 + m) := by
  have hlt := x.toBits.toNat_lt
  have hbounds := place_bounds (Parts.canonical_of_finite h hm)
  obtain ⟨hsign, hbiased, hfraction, hc⟩ := Parts.fields_of_finite h
  obtain ⟨-, hm53, hlow, hhigh, hnormal⟩ := hc hm
  have hmagnitude : (x.toBits.toNat % 2 ^ 63 : Int) = (e + 1074) * 2 ^ 52 + m := by
    split at hbiased <;> omega
  rw [toNat_rank, rankAt]
  cases n with
  | false =>
    have hsign : x.toBits.toNat / 2 ^ 63 ≠ 1 := by simpa using hsign
    rw [if_pos (by omega), if_neg Bool.false_ne_true, if_neg (by omega)]
    omega
  | true =>
    have hsign : x.toBits.toNat / 2 ^ 63 = 1 := by simpa using hsign
    rw [if_neg (by omega), if_pos rfl, if_pos (by omega)]
    omega

/-- A double is NaN, or it is regular and its rank follows from its place. -/
theorem isNaN_or_rank (x : Float) : x.isNaN = true ∧ (rank (if x == 0 then 0 else x)).toNat = 2 ^ 64 - 2 ^ 51 ∨
    x.isNaN = false ∧ Regular x.toModel.unpack ∧
      ((rank (if x == 0 then 0 else x)).toNat : Int) = rankAt (place x.toModel.unpack) := by
  cases hx : Parts.ofFloat x with
  | nan =>
    obtain rfl := eq_of_parts_nan hx
    left
    decide +kernel
  | infinite n =>
    obtain ⟨s, rfl⟩ := eq_of_parts_infinite hx
    right
    have hu : (Float.ofModel (.pack (.infinity s))).toModel.unpack = .infinity s := by cases s <;> rfl
    rw [hu]
    refine ⟨by cases s <;> decide +kernel, .infinity s, ?_⟩
    cases s <;> decide +kernel
  | finite n m e => 
    rcases Nat.eq_zero_or_pos m with rfl | hm
    · right
      rcases Parts.eq_zero_of_finite hx with rfl | rfl
      · exact ⟨by decide +kernel, .zero .positive, by decide +kernel⟩
      · exact ⟨by decide +kernel, .zero .negative, by decide +kernel⟩
    · right
      have hu := unpack_of_parts hx hm
      rw [Parts.beq_zero_of_finite hx hm, if_neg (by decide), Float.isNaN, Float.Model.isNaN, hu]
      refine ⟨rfl, .finite _ (Parts.canonical_of_finite hx hm), ?_⟩
      rw [toNat_rank_of_finite hx hm]
      cases n <;> rfl

theorem lt_iff_unpacked : x < y ↔ x.toModel.unpack.lt y.toModel.unpack = true := by
  change decide (x.toModel < y.toModel) = true ↔ _
  rw [decide_eq_true_iff]
  rfl

/-- NaN is not compared. -/
theorem lt_nan {u v : UnpackedFloat} (h : u.isNaN = true ∨ v.isNaN = true) : u.lt v = false := by
  cases u <;> cases v <;> simp_all [UnpackedFloat.lt, UnpackedFloat.compare, UnpackedFloat.isNaN]

/-- Numbers are ranked in their order, with both zeros as one, and NaN is ranked last. -/
theorem rank_lt_iff : rank (if x == 0 then 0 else x) < rank (if y == 0 then 0 else y) ↔
    x < y ∨ x.isNaN = false ∧ y.isNaN = true := by
  rw [UInt64.lt_iff_toNat_lt, lt_iff_unpacked]
  rcases isNaN_or_rank x with ⟨hx, hrank⟩ | ⟨hx, hregular, hrank⟩ <;>
    rcases isNaN_or_rank y with ⟨hy, hrank'⟩ | ⟨hy, hregular', hrank'⟩
  · rw [hrank, hrank', lt_nan (.inl hx), hx]
    simp
  · have hlt := rankAt_place_lt hregular'
    rw [lt_nan (.inl hx), hx]
    simp only [Bool.false_eq_true, Bool.true_eq_false, false_and, or_false, iff_false]
    omega
  · have hlt := rankAt_place_lt hregular
    rw [hx, hy]
    simp only [and_self, or_true, iff_true]
    omega
  · rw [lt_iff_place hregular hregular', hx, hy, ← rankAt_lt_rankAt, ← hrank, ← hrank']
    simp

end DocScript.Number
