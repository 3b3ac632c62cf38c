import DocScript.Proofs.Number.Sign

/-!
# Equality of numbers

Equality of doubles is not the identity : the two zeros are equal and NaN is not equal to itself. Nothing else
sets them apart (`Number.eq_or_zero_of_beq`). A double other than NaN is what it was unpacked to, packed again
(`Number.pack_unpack`), so the comparison, which looks at unpacked doubles, sees all of it.
-/

namespace DocScript.Number

open Float.Model Float.Model.UnpackedFloat Rounding

variable {x y : Float}

theorem eq_of_toBits (h : x.toBits = y.toBits) : x = y := by
  obtain ⟨⟨bx, vx⟩⟩ := x
  obtain ⟨⟨by', vy⟩⟩ := y
  simp only [Float.toBits] at h
  subst h
  rfl

/-! ## Packing what was unpacked -/

/-- An encoding is made of its three fields. -/
theorem packComponents_unpack (b : BitVec Format.binary64.numBits) :
    packComponents Format.binary64 (Sign.ofBitVec (unpackSign b)) (unpackExponent b) (unpackMantissa b) = b := by
  have hsign (v : BitVec 1) : (Sign.ofBitVec v).toBitVec = v := by
    revert v
    decide
  have hb : b.toNat < 2 ^ 64 := b.isLt
  apply BitVec.eq_of_toNat_eq
  rw [Parts.toNat_packComponents, hsign, unpackSign, unpackExponent, unpackMantissa, BitVec.toNat_cast,
    BitVec.toNat_cast, BitVec.toNat_cast, BitVec.extractLsb_toNat, BitVec.extractLsb_toNat,
    BitVec.extractLsb_toNat, Nat.shiftRight_eq_div_pow, Nat.shiftRight_eq_div_pow, Nat.shiftRight_eq_div_pow]
  norm_num
  omega

theorem exists_components (x : Float) :
    ∃ (s : Sign) (b : BitVec 11) (f : BitVec 52), x.toBits = .ofBitVec (packComponents Format.binary64 s b f) :=
  ⟨_, _, _, UInt64.toBitVec_inj.1 (packComponents_unpack x.toBits.toBitVec).symm⟩

/-- A double other than NaN is what it was unpacked to, packed again. -/
theorem pack_unpack (h : x.toModel.unpack ≠ .notANumber) : x = .ofModel (.pack x.toModel.unpack) := by
  obtain ⟨s, b, f, hx⟩ := exists_components x
  have hsign : Sign.ofBitVec s.toBitVec = s := by cases s <;> rfl
  have hbits : x.toModel.toBits.toBitVec = packComponents Format.binary64 s b f := congrArg UInt64.toBitVec hx
  have hparts : Parts.ofFloat x = Parts.ofFields (Parts.isNegative s) b.toNat f.toNat := by
    rw [Parts.ofFloat, hx, Parts.ofBits_packComponents]
  have hb := b.isLt
  by_cases hone : b = -1#11
  · subst hone
    by_cases hf : f = 0#52
    · -- an infinity
      subst hf
      have hu : x.toModel.unpack = .infinity s := by
        rw [Float.Model.unpack, hbits]
        cases s <;> rfl
      rw [hu]
      exact eq_of_toBits hx
    · refine absurd ?_ h
      rw [Float.Model.unpack, hbits]
      simp only [UnpackedFloat.unpack, unpackMantissa_packComponents, unpackExponent_packComponents]
      rw [if_pos trivial, if_neg hf]
  · -- everything else has finite parts, and only a zero has a mantissa of zero
    have hbn : b.toNat ≠ 0x7ff := fun hb' => hone (BitVec.eq_of_toNat_eq hb')
    obtain ⟨n, m, e, hfin⟩ : ∃ n m e, Parts.ofFloat x = .finite n m e := by
      rw [hparts, Parts.ofFields, if_neg hbn]
      split <;> exact ⟨_, _, _, rfl⟩
    rcases Nat.eq_zero_or_pos m with rfl | hm
    · rcases Parts.eq_zero_of_finite hfin with rfl | rfl <;> decide +kernel
    · obtain ⟨t, hc, -, rfl⟩ := Parts.exists_eq_pack hfin hm
      exact congrArg (fun u => Float.ofModel (.pack u)) (Parts.unpack_pack t hc).symm

/-! ## Comparison -/

/-- Unpacked doubles that compare equal are the same, or both are zeros. -/
theorem eq_or_zero_of_unpacked_beq {u v : UnpackedFloat} (h : u.beq v = true) :
    u ≠ .notANumber ∧ (u = v ∨ ∃ s t, u = .zero s ∧ v = .zero t) := by
  have hc : u.compare v = some .eq := by simpa [UnpackedFloat.beq] using h
  cases u with
  | notANumber => simp [UnpackedFloat.compare] at hc
  | infinity s =>
    cases v with
    | infinity t => cases s <;> cases t <;> simp_all [UnpackedFloat.compare]
    | _ => cases s <;> simp [UnpackedFloat.compare] at hc
  | zero s =>
    cases v with
    | zero t => exact ⟨by simp, .inr ⟨s, t, rfl, rfl⟩⟩
    | infinity t | finite t m e => cases t <;> simp [UnpackedFloat.compare] at hc
    | notANumber => simp [UnpackedFloat.compare] at hc
  | finite s m e hm =>
    cases v with
    | finite t m' e' hm' =>
      -- of the same sign, exponents and mantissas are compared
      cases s <;> cases t <;>
        simp only [UnpackedFloat.compare, Option.some.injEq, reduceCtorEq, Ordering.swap_eq_eq, Ordering.then_eq_eq,
          Int.compare_eq_eq, Nat.compare_eq_eq] at hc
      all_goals
        obtain ⟨rfl, rfl⟩ := hc
        exact ⟨by simp, .inl rfl⟩
    | infinity t | zero t => cases s <;> cases t <;> simp [UnpackedFloat.compare] at hc
    | notANumber => cases s <;> simp [UnpackedFloat.compare] at hc

/-- Equal doubles are the same, or both are zeros. -/
theorem eq_or_zero_of_beq (h : (x == y) = true) : x = y ∨ (x == 0) = true ∧ (y == 0) = true := by
  change x.toModel.unpack.beq y.toModel.unpack = true at h
  obtain ⟨hx, hu | ⟨s, t, hs, ht⟩⟩ := eq_or_zero_of_unpacked_beq h
  · left
    rw [pack_unpack hx, hu]
    exact (pack_unpack (hu ▸ hx)).symm
  · right
    rw [pack_unpack hx, pack_unpack (x := y) (by simp [ht]), hs, ht]
    cases s <;> cases t <;> decide +kernel

/-- Two numbers are equal to zero. -/
theorem eq_zero_of_beq (h : (x == 0) = true) : x = 0 ∨ x = -0 := by
  change x.toModel.unpack.beq (Float.toModel 0).unpack = true at h
  obtain ⟨hx, hu | ⟨s, t, hs, -⟩⟩ := eq_or_zero_of_unpacked_beq h
  · left
    rw [pack_unpack hx, hu]
    decide +kernel
  · rw [pack_unpack hx, hs]
    cases s <;> decide +kernel

end DocScript.Number
