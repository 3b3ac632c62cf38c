import DocScript.Decimal.Shortest
import DocScript.Proofs.Number.Rounding

/-!
# The encoding of doubles

A double is taken apart in two places : `Parts.ofBits` reads the three fields of its encoding, and the model
of doubles unpacks them. Here the two are compared. Doubles with the same finite parts are the same
(`Parts.eq_of_finite`), the parts of a packed number are what was packed (`Parts.ofFloat_pack`), and a number
with finite parts is unpacked to these (`Parts.unpack_of_finite`).
-/

namespace DocScript

open Float.Model Float.Model.UnpackedFloat Rounding

namespace Parts

/-- The parts that three fields stand for. -/
def ofFields (negative : Bool) (biased fraction : Nat) : Parts :=
  if biased = 0x7ff then
    if fraction = 0 then infinite negative else nan
  else if biased = 0 then finite negative fraction (-1074)
  else finite negative (fraction + Nat.pow 2 52) (biased - 1075)

theorem ofBits_eq (b : UInt64) :
    ofBits b = ofFields (b.toNat / 2 ^ 63 == 1) (b.toNat / 2 ^ 52 % 2 ^ 11) (b.toNat % 2 ^ 52) := by
  have hn : (b >>> 63 == 1) = (b.toNat / 2 ^ 63 == 1) := by
    rw [Bool.eq_iff_iff, beq_iff_eq, beq_iff_eq, ← UInt64.toNat_inj, UInt64.toNat_shiftRight,
      Nat.shiftRight_eq_div_pow]
    rfl
  have hb : ((b >>> 52) &&& 0x7ff).toNat = b.toNat / 2 ^ 52 % 2 ^ 11 := by
    rw [UInt64.toNat_and, UInt64.toNat_shiftRight, Nat.shiftRight_eq_div_pow]
    exact Nat.and_two_pow_sub_one_eq_mod _ 11
  have hf : (b &&& 0xfffffffffffff).toNat = b.toNat % 2 ^ 52 := by
    rw [UInt64.toNat_and]
    exact Nat.and_two_pow_sub_one_eq_mod _ 52
  rw [ofBits, hn, hb, hf]
  rfl

/-- The parts of a finite double : its fields, and that they make a canonical pair. -/
theorem ofFields_eq_finite {negative n : Bool} {biased fraction m : Nat} {e : Int} (hb : biased < 2 ^ 11)
    (hf : fraction < 2 ^ 52) (h : ofFields negative biased fraction = finite n m e) :
    negative = n ∧ biased = (if 2 ^ 52 ≤ m then (e + 1075).toNat else 0) ∧ fraction = m % 2 ^ 52 ∧
      (0 < m → Canonical m e) := by
  unfold ofFields at h
  split at h
  · split at h <;> nomatch h
  · split at h
    · cases h
      refine ⟨rfl, ?_, by omega, fun hm => ⟨hm, by omega, by omega, by omega, .inr rfl⟩⟩
      rw [if_neg (by omega)]
      assumption
    · cases h
      have hp : Nat.pow 2 52 = 2 ^ 52 := rfl
      refine ⟨rfl, ?_, by omega, fun hm => ⟨hm, by omega, by omega, by omega, .inl (by omega)⟩⟩
      rw [if_pos (by omega)]
      omega

variable {x y : Float} {n : Bool} {m : Nat} {e : Int}

theorem fields_of_finite (h : ofFloat x = finite n m e) :
    (x.toBits.toNat / 2 ^ 63 == 1) = n ∧
      x.toBits.toNat / 2 ^ 52 % 2 ^ 11 = (if 2 ^ 52 ≤ m then (e + 1075).toNat else 0) ∧
      x.toBits.toNat % 2 ^ 52 = m % 2 ^ 52 ∧ (0 < m → Canonical m e) := by
  rw [ofFloat, ofBits_eq] at h
  exact ofFields_eq_finite (Nat.mod_lt _ (by decide)) (Nat.mod_lt _ (by decide)) h

theorem canonical_of_finite (h : ofFloat x = finite n m e) (hm : 0 < m) : Canonical m e :=
  (fields_of_finite h).2.2.2 hm

theorem exponent_of_zero (h : ofFloat x = finite n 0 e) : e = -1074 := by
  rw [ofFloat, ofBits_eq, ofFields] at h
  split at h
  · split at h <;> nomatch h
  · split at h
    · exact (Parts.finite.inj h).2.2.symm
    · exact absurd (Parts.finite.inj h).2.1 (Nat.ne_of_gt (Nat.add_pos_right _ (Nat.two_pow_pos 52)))

/-- A double is determined by its parts if they are finite. -/
theorem eq_of_finite (hx : ofFloat x = finite n m e) (hy : ofFloat y = finite n m e) : x = y := by
  obtain ⟨hn, hb, hf, -⟩ := fields_of_finite hx
  obtain ⟨hn', hb', hf', -⟩ := fields_of_finite hy
  have hlt := x.toBits.toNat_lt
  have hlt' := y.toBits.toNat_lt
  have hsign : x.toBits.toNat / 2 ^ 63 = y.toBits.toNat / 2 ^ 63 := by
    have hs : (x.toBits.toNat / 2 ^ 63 == 1) = (y.toBits.toNat / 2 ^ 63 == 1) := hn.trans hn'.symm
    rw [Bool.eq_iff_iff, beq_iff_eq, beq_iff_eq] at hs
    omega
  have hbits : x.toBits = y.toBits := by
    rw [← UInt64.toNat_inj]
    omega
  obtain ⟨⟨bx, vx⟩⟩ := x
  obtain ⟨⟨by', vy⟩⟩ := y
  simp only [Float.toBits] at hbits
  subst hbits
  rfl

/-! ## Packing -/

theorem toNat_packComponents (s : Sign) (b : BitVec 11) (f : BitVec 52) :
    (packComponents Format.binary64 s b f).toNat = s.toBitVec.toNat * 2 ^ 63 + b.toNat * 2 ^ 52 + f.toNat := by
  have hb := b.isLt
  have hf := f.isLt
  unfold packComponents
  rw [BitVec.toNat_append, BitVec.toNat_append, ← Nat.shiftLeft_add_eq_or_of_lt hb,
    ← Nat.shiftLeft_add_eq_or_of_lt hf, Nat.shiftLeft_eq, Nat.shiftLeft_eq]
  ring

/-- The sign of the parts. -/
def isNegative : Sign → Bool
  | .negative => true
  | .positive => false

theorem ofBits_packComponents (s : Sign) (b : BitVec 11) (f : BitVec 52) :
    ofBits (.ofBitVec (packComponents Format.binary64 s b f)) =
      ofFields (isNegative s) b.toNat f.toNat := by
  have hb := b.isLt
  have hf := f.isLt
  have hn : (UInt64.ofBitVec (packComponents Format.binary64 s b f)).toNat =
      (isNegative s).toNat * 2 ^ 63 + b.toNat * 2 ^ 52 + f.toNat := by
    rw [UInt64.toNat_ofBitVec, toNat_packComponents]
    cases s <;> rfl
  rw [ofBits_eq, hn]
  congr 1 <;> cases isNegative s <;> simp <;> omega

/-- The parts of a packed number, by the three ways to pack one. -/
theorem ofFloat_pack_finite (s : Sign) (m : Nat) (e : Int) (hm : 0 < m) :
    ofFloat (.ofModel (.pack (.finite s m e hm))) =
      if 2 ^ 11 ≤ (e + 1075).toNat + 1 then infinite (isNegative s)
      else if m.log2 + 1 = 53 then ofFields (isNegative s) (e + 1075).toNat (m % 2 ^ 52)
      else ofFields (isNegative s) 0 (m % 2 ^ 52) := by
  have hbias : e + (Format.binary64.exponentBias : Int) + (Format.binary64.mantissaBitsWithoutImplicit : Int) =
      e + 1075 := by
    rw [show Format.binary64.exponentBias = 1023 from rfl]
    simp only [Nat.cast_ofNat]
    omega
  change ofBits (.ofBitVec (UnpackedFloat.pack Format.binary64 (.finite s m e hm))) = _
  simp only [UnpackedFloat.pack, hbias, show Format.binary64.mantissaBits = 53 from rfl]
  split
  · exact ofBits_packComponents s (-1#11) 0
  · next hlt =>
    split
    · rw [ofBits_packComponents, BitVec.toNat_ofNat, BitVec.toNat_ofNat, Nat.mod_eq_of_lt (by omega)]
    · rw [ofBits_packComponents, BitVec.toNat_ofNat]
      rfl

/-- The parts of a packed number are what was packed. -/
theorem ofFloat_pack {m : Nat} {e : Int} (s : Sign) (h : Canonical m e) :
    ofFloat (.ofModel (.pack (.finite s m e h.pos))) = finite (isNegative s) m e := by
  have hlow := h.low
  have hhigh := h.high
  have hlt := h.lt
  have hp : Nat.pow 2 52 = 2 ^ 52 := rfl
  rw [ofFloat_pack_finite, if_neg (by omega)]
  by_cases hm : 2 ^ 52 ≤ m
  · have hlog : m.log2 = 52 := (Nat.log2_eq_iff h.pos.ne').2 ⟨hm, hlt⟩
    rw [if_pos (by omega), ofFields, if_neg (by omega), if_neg (by omega)]
    congr 1 <;> omega
  · have hlog : m.log2 < 52 := (Nat.log2_lt h.pos.ne').2 (by omega)
    rw [if_neg (by omega), ofFields, if_neg (by decide), if_pos rfl, h.normal.resolve_left hm,
      Nat.mod_eq_of_lt (by omega)]

/-- A positive number is packed to a positive one, or to infinity. -/
theorem ofFloat_pack_positive (m : Nat) (e : Int) (hm : 0 < m) :
    (∃ m' e', ofFloat (.ofModel (.pack (.finite .positive m e hm))) = finite false m' e') ∨
      ofFloat (.ofModel (.pack (.finite .positive m e hm))) = infinite false := by
  rw [ofFloat_pack_finite]
  split
  · exact .inr rfl
  · next hlt =>
    left
    split
    · rw [ofFields, if_neg (by omega)]
      split <;> exact ⟨_, _, rfl⟩
    · exact ⟨_, _, rfl⟩

/-! ## Unpacking -/

theorem unpackSign_packComponents (s : Sign) (b : BitVec 11) (f : BitVec 52) :
    unpackSign (packComponents Format.binary64 s b f) = s.toBitVec := by
  have hb := b.isLt
  have hf := f.isLt
  have hs := s.toBitVec.isLt
  apply BitVec.eq_of_toNat_eq
  rw [unpackSign, BitVec.toNat_cast, BitVec.extractLsb_toNat, toNat_packComponents, Nat.shiftRight_eq_div_pow]
  norm_num
  omega

theorem finite_congr {s : Sign} {m m' : Nat} {e e' : Int} {h : 0 < m} {h' : 0 < m'} (hm : m = m')
    (he : e = e') : UnpackedFloat.finite s m e h = .finite s m' e' h' := by
  subst hm he
  rfl

/-- What was packed is unpacked again. -/
theorem unpack_pack {m : Nat} {e : Int} (s : Sign) (h : Canonical m e) :
    (Float.Model.pack (.finite s m e h.pos)).unpack = .finite s m e h.pos := by
  have hlow := h.low
  have hhigh := h.high
  have hlt := h.lt
  have hsign : Sign.ofBitVec s.toBitVec = s := by cases s <;> rfl
  have hbias : e + (Format.binary64.exponentBias : Int) + (Format.binary64.mantissaBitsWithoutImplicit : Int) =
      e + 1075 := by
    rw [show Format.binary64.exponentBias = 1023 from rfl]
    simp only [Nat.cast_ofNat]
    omega
  change UnpackedFloat.unpack Format.binary64 (UnpackedFloat.pack Format.binary64 (.finite s m e h.pos)) = _
  simp only [UnpackedFloat.pack, hbias, show Format.binary64.mantissaBits = 53 from rfl]
  rw [if_neg (by omega)]
  by_cases hm : 2 ^ 52 ≤ m
  · have hlog : m.log2 = 52 := (Nat.log2_eq_iff h.pos.ne').2 ⟨hm, hlt⟩
    have hb : (BitVec.ofNat 11 (e + 1075).toNat).toNat = (e + 1075).toNat := by
      rw [BitVec.toNat_ofNat, Nat.mod_eq_of_lt (by omega)]
    have hone : BitVec.ofNat 11 (e + 1075).toNat ≠ -1#11 := by
      intro he
      have := congrArg BitVec.toNat he
      rw [hb, show (-1#11 : BitVec 11).toNat = 2047 from rfl] at this
      omega
    have hzero : BitVec.ofNat 11 (e + 1075).toNat ≠ 0#11 := by
      intro he
      have := congrArg BitVec.toNat he
      rw [hb, show (0#11 : BitVec 11).toNat = 0 from rfl] at this
      omega
    have hmant : (1#1 ++ BitVec.ofNat 52 m).toNat = m := by
      rw [BitVec.toNat_append, ← Nat.shiftLeft_add_eq_or_of_lt (BitVec.isLt _), BitVec.toNat_ofNat,
        Nat.shiftLeft_eq]
      simp only [BitVec.toNat_ofNat]
      omega
    rw [if_pos (by omega)]
    simp only [UnpackedFloat.unpack, unpackMantissa_packComponents, unpackExponent_packComponents,
      unpackSign_packComponents, hsign]
    rw [if_neg hone, if_neg hzero]
    refine finite_congr hmant ?_
    rw [hb, show Format.binary64.exponentBias = 1023 from rfl]
    simp only [Nat.cast_ofNat]
    omega
  · have hlog : m.log2 < 52 := (Nat.log2_lt h.pos.ne').2 (by omega)
    have hf : (BitVec.ofNat 52 m).toNat = m := by rw [BitVec.toNat_ofNat, Nat.mod_eq_of_lt (by omega)]
    have hzero : BitVec.ofNat 52 m ≠ 0#52 := by
      intro he
      have := congrArg BitVec.toNat he
      rw [hf, show (0#52 : BitVec 52).toNat = 0 from rfl] at this
      exact h.pos.ne' this
    rw [if_neg (by omega)]
    simp only [UnpackedFloat.unpack, unpackMantissa_packComponents, unpackExponent_packComponents,
      unpackSign_packComponents, hsign]
    rw [if_neg (by decide), if_pos trivial, dif_neg hzero]
    refine finite_congr hf ?_
    rw [h.normal.resolve_left hm]
    rfl

/-- A double with finite parts is unpacked to these. -/
theorem unpack_of_finite (h : ofFloat x = finite false m e) (hm : 0 < m) :
    x.toModel.unpack = .finite .positive m e hm := by
  have hc := canonical_of_finite h hm
  obtain rfl : x = .ofModel (.pack (.finite .positive m e hm)) := eq_of_finite h (ofFloat_pack .positive hc)
  exact unpack_pack .positive hc

end Parts

end DocScript
