import Calculator.Proofs.DoubleBits

namespace Calculator.Binary64

open Float.Model
open Float.Model.UnpackedFloat

theorem roundedMantissa_le (em : ExtendedMantissa) :
    em.roundedMantissa ≤ em.mantissa + 1 := by
  rcases em with ⟨mantissa, roundBit, stickyBit⟩
  cases roundBit <;> cases stickyBit <;>
    simp only [ExtendedMantissa.roundedMantissa, ExtendedMantissa.accuracy,
      Accuracy.roundToNearestEven] <;> omega

theorem mantissa_shiftRight_le (em : ExtendedMantissa) (shift : Nat) :
    (em >>> shift).mantissa ≤ em.mantissa := by
  induction shift with
  | zero => exact Nat.le_refl _
  | succ shift ih => exact Nat.le_trans (Nat.div_le_self _ 2) ih

theorem mantissa_ofMantissaAndAccuracy (mantissa : Nat) (accuracy : Accuracy) :
    (ExtendedMantissa.ofMantissaAndAccuracy mantissa accuracy).mantissa = mantissa := by
  rcases accuracy with _ | order
  · rfl
  · cases order <;> rfl

theorem mantissa_shiftToTargetExponent_le (mantissa : Nat) (exponent : Int)
    (accuracy : Accuracy) :
    (shiftToTargetExponent Format.binary64 mantissa exponent accuracy).1.mantissa ≤
      mantissa := by
  refine Nat.le_trans (mantissa_shiftRight_le _ _) ?_
  rw [mantissa_ofMantissaAndAccuracy]

theorem exponent_shiftToTargetExponent (mantissa : Nat) (exponent : Int)
    (accuracy : Accuracy) :
    (shiftToTargetExponent Format.binary64 mantissa exponent accuracy).2 =
      max exponent (max (mantissa.log2 + 1 + exponent - 53) (-1074)) := by
  change exponent +
    ((max (mantissa.log2 + 1 + exponent - 53) (-1074) - exponent).toNat : Int) = _
  omega

theorem log2_le_of_lt {n k : Nat} (h : n < 2 ^ (k + 1)) : n.log2 ≤ k := by
  by_cases hn : n = 0
  · rw [hn, Nat.log2_zero]
    exact Nat.zero_le _
  · exact Nat.le_of_lt_succ ((Nat.log2_lt hn).mpr h)

theorem log2_le_of_le_succ {m n : Nat} (h : n ≤ m + 1) : n.log2 ≤ m.log2 + 1 := by
  have hm : m < 2 ^ (m.log2 + 1) := Nat.lt_log2_self
  have hdouble : 2 ^ (m.log2 + 1 + 1) = 2 * 2 ^ (m.log2 + 1) := Nat.pow_succ'
  exact log2_le_of_lt (by omega)

theorem roundWithAccuracy_cases {mantissa : Nat} {exponent : Int}
    (hmantissa : mantissa.log2 ≤ 105)
    (hexponent : exponent ≤ 459) (sign : Sign) (accuracy : Accuracy) :
    roundWithAccuracy Format.binary64 sign mantissa exponent accuracy = .zero sign ∨
      ∃ significand place, ∃ hpos : 0 < significand,
        roundWithAccuracy Format.binary64 sign mantissa exponent accuracy =
          .finite sign significand place hpos ∧ place ≤ 971 := by
  have hshifted := mantissa_shiftToTargetExponent_le mantissa exponent accuracy
  have hplace := exponent_shiftToTargetExponent mantissa exponent accuracy
  unfold roundWithAccuracy
  generalize shiftToTargetExponent Format.binary64 mantissa exponent accuracy = first at *
  obtain ⟨shifted, place⟩ := first
  have hrounded : shifted.roundedMantissa ≤ mantissa + 1 :=
    Nat.le_trans (roundedMantissa_le shifted) (Nat.succ_le_succ hshifted)
  have hlog := log2_le_of_le_succ hrounded
  have hagain := exponent_shiftToTargetExponent shifted.roundedMantissa place .exact
  dsimp only at hplace ⊢
  generalize shiftToTargetExponent Format.binary64 shifted.roundedMantissa place .exact = second
    at *
  obtain ⟨last, lastPlace⟩ := second
  dsimp only at hagain ⊢
  by_cases hzero : last.mantissa = 0
  · exact .inl (dif_pos hzero)
  · exact .inr ⟨last.mantissa, lastPlace, Nat.pos_of_ne_zero hzero, dif_neg hzero,
      by omega⟩

theorem bounds_of_unpack {bits : BitVec 64} {sign : Sign} {mantissa : Nat}
    {exponent : Int} {hpos : 0 < mantissa}
    (h : UnpackedFloat.unpack Format.binary64 bits = .finite sign mantissa exponent hpos) :
    mantissa.log2 ≤ 52 ∧ exponent ≤ 971 := by
  have hexponent : (@unpackExponent Format.binary64 bits).toNat < 2048 := BitVec.isLt _
  have hmantissa : (@unpackMantissa Format.binary64 bits).toNat < 2 ^ 52 :=
    BitVec.isLt _
  simp only [UnpackedFloat.unpack] at h
  split at h
  · split at h <;> contradiction
  · rename_i hfinite
    have hne : (@unpackExponent Format.binary64 bits).toNat ≠ 2047 := by
      intro heq
      exact hfinite (BitVec.eq_of_toNat_eq heq)
    split at h
    · split at h
      · contradiction
      · rename_i hzero _
        obtain ⟨-, rfl, rfl⟩ := UnpackedFloat.finite.inj h
        constructor
        · exact log2_le_of_lt (Nat.lt_of_lt_of_le hmantissa (by decide))
        · rw [hzero]
          decide
    · obtain ⟨-, rfl, rfl⟩ := UnpackedFloat.finite.inj h
      constructor
      · exact log2_le_of_lt (BitVec.isLt _)
      · change ((@unpackExponent Format.binary64 bits).toNat : Int) - (1023 + 52) ≤ 971
        omega

theorem isFinite_pack {sign : Sign} {mantissa : Nat} {exponent : Int}
    (hpos : 0 < mantissa) (hexponent : exponent ≤ 971) :
    (Float.ofModel (Float.Model.pack (.finite sign mantissa exponent hpos))).isFinite := by
  have hbias : Format.binary64.exponentBias = 1023 := rfl
  have hbiased :
      (exponent + Format.binary64.exponentBias + (52 : Nat)).toNat ≤ 2046 := by omega
  have hpack : ∃ place significand, place.toNat ≠ 2047 ∧
      (Float.ofModel (Float.Model.pack (.finite sign mantissa exponent hpos))).toBits.toBitVec =
        packComponents Format.binary64 sign place significand := by
    change ∃ place significand, _ ∧
      UnpackedFloat.pack Format.binary64 (.finite sign mantissa exponent hpos) = _
    rw [UnpackedFloat.pack]
    dsimp only
    rw [if_neg (by omega)]
    split
    · refine ⟨_, _, ?_, rfl⟩
      rw [BitVec.toNat_ofNat]
      omega
    · refine ⟨_, _, ?_, rfl⟩
      decide
  obtain ⟨place, significand, hplace, hbits⟩ := hpack
  refine (isFinite_of_parts hbits).mpr ?_
  rintro rfl
  exact hplace rfl

theorem isFinite_packZero (sign : Sign) :
    (Float.ofModel (Float.Model.pack (.zero sign))).isFinite := by
  cases sign <;> decide

/-- The mantissa that the root is taken of has about twice as many bits as a double
keeps, and the exponent of the root is half that of the radicand. -/
theorem sqrtCore_bounds {mantissa : Nat} {exponent : Int}
    (hmantissa : mantissa.log2 ≤ 52) (hexponent : exponent ≤ 971) :
    (sqrtCore Format.binary64 mantissa exponent).1.log2 ≤ 105 ∧
      (sqrtCore Format.binary64 mantissa exponent).2.1 ≤ 459 := by
  have htarget :
      Format.binary64.targetExponent ((totalExponent mantissa exponent + 1).ediv 2) =
      max ((mantissa.log2 + 1 + exponent + 1) / 2 - 53) (-1074) := rfl
  have hhalf : exponent.ediv 2 = exponent / 2 := rfl
  simp only [sqrtCore, htarget, hhalf]
  generalize hplace :
    min (exponent / 2) (max ((mantissa.log2 + 1 + exponent + 1) / 2 - 53) (-1074)) = place
  constructor
  · apply log2_le_of_lt
    generalize hshift : (exponent - 2 * place).toNat = shift
    calc (mantissa <<< shift).sqrt ≤ mantissa <<< shift := Nat.sqrt_le_self _
      _ = mantissa * 2 ^ shift := Nat.shiftLeft_eq _ _
      _ < 2 ^ (mantissa.log2 + 1) * 2 ^ shift :=
        Nat.mul_lt_mul_of_pos_right Nat.lt_log2_self (Nat.two_pow_pos shift)
      _ = 2 ^ (mantissa.log2 + 1 + shift) := (Nat.pow_add _ _ _).symm
      _ ≤ 2 ^ (105 + 1) := Nat.pow_le_pow_right (by decide) (by omega)
  · omega

theorem isFinite_sqrt {x : Float} (hfinite : x.isFinite) (h : ¬ x < 0) :
    x.sqrt.isFinite := by
  change (Float.ofModel (Float.Model.pack (UnpackedFloat.sqrt Format.binary64
    x.toModel.unpack))).isFinite
  change x.toModel.unpack.isFinite at hfinite
  have hnegative : ¬ x.toModel.unpack.lt (.zero .positive) :=
    fun hlt => h (decide_eq_true hlt)
  rcases hx : x.toModel.unpack with sign | _ | sign | ⟨sign, mantissa, exponent, hpos⟩
  · rw [hx] at hfinite
    contradiction
  · rw [hx] at hfinite
    contradiction
  · exact isFinite_packZero sign
  · obtain ⟨hmantissa, hexponent⟩ := bounds_of_unpack hx
    cases sign with
    | negative =>
        rw [hx] at hnegative
        exact absurd rfl hnegative
    | positive =>
        obtain ⟨hroot, hplace⟩ := sqrtCore_bounds hmantissa hexponent
        have hround := roundWithAccuracy_cases hroot hplace .positive
          (sqrtCore Format.binary64 mantissa exponent).2.2
        rw [UnpackedFloat.sqrt]
        dsimp only
        rcases hround with hround | ⟨significand, place, hsignificand, hround, hlast⟩
        · rw [hround]
          exact isFinite_packZero .positive
        · rw [hround]
          exact isFinite_pack hsignificand hlast

end Calculator.Binary64
