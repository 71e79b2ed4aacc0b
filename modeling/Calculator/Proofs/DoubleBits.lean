import Calculator.Binary64
import Mathlib

namespace Calculator.Binary64

open Float.Model
open Float.Model.UnpackedFloat

theorem toNat_packComponents (sign : Sign) (exponent : BitVec 11)
    (significand : BitVec 52) :
    (packComponents Format.binary64 sign exponent significand).toNat =
      sign.toBitVec.toNat <<< 63 + (exponent.toNat <<< 52 + significand.toNat) := by
  rw [packComponents, BitVec.toNat_append,
    ← Nat.shiftLeft_add_eq_or_of_lt significand.isLt,
    BitVec.toNat_append, ← Nat.shiftLeft_add_eq_or_of_lt exponent.isLt]
  simp only [Nat.shiftLeft_eq]
  omega

theorem neg_unpack (sign : Sign) (exponent : BitVec 11) (significand : BitVec 52) :
    (UnpackedFloat.unpack Format.binary64
        (packComponents Format.binary64 sign exponent significand)).neg =
      UnpackedFloat.unpack Format.binary64
        (packComponents Format.binary64 (-sign) exponent significand) := by
  simp only [UnpackedFloat.unpack, unpackSign_packComponents,
    unpackMantissa_packComponents,
    unpackExponent_packComponents, Sign.ofBitVec_toBitVec]
  split
  · split <;> rfl
  · split
    · split <;> rfl
    · rfl

theorem pack_unpack_packComponents {sign : Sign} {exponent : BitVec 11}
    {significand : BitVec 52} (h : exponent = -1#11 → significand = 0#52) :
    UnpackedFloat.pack Format.binary64 (UnpackedFloat.unpack Format.binary64
        (packComponents Format.binary64 sign exponent significand)) =
      packComponents Format.binary64 sign exponent significand := by
  rw [UnpackedFloat.pack_unpack, if_neg]
  rw [isNaNBits, unpackExponent_packComponents, unpackMantissa_packComponents,
    decide_eq_true_eq]
  rintro ⟨hexponent, hsignificand⟩
  exact hsignificand (h hexponent)

theorem exists_parts (x : Float) : ∃ sign exponent significand,
    x.toBits.toBitVec = packComponents Format.binary64 sign exponent significand := by
  have hparts :=
    @packComponents_unpackSign_unpackExponent_unpackMantissa Format.binary64
    x.toBits.toBitVec
  exact ⟨_, _, _, hparts.symm⟩

section Parts

variable {x : Float} {sign : Sign} {exponent : BitVec 11} {significand : BitVec 52}

theorem code_of_parts
    (h : x.toBits.toBitVec = packComponents Format.binary64 sign exponent significand) :
    code x = exponent.toNat <<< 52 + significand.toNat := by
  have hexponent := exponent.isLt
  have hsignificand := significand.isLt
  have hsign := sign.toBitVec.isLt
  rw [code, ← UInt64.toNat_toBitVec, h, toNat_packComponents]
  simp only [Nat.shiftLeft_eq]
  omega

theorem isNegative_of_parts
    (h : x.toBits.toBitVec = packComponents Format.binary64 sign exponent significand) :
    (isNegative x).toNat = sign.toBitVec.toNat := by
  have hexponent := exponent.isLt
  have hsignificand := significand.isLt
  rw [isNegative, ← UInt64.toNat_toBitVec, h, toNat_packComponents]
  simp only [Nat.shiftLeft_eq]
  cases sign with
  | negative =>
      rw [decide_eq_true]
      · rfl
      · exact Nat.le_add_right _ _
  | positive =>
      rw [decide_eq_false]
      · rfl
      · simp only [Sign.toBitVec, BitVec.toNat_zero]
        omega

theorem isFinite_of_parts
    (h : x.toBits.toBitVec = packComponents Format.binary64 sign exponent significand) :
    x.isFinite ↔ exponent ≠ -1#11 := by
  rw [Float.isFinite, Float.Model.isFinite, Float.Model.unpack]
  change (UnpackedFloat.unpack Format.binary64 x.toBits.toBitVec).isFinite ↔ _
  rw [h]
  simp only [UnpackedFloat.unpack, unpackMantissa_packComponents,
    unpackExponent_packComponents]
  split
  · rename_i hinfinite
    split <;> exact iff_of_false Bool.false_ne_true (not_not_intro hinfinite)
  · rename_i hfinite
    split
    · split <;> exact iff_of_true rfl hfinite
    · exact iff_of_true rfl hfinite

end Parts

theorem isFinite_iff (x : Float) : x.isFinite ↔ code x < infinityCode := by
  obtain ⟨sign, exponent, significand, h⟩ := exists_parts x
  have hexponent : exponent.toNat < 2048 := exponent.isLt
  have hsignificand : significand.toNat < 1 <<< 52 := significand.isLt
  have hall : exponent = -1#11 ↔ exponent.toNat = 2047 := by
    constructor
    · rintro rfl
      rfl
    · intro heq
      exact BitVec.eq_of_toNat_eq heq
  rw [isFinite_of_parts h, code_of_parts h, ne_eq, hall]
  simp only [infinityCode, Nat.shiftLeft_eq] at *
  omega

theorem eq_of_code_eq {x y : Float} (hsign : isNegative x = isNegative y)
    (hcode : code x = code y) : x = y := by
  apply Float.toBits_inj.mp
  apply UInt64.toNat_inj.mp
  have hx := x.toBits.toNat_lt
  have hy := y.toBits.toNat_lt
  simp only [isNegative, decide_eq_decide, Nat.reduceShiftLeft] at hsign
  simp only [code, Nat.reduceShiftLeft] at hcode
  omega

theorem toBits_ofBits {sign : Sign} {exponent : BitVec 11} {significand : BitVec 52}
    (h : exponent = -1#11 → significand = 0#52) :
    (Float.ofBits (.ofBitVec
        (packComponents Format.binary64 sign exponent significand))).toBits.toBitVec =
      packComponents Format.binary64 sign exponent significand :=
  pack_unpack_packComponents h

theorem exists_exponent_significand {c : Nat} (h : c ≤ infinityCode) :
    ∃ exponent : BitVec 11, ∃ significand : BitVec 52,
      c = exponent.toNat <<< 52 + significand.toNat ∧
        (exponent = -1#11 → significand = 0#52) := by
  simp only [infinityCode, Nat.reduceShiftLeft] at h
  have hexponent : (BitVec.ofNat 11 (c / 2 ^ 52)).toNat = c / 2 ^ 52 := by
    rw [BitVec.toNat_ofNat]
    omega
  have hsignificand : (BitVec.ofNat 52 c).toNat = c % 2 ^ 52 := BitVec.toNat_ofNat _ _
  refine ⟨.ofNat 11 (c / 2 ^ 52), .ofNat 52 c, ?_, ?_⟩
  · rw [hexponent, hsignificand, Nat.shiftLeft_eq]
    omega
  · intro hall
    -- A code with all bits of the exponent set is the code of infinity.
    have htop : c / 2 ^ 52 = 2047 := by
      rw [← hexponent, hall]
      rfl
    apply BitVec.eq_of_toNat_eq
    rw [hsignificand, BitVec.toNat_zero]
    omega

theorem toBits_ofCode (negative : Bool) {exponent : BitVec 11} {significand : BitVec 52}
    (h : exponent = -1#11 → significand = 0#52) :
    (ofCode negative (exponent.toNat <<< 52 + significand.toNat)).toBits.toBitVec =
      packComponents Format.binary64 (if negative then .negative else .positive) exponent
        significand := by
  have hexponent : exponent.toNat < 2048 := exponent.isLt
  have hsignificand : significand.toNat < 1 <<< 52 := significand.isLt
  have hword : UInt64.ofNat
      (if negative then (1 <<< 63) + (exponent.toNat <<< 52 + significand.toNat)
        else exponent.toNat <<< 52 + significand.toNat) =
      .ofBitVec (packComponents Format.binary64 (if negative then .negative else .positive)
        exponent significand) := by
    apply UInt64.eq_of_toBitVec_eq
    apply BitVec.eq_of_toNat_eq
    rw [toNat_packComponents, UInt64.toNat_toBitVec, UInt64.toNat_ofNat_of_lt']
    · cases negative <;> simp [Sign.toBitVec]
    · simp only [Nat.shiftLeft_eq, UInt64.size] at hsignificand ⊢
      split <;> omega
  rw [ofCode, hword]
  exact toBits_ofBits h

@[simp] theorem code_ofCode (negative : Bool) {c : Nat} (h : c ≤ infinityCode) :
    code (ofCode negative c) = c := by
  obtain ⟨exponent, significand, rfl, hinfinite⟩ := exists_exponent_significand h
  exact code_of_parts (toBits_ofCode negative hinfinite)

@[simp] theorem isNegative_ofCode (negative : Bool) {c : Nat} (h : c ≤ infinityCode) :
    isNegative (ofCode negative c) = negative := by
  obtain ⟨exponent, significand, rfl, hinfinite⟩ := exists_exponent_significand h
  have hsign := isNegative_of_parts (toBits_ofCode negative hinfinite)
  cases negative with
  | false => exact Bool.toNat_eq_zero.mp hsign
  | true => exact Bool.toNat_eq_one.mp hsign

theorem code_le_of_isFinite {x : Float} (h : x.isFinite) : code x ≤ infinityCode :=
  Nat.le_of_lt ((isFinite_iff x).mp h)

theorem ofCode_code_of_le {x : Float} (h : code x ≤ infinityCode) :
    ofCode (isNegative x) (code x) = x := by
  apply eq_of_code_eq
  · exact isNegative_ofCode _ h
  · exact code_ofCode _ h

theorem ofCode_code {x : Float} (h : x.isFinite) : ofCode (isNegative x) (code x) = x :=
  ofCode_code_of_le (code_le_of_isFinite h)

theorem isFinite_ofCode (negative : Bool) {c : Nat} (h : c < infinityCode) :
    (ofCode negative c).isFinite := by
  rw [isFinite_iff, code_ofCode negative (Nat.le_of_lt h)]
  exact h

theorem toNat_toBitVec_neg (sign : Sign) :
    (-sign).toBitVec.toNat = 1 - sign.toBitVec.toNat := by
  cases sign <;> rfl

theorem neg_of_code_le {x : Float} (h : code x ≤ infinityCode) :
    -x = ofCode (!isNegative x) (code x) := by
  obtain ⟨sign, exponent, significand, hbits⟩ := exists_parts x
  have hnumber : exponent = -1#11 → significand = 0#52 := by
    rintro rfl
    rw [code_of_parts hbits] at h
    exact BitVec.eq_of_toNat_eq (Nat.le_zero.mp (Nat.le_of_add_le_add_left h))
  have hneg : (-x).toBits.toBitVec =
      packComponents Format.binary64 (-sign) exponent significand := by
    change UnpackedFloat.pack Format.binary64
      (UnpackedFloat.unpack Format.binary64 x.toBits.toBitVec).neg = _
    rw [hbits, neg_unpack, pack_unpack_packComponents hnumber]
  have hsign : (isNegative (-x)).toNat = 1 - (isNegative x).toNat := by
    rw [isNegative_of_parts hneg, isNegative_of_parts hbits, toNat_toBitVec_neg]
  apply eq_of_code_eq
  · rw [isNegative_ofCode _ h]
    revert hsign
    cases isNegative (-x) <;> cases isNegative x <;> decide
  · rw [code_ofCode _ h, code_of_parts hneg, code_of_parts hbits]

theorem neg_of_isFinite {x : Float} (h : x.isFinite) : -x = ofCode (!isNegative x)
    (code x) :=
  neg_of_code_le (code_le_of_isFinite h)

theorem code_neg {x : Float} (h : x.isFinite) : code (-x) = code x := by
  rw [neg_of_isFinite h, code_ofCode _ (code_le_of_isFinite h)]

theorem isNegative_neg {x : Float} (h : x.isFinite) :
    isNegative (-x) = !isNegative x := by
  rw [neg_of_isFinite h, isNegative_ofCode _ (code_le_of_isFinite h)]

theorem isFinite_neg {x : Float} (h : x.isFinite) : (-x).isFinite := by
  rw [isFinite_iff, code_neg h]
  exact (isFinite_iff x).mp h

theorem neg_neg_of_isFinite {x : Float} (h : x.isFinite) : - -x = x := by
  apply eq_of_code_eq
  · rw [isNegative_neg (isFinite_neg h), isNegative_neg h, Bool.not_not]
  · rw [code_neg (isFinite_neg h), code_neg h]

theorem beq_self_of_isFinite {x : Float} (h : x.isFinite) : x == x := by
  apply Float.beq_self_iff.mpr
  rintro rfl
  revert h
  decide

end Calculator.Binary64
