import Calculator.Proofs.DoubleBits

namespace Calculator.Binary64

open Float.Model
open Float.Model.UnpackedFloat

/-- A code with a sign, counted downwards if it is negative. -/
def signed (negative : Bool) (c : Nat) : Int :=
  if negative then -(c : Int) else c

@[simp] theorem signed_false (c : Nat) : signed false c = c := rfl

@[simp] theorem signed_true (c : Nat) : signed true c = -(c : Int) := rfl

theorem signed_pos_iff {negative : Bool} {c : Nat} (h : 0 < c) :
    0 < signed negative c ↔ negative = false := by
  cases negative with
  | false => exact iff_of_true (Int.natCast_pos.mpr h) rfl
  | true =>
      rw [signed_true]
      exact iff_of_false (by omega) nofun

theorem signed_neg_iff {negative : Bool} {c : Nat} (h : 0 < c) :
    signed negative c < 0 ↔ negative = true := by
  cases negative with
  | false =>
      rw [signed_false]
      exact iff_of_false (by omega) Bool.false_ne_true
  | true => exact iff_of_true (Int.neg_neg_of_pos (Int.natCast_pos.mpr h)) rfl

theorem signed_mono {f : Nat → Nat} (hzero : f 0 = 0) (hmono : ∀ c e, c ≤ e → f c ≤ f e)
    {negative other : Bool} {c e : Nat} (h : signed negative c ≤ signed other e) :
    signed negative (f c) ≤ signed other (f e) := by
  cases negative with
  | false =>
      cases other with
      | false => exact Int.ofNat_le.mpr (hmono c e (Int.ofNat_le.mp h))
      | true =>
          rw [signed_false, signed_true] at h
          obtain ⟨rfl, rfl⟩ : c = 0 ∧ e = 0 := by omega
          rw [hzero]
          decide
  | true =>
      cases other with
      | false =>
          rw [signed_false, signed_true]
          omega
      | true =>
          rw [signed_true, signed_true] at h ⊢
          exact Int.neg_le_neg (Int.ofNat_le.mpr (hmono e c (by omega)))

/-- The place of a double among all doubles. -/
def rank (x : Float) : Int :=
  signed (isNegative x) (code x)

/-- A finite magnitude in its two parts, and its code. The exponent is that of a
unit or, with all 53 bits of the mantissa in use, so much larger. -/
structure Parts (mantissa : Nat) (exponent : Int) (c : Nat) : Prop where
  bits : mantissa < 1 <<< 53
  exists_raised : ∃ raised : Nat, exponent = raised - 1074 ∧
  c = raised <<< 52 + mantissa ∧
    (0 < raised → 1 <<< 52 ≤ mantissa)
  finite : c < infinityCode

theorem Parts.compare_eq {m n c e : Nat} {p q : Int} (hc : Parts m p c)
    (he : Parts n q e) :
    (compare p q).then (compare m n) = compare (c : Int) e := by
  have hm := hc.bits
  have hn := he.bits
  obtain ⟨i, rfl, rfl, hi⟩ := hc.exists_raised
  obtain ⟨j, rfl, rfl, hj⟩ := he.exists_raised
  simp only [Nat.shiftLeft_eq] at hm hn hi hj ⊢
  rcases Nat.lt_trichotomy i j with hlt | rfl | hgt
  · have hexponent : compare ((i : Int) - 1074) (j - 1074) = .lt :=
      compare_lt_iff_lt.mpr (by omega)
    have hcode : compare ((i * 2 ^ 52 + m : Nat) : Int) (j * 2 ^ 52 + n : Nat) = .lt :=
      compare_lt_iff_lt.mpr (by omega)
    rw [hexponent, hcode]
    rfl
  · have hexponent : compare ((i : Int) - 1074) (i - 1074) = .eq :=
      compare_eq_iff_eq.mpr rfl
    rw [hexponent, Ordering.eq_then]
    rcases Nat.lt_trichotomy m n with hlt | rfl | hgt
    · rw [compare_lt_iff_lt.mpr hlt, compare_lt_iff_lt.mpr (by omega)]
    · rw [compare_eq_iff_eq.mpr rfl, compare_eq_iff_eq.mpr rfl]
    · rw [compare_gt_iff_gt.mpr hgt, compare_gt_iff_gt.mpr (by omega)]
  · have hexponent : compare ((i : Int) - 1074) (j - 1074) = .gt :=
      compare_gt_iff_gt.mpr (by omega)
    have hcode : compare ((i * 2 ^ 52 + m : Nat) : Int) (j * 2 ^ 52 + n : Nat) = .gt :=
      compare_gt_iff_gt.mpr (by omega)
    rw [hexponent, hcode]
    rfl

theorem compare_neg_neg (r s : Int) : compare (-r) (-s) = (compare r s).swap := by
  rw [Int.compare_swap]
  simp only [compare, compareOfLessAndEq, Int.neg_lt_neg_iff, Int.neg_inj, eq_comm]

/-- A number in its parts, with the rank of the double that consists of them. -/
inductive Ranked : UnpackedFloat → Int → Prop
  | infinity (sign : Sign) : Ranked (.infinity sign) (sign.apply infinityCode)
  | zero (sign : Sign) : Ranked (.zero sign) 0
  | finite (sign : Sign) {mantissa c : Nat} {exponent : Int} (hpos : 0 < mantissa)
      (hparts : Parts mantissa exponent c) :
      Ranked (.finite sign mantissa exponent hpos) (sign.apply c)

theorem Parts.pos {mantissa c : Nat} {exponent : Int} (h : Parts mantissa exponent c)
    (hpos : 0 < mantissa) : 0 < c := by
  obtain ⟨raised, -, rfl, -⟩ := h.exists_raised
  exact Nat.lt_of_lt_of_le hpos (Nat.le_add_left _ _)

theorem Ranked.compare_eq {a b : UnpackedFloat} {r s : Int} (ha : Ranked a r)
    (hb : Ranked b s) :
    a.compare b = some (compare r s) := by
  have hinfinity : (0 : Int) < infinityCode := by decide
  have hlt {r s : Int} (h : r < s) : some Ordering.lt = some (compare r s) :=
    congrArg some (compare_lt_iff_lt.mpr h).symm
  have hgt {r s : Int} (h : s < r) : some Ordering.gt = some (compare r s) :=
    congrArg some (compare_gt_iff_gt.mpr h).symm
  cases ha with
  | infinity sign =>
      cases hb with
      | infinity other => cases sign <;> cases other <;> decide
      | zero other =>
          cases sign with
          | negative => exact hlt (Int.neg_neg_of_pos hinfinity)
          | positive => exact hgt hinfinity
      | finite other hpos hparts =>
          have hfinite := hparts.finite
          cases sign <;> cases other <;> simp only [Sign.apply]
          · exact hlt (by omega)
          · exact hlt (by omega)
          · exact hgt (by omega)
          · exact hgt (by omega)
  | zero sign =>
      cases hb with
      | infinity other =>
          cases other with
          | negative => exact hgt (Int.neg_neg_of_pos hinfinity)
          | positive => exact hlt hinfinity
      | zero other => rfl
      | finite other hpos hparts =>
          have hcode : (0 : Int) < _ := Int.natCast_pos.mpr (hparts.pos hpos)
          cases other with
          | negative => exact hgt (Int.neg_neg_of_pos hcode)
          | positive => exact hlt hcode
  | finite sign hpos hparts =>
      have hcode := hparts.pos hpos
      have hfinite := hparts.finite
      cases hb with
      | infinity other =>
          cases sign <;> cases other <;> simp only [Sign.apply]
          · exact hgt (by omega)
          · exact hlt (by omega)
          · exact hgt (by omega)
          · exact hlt (by omega)
      | zero other =>
          have hcode : (0 : Int) < _ := Int.natCast_pos.mpr hcode
          cases sign with
          | negative => exact hlt (Int.neg_neg_of_pos hcode)
          | positive => exact hgt hcode
      | finite other hpos' hparts' =>
          have hcode' := hparts'.pos hpos'
          cases sign <;> cases other <;> simp only [Sign.apply]
          · rw [compare_neg_neg, ← hparts.compare_eq hparts']
            rfl
          · exact hlt (by omega)
          · exact hgt (by omega)
          · rw [← hparts.compare_eq hparts']
            rfl

theorem rank_of_parts {x : Float} {sign : Sign} {exponent : BitVec 11}
    {significand : BitVec 52}
    (h : x.toBits.toBitVec = packComponents Format.binary64 sign exponent significand) :
    rank x = sign.apply (exponent.toNat <<< 52 + significand.toNat : Nat) := by
  have hsign := isNegative_of_parts h
  rw [rank, code_of_parts h]
  cases sign with
  | negative => rw [Bool.toNat_eq_one.mp hsign, signed_true, Sign.apply]
  | positive => rw [Bool.toNat_eq_zero.mp hsign, signed_false, Sign.apply]

theorem toNat_one_append (significand : BitVec 52) :
    (1#1 ++ significand).toNat = 1 <<< 52 + significand.toNat := by
  rw [BitVec.toNat_append, ← Nat.shiftLeft_add_eq_or_of_lt significand.isLt]
  rfl

theorem unpack_packComponents_cases (sign : Sign) (exponent : BitVec 11)
    (significand : BitVec 52) :
    exponent.toNat <<< 52 + significand.toNat ≤ infinityCode ∧
        Ranked (UnpackedFloat.unpack Format.binary64
            (packComponents Format.binary64 sign exponent significand))
          (sign.apply (exponent.toNat <<< 52 + significand.toNat : Nat)) ∨
      infinityCode < exponent.toNat <<< 52 + significand.toNat ∧
        UnpackedFloat.unpack Format.binary64
          (packComponents Format.binary64 sign exponent significand) = .notANumber := by
  have hexponent : exponent.toNat < 2048 := exponent.isLt
  have hsignificand : significand.toNat < 1 <<< 52 := significand.isLt
  simp only [UnpackedFloat.unpack, unpackSign_packComponents,
    unpackMantissa_packComponents,
    unpackExponent_packComponents, Sign.ofBitVec_toBitVec]
  split
  · rename_i hall
    split
    · rename_i hzero
      rw [hall, hzero]
      exact .inl ⟨Nat.le_refl _, .infinity sign⟩
    · rename_i hzero
      have hpos : significand.toNat ≠ 0 := fun heq => hzero (BitVec.eq_of_toNat_eq heq)
      have htop : exponent.toNat = 2047 := by rw [hall]; rfl
      refine .inr ⟨?_, rfl⟩
      rw [htop, infinityCode]
      exact Nat.lt_add_of_pos_right (Nat.pos_of_ne_zero hpos)
  · rename_i hnot
    have hlt : exponent.toNat < 2047 := by
      have hne : exponent.toNat ≠ 2047 := fun heq => hnot (BitVec.eq_of_toNat_eq heq)
      omega
    have hfinite : exponent.toNat <<< 52 + significand.toNat < infinityCode := by
      simp only [infinityCode, Nat.shiftLeft_eq] at hsignificand ⊢
      omega
    refine .inl ⟨Nat.le_of_lt hfinite, ?_⟩
    split
    · rename_i hsmall
      have hnone : exponent.toNat = 0 := by rw [hsmall]; rfl
      split
      · rename_i hzero
        have hcode : exponent.toNat <<< 52 + significand.toNat =
            0 := by rw [hnone, hzero]; rfl
        have hrank : sign.apply (0 : Nat) = 0 := by cases sign <;> rfl
        rw [hcode, hrank]
        exact .zero sign
      · rename_i hzero
        refine .finite sign _ ⟨?_, ⟨0, ?_, ?_, ?_⟩, hfinite⟩
        · exact Nat.lt_trans hsignificand (by decide)
        · rw [hnone]
          rfl
        · rw [hnone]
        · exact fun h => absurd h (Nat.lt_irrefl 0)
    · rename_i hnormal
      have hpos : exponent.toNat ≠ 0 := fun heq => hnormal (BitVec.eq_of_toNat_eq heq)
      obtain ⟨raised, hraised⟩ := Nat.exists_eq_add_one.mpr (Nat.pos_of_ne_zero hpos)
      have hbits := toNat_one_append significand
      refine .finite sign _ ⟨?_, ⟨raised, ?_, ?_, ?_⟩, hfinite⟩
      · rw [hbits]
        simp only [Nat.shiftLeft_eq] at hsignificand ⊢
        omega
      · change (exponent.toNat : Int) - (1023 + 52) = raised - 1074
        omega
      · rw [hbits, hraised]
        simp only [Nat.shiftLeft_eq]
        omega
      · rw [hbits]
        exact fun _ => Nat.le_add_right _ _

theorem ranked_unpack {x : Float} (h : code x ≤ infinityCode) :
    Ranked x.toModel.unpack (rank x) := by
  obtain ⟨sign, exponent, significand, hbits⟩ := exists_parts x
  rw [code_of_parts hbits] at h
  change Ranked (UnpackedFloat.unpack Format.binary64 x.toBits.toBitVec) _
  rw [rank_of_parts hbits, hbits]
  rcases unpack_packComponents_cases sign exponent significand with ⟨-, hranked⟩ | ⟨hlt, -⟩
  · exact hranked
  · exact absurd h (Nat.not_le_of_lt hlt)

theorem unpack_of_infinityCode_lt {x : Float} (h : infinityCode < code x) :
    x.toModel.unpack = .notANumber := by
  obtain ⟨sign, exponent, significand, hbits⟩ := exists_parts x
  rw [code_of_parts hbits] at h
  change UnpackedFloat.unpack Format.binary64 x.toBits.toBitVec = _
  rw [hbits]
  rcases unpack_packComponents_cases sign exponent significand with ⟨hle, -⟩ | ⟨-, hnan⟩
  · exact absurd h (Nat.not_lt_of_le hle)
  · exact hnan

theorem compare_notANumber (a : UnpackedFloat) : a.compare .notANumber = none := by
  cases a <;> rfl

section

variable {x y : Float}

theorem compare_unpack (hx : code x ≤ infinityCode) (hy : code y ≤ infinityCode) :
    x.toModel.unpack.compare y.toModel.unpack = some (compare (rank x) (rank y)) :=
  (ranked_unpack hx).compare_eq (ranked_unpack hy)

theorem code_le_of_le (h : x ≤ y) : code x ≤ infinityCode ∧ code y ≤ infinityCode := by
  have hle : x.toModel.unpack.le y.toModel.unpack := of_decide_eq_true h
  rw [UnpackedFloat.le] at hle
  constructor
  · apply Nat.le_of_not_lt
    intro hnan
    rw [unpack_of_infinityCode_lt hnan] at hle
    contradiction
  · apply Nat.le_of_not_lt
    intro hnan
    rw [unpack_of_infinityCode_lt hnan, compare_notANumber] at hle
    contradiction

theorem le_iff_rank (hx : code x ≤ infinityCode) (hy : code y ≤ infinityCode) :
    x ≤ y ↔ rank x ≤ rank y := by
  have hle : x ≤ y ↔ x.toModel.unpack.le y.toModel.unpack := decide_eq_true_iff
  rw [hle, UnpackedFloat.le, compare_unpack hx hy, Option.any_some, Int.isLE_compare]

theorem lt_iff_rank (hx : code x ≤ infinityCode) (hy : code y ≤ infinityCode) :
    x < y ↔ rank x < rank y := by
  have hlt : x < y ↔ x.toModel.unpack.lt y.toModel.unpack := decide_eq_true_iff
  rw [hlt, UnpackedFloat.lt, compare_unpack hx hy, beq_iff_eq, Option.some_inj,
    compare_lt_iff_lt]

end

end Calculator.Binary64
