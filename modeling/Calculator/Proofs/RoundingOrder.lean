import Calculator.Precision

namespace Calculator

namespace Rounding

theorem divNearest_mono {n m d : Nat} (hd : 0 < d) (h : n ≤ m) :
    divNearest n d ≤ divNearest m d := by
  apply Nat.le_of_not_lt
  intro hlt
  have hupper : 2 * (d * divNearest n d) ≤ 2 * n + d := divNearest_le
  have hlower : 2 * m ≤ 2 * (d * divNearest m d) + d := le_divNearest hd
  have hstep : d * (divNearest m d + 1) ≤ d * divNearest n d :=
    Nat.mul_le_mul_left d hlt
  rw [Nat.mul_succ] at hstep
  -- A smaller result is left only for equal arguments in the same tie.
  have heq : n = m := by omega
  rw [heq] at hlt
  exact Nat.lt_irrefl _ hlt

theorem divNearest_le_of_le_mul {n d k : Nat} (hd : 0 < d) (h : n ≤ d * k) :
    divNearest n d ≤ k := by
  rw [← divNearest_mul_right (n := k) hd]
  exact divNearest_mono hd h

theorem le_divNearest_of_mul_le {n d k : Nat} (hd : 0 < d) (h : d * k ≤ n) :
    k ≤ divNearest n d := by
  rw [← divNearest_mul_right (n := k) hd]
  exact divNearest_mono hd h

theorem div_le_divNearest {n d : Nat} : n / d ≤ divNearest n d := by
  unfold divNearest
  split
  · exact Nat.le_refl _
  · exact Nat.le_succ _

theorem divNearest_pos {n d : Nat} (h : d < 2 * n) : 0 < divNearest n d := by
  have hdiv := Nat.div_add_mod n d
  unfold divNearest
  split
  · rename_i hdown
    apply Nat.pos_of_ne_zero
    intro hzero
    rw [hzero, Nat.mul_zero] at hdiv
    omega
  · exact Nat.succ_pos _

end Rounding

namespace Binary64

open Calculator.Rounding

theorem shiftLeft_pos {d : Nat} (hd : 0 < d) (shift : Nat) : 0 < d <<< shift := by
  rw [Nat.shiftLeft_eq]
  exact Nat.mul_pos hd (Nat.two_pow_pos _)

/-- The significand that a fraction is rounded to has at most 53 bits, or is
the next power of two. -/
theorem divNearest_shiftLeft_le {n d shift : Nat} (hd : 0 < d)
    (h : (n / d).log2 ≤ shift + 52) : divNearest n (d <<< shift) ≤ 1 <<< 53 := by
  rw [Nat.one_shiftLeft]
  apply divNearest_le_of_le_mul (shiftLeft_pos hd shift)
  have hlog : n / d < 2 ^ (shift + 53) :=
    Nat.lt_of_lt_of_le Nat.lt_log2_self (Nat.pow_le_pow_right (by decide) (Nat.succ_le_succ h))
  have hlt := (Nat.div_lt_iff_lt_mul hd).mp hlog
  rw [Nat.shiftLeft_eq, Nat.mul_assoc, ← Nat.pow_add, Nat.mul_comm]
  exact Nat.le_of_lt hlt

theorem le_divNearest_shiftLeft {n d shift : Nat} (hd : 0 < d) (hn : n / d ≠ 0)
    (h : (n / d).log2 = shift + 52) : 1 <<< 52 ≤ divNearest n (d <<< shift) := by
  rw [Nat.one_shiftLeft]
  apply le_divNearest_of_mul_le (shiftLeft_pos hd shift)
  have hlog : 2 ^ (shift + 52) ≤ n / d := by
    rw [← h]
    exact Nat.log2_self_le hn
  have hle := (Nat.le_div_iff_mul_le hd).mp hlog
  rw [Nat.shiftLeft_eq, Nat.mul_assoc, ← Nat.pow_add, Nat.mul_comm]
  exact hle

theorem log2_le_log2 {n m : Nat} (h : n ≤ m) : n.log2 ≤ m.log2 := by
  by_cases hn : n = 0
  · rw [hn, Nat.log2_zero]
    exact Nat.zero_le _
  · have hm : m ≠ 0 := by omega
    exact (Nat.le_log2 hm).mpr (Nat.le_trans (Nat.log2_self_le hn) h)

theorem nearestCode_mono {n m d : Nat} (hd : 0 < d) (h : n ≤ m) :
    nearestCode n d ≤ nearestCode m d := by
  have hlog : (n / d).log2 ≤ (m / d).log2 := log2_le_log2 (Nat.div_le_div_right h)
  simp only [nearestCode]
  generalize hs : (n / d).log2 - 52 = s
  generalize ht : (m / d).log2 - 52 = t
  suffices hle :
      (s <<< 52) + divNearest n (d <<< s) ≤ (t <<< 52) + divNearest m (d <<< t) by
    omega
  by_cases hst : s = t
  · rw [hst]
    exact Nat.add_le_add_left (divNearest_mono (shiftLeft_pos hd t) h) _
  · -- The larger fraction has more bits, so its significand starts where the other one ends.
    have hlower : 1 <<< 52 ≤ divNearest m (d <<< t) := by
      have hm : m / d ≠ 0 := by
        intro hzero
        rw [hzero, Nat.log2_zero] at hlog ht
        omega
      exact le_divNearest_shiftLeft hd hm (by omega)
    have hupper : divNearest n (d <<< s) ≤ 1 <<< 53 :=
      divNearest_shiftLeft_le hd (by omega)
    rw [Nat.shiftLeft_eq s, Nat.shiftLeft_eq t]
    omega

theorem nearestCode_pos {n d : Nat} (h : d < 2 * n) : 0 < nearestCode n d := by
  simp only [nearestCode]
  generalize (n / d).log2 - 52 = shift
  cases shift with
  | zero =>
      have hpos : 0 < divNearest n (d <<< 0) := divNearest_pos h
      simp only [infinityCode]
      omega
  | succ shift =>
      simp only [infinityCode, Nat.shiftLeft_eq]
      omega

/-- How far the next larger magnitude is from the one with code `c`, in units. -/
def gap (c : Nat) : Nat :=
  1 <<< ((c >>> 52) - 1)

theorem gap_pos (c : Nat) : 0 < gap c :=
  shiftLeft_pos Nat.one_pos _

theorem units_eq_mul_gap (c : Nat) :
    units c = (c - ((c >>> 52) - 1) <<< 52) * gap c := by
  rw [units_eq_shiftLeft, gap, Nat.shiftLeft_eq _ ((c >>> 52) - 1), Nat.one_shiftLeft]

theorem units_succ (c : Nat) : units (c + 1) = units c + gap c := by
  rw [units_eq_mul_gap, units_eq_mul_gap]
  unfold gap
  simp only [Nat.shiftLeft_eq, Nat.shiftRight_eq_div_pow, Nat.one_mul]
  by_cases hsame : (c + 1) / 2 ^ 52 - 1 = c / 2 ^ 52 - 1
  · rw [hsame, ← Nat.succ_mul]
    congr 1
    omega
  · -- The last significand is followed by the first one of the next exponent.
    obtain ⟨k, hk⟩ : ∃ k, c / 2 ^ 52 = k + 1 := Nat.exists_eq_add_one.mpr (by omega)
    have hnext : (c + 1) / 2 ^ 52 = k + 1 + 1 := by omega
    have hdouble : 2 ^ (k + 1) = 2 * 2 ^ k := Nat.pow_succ'
    rw [hk, hnext, Nat.add_sub_cancel, Nat.add_sub_cancel, hdouble, ← Nat.mul_assoc,
      ← Nat.succ_mul]
    congr 1
    omega

theorem units_lt_units_succ (c : Nat) : units c < units (c + 1) := by
  rw [units_succ]
  exact Nat.lt_add_of_pos_right (gap_pos c)

theorem units_mono {c e : Nat} (h : c ≤ e) : units c ≤ units e := by
  induction h with
  | refl => exact Nat.le_refl _
  | step _ ih => exact Nat.le_trans ih (Nat.le_of_lt (units_lt_units_succ _))

theorem units_pos {c : Nat} (h : 0 < c) : 0 < units c := by
  have hone : units 1 = 1 := units_of_lt (by decide)
  have hmono := units_mono (Nat.succ_le_of_lt h)
  rwa [hone] at hmono

end Binary64

namespace Decimal

open Calculator.Rounding
open Calculator.Binary64

theorem powerOfTen_lt_iff {m n : Nat} : powerOfTen m < powerOfTen n ↔ m < n :=
  Nat.pow_lt_pow_iff_right (by decide)

theorem digitCount_eq {n count : Nat} (hlow : powerOfTen count ≤ n)
    (hhigh : n < powerOfTen (count + 1)) : digitCount n = count + 1 := by
  have hpos : 0 < n := Nat.lt_of_lt_of_le (powerOfTen_pos count) hlow
  have hlt := powerOfTen_lt_iff.mp (Nat.lt_of_le_of_lt hlow (lt_powerOfTen_digitCount n))
  have hle := powerOfTen_lt_iff.mp (Nat.lt_of_le_of_lt (powerOfTen_digitCount_le hpos) hhigh)
  omega

theorem digitCount_mono {n m : Nat} (hn : 0 < n) (h : n ≤ m) :
    digitCount n ≤ digitCount m := by
  have hle := powerOfTen_digitCount_le hn
  have hlt := lt_powerOfTen_digitCount m
  have := powerOfTen_lt_iff.mp (Nat.lt_of_le_of_lt (Nat.le_trans hle h) hlt)
  omega

section

variable {digits n : Nat}

theorem keepDigits_le_powerOfTen : keepDigits digits n ≤ powerOfTen (digitCount n) := by
  have hplace : digitCount n = (digitCount n - digits) +
      (digitCount n - (digitCount n - digits)) := by omega
  have hpower := powerOfTen_add (digitCount n - digits)
    (digitCount n - (digitCount n - digits))
  rw [← hplace] at hpower
  have hle : n ≤ powerOfTen (digitCount n) := Nat.le_of_lt (lt_powerOfTen_digitCount n)
  rw [hpower] at hle ⊢
  rw [keepDigits, Nat.mul_comm]
  exact Nat.mul_le_mul_left _ (divNearest_le_of_le_mul (powerOfTen_pos _) hle)

theorem powerOfTen_le_keepDigits (hdigits : 0 < digits) (hn : 0 < n) :
    powerOfTen (digitCount n - 1) ≤ keepDigits digits n := by
  have hcount := powerOfTen_digitCount_le hn
  have hplace : digitCount n - 1 = (digitCount n - digits) +
      (digitCount n - 1 - (digitCount n - digits)) := by omega
  have hpower := powerOfTen_add (digitCount n - digits)
    (digitCount n - 1 - (digitCount n - digits))
  rw [← hplace] at hpower
  rw [hpower] at hcount ⊢
  rw [keepDigits, Nat.mul_comm (divNearest _ _)]
  exact Nat.mul_le_mul_left _ (le_divNearest_of_mul_le (powerOfTen_pos _) hcount)

theorem keepDigits_mono {m : Nat} (hdigits : 0 < digits) (hn : 0 < n) (h : n ≤ m) :
    keepDigits digits n ≤ keepDigits digits m := by
  by_cases hcount : digitCount n = digitCount m
  · rw [keepDigits, keepDigits, hcount]
    exact Nat.mul_le_mul_right _ (divNearest_mono (powerOfTen_pos _) h)
  · -- A power of ten lies between the two numbers, and between what they are rounded to.
    have hlt : digitCount n < digitCount m :=
      Nat.lt_of_le_of_ne (digitCount_mono hn h) hcount
    calc keepDigits digits n ≤ powerOfTen (digitCount n) := keepDigits_le_powerOfTen
      _ ≤ powerOfTen (digitCount m - 1) := powerOfTen_le (by omega)
      _ ≤ keepDigits digits m := powerOfTen_le_keepDigits hdigits (by omega)

theorem lt_two_mul_keepDigits (hdigits : 0 < digits) (hn : 0 < n) :
    n < 2 * keepDigits digits n := by
  have hcount := powerOfTen_digitCount_le hn
  have hplace : powerOfTen (digitCount n - digits) ≤ n :=
    Nat.le_trans (powerOfTen_le (by omega)) hcount
  have hpos : 0 < powerOfTen (digitCount n - digits) := powerOfTen_pos _
  have hquotient : 0 < n / powerOfTen (digitCount n - digits) := Nat.div_pos hplace hpos
  rw [keepDigits]
  generalize powerOfTen (digitCount n - digits) = place at *
  calc n < (n / place + 1) * place := Nat.lt_mul_of_div_lt (Nat.lt_succ_self _) hpos
    _ ≤ 2 * (n / place) * place := Nat.mul_le_mul_right _ (by omega)
    _ ≤ 2 * divNearest n place * place :=
      Nat.mul_le_mul_right _ (Nat.mul_le_mul_left _ div_le_divNearest)
    _ = 2 * (divNearest n place * place) := Nat.mul_assoc _ _ _

end

theorem significantCode_mono {digits c e : Nat} (hdigits : 0 < digits) (hc : 0 < c)
    (h : c ≤ e) :
    significantCode digits c ≤ significantCode digits e := by
  have hpos : 0 < steps c := Nat.mul_pos (units_pos hc) stepsPerUnit_pos
  exact nearestCode_mono stepsPerUnit_pos
    (keepDigits_mono hdigits hpos (Nat.mul_le_mul_right _ (units_mono h)))

theorem significantCode_pos {digits c : Nat} (hdigits : 0 < digits) (hc : 0 < c) :
    0 < significantCode digits c := by
  have hunits := units_pos hc
  have hpos : 0 < steps c := Nat.mul_pos hunits stepsPerUnit_pos
  have hsteps : stepsPerUnit ≤ steps c := Nat.le_mul_of_pos_left _ hunits
  exact nearestCode_pos (Nat.lt_of_le_of_lt hsteps (lt_two_mul_keepDigits hdigits hpos))

end Decimal

end Calculator
