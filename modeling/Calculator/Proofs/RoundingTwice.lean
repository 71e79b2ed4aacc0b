import Calculator.Proofs.Nearest

namespace Calculator.Decimal

open Calculator.Rounding
open Calculator.Binary64

theorem steps_zero : steps 0 = 0 := by
  rw [steps, units_zero, Nat.zero_mul]

theorem steps_pos {c : Nat} (h : 0 < c) : 0 < steps c :=
  Nat.mul_pos (units_pos h) stepsPerUnit_pos

theorem steps_succ (c : Nat) : steps (c + 1) = steps c + gap c * stepsPerUnit := by
  rw [steps, units_succ, Nat.add_mul, steps]

theorem codeOfSteps_mono {n m : Nat} (h : n ≤ m) : codeOfSteps n ≤ codeOfSteps m :=
  nearestCode_mono stepsPerUnit_pos h

theorem lt_codeOfSteps_iff {n c : Nat} (hc : c < infinityCode) :
    c < codeOfSteps n ↔ steps c + steps (c + 1) < 2 * n ∨
      steps c + steps (c + 1) = 2 * n ∧ c % 2 = 1 := by
  rw [codeOfSteps, lt_nearestCode_iff stepsPerUnit_pos hc, Nat.mul_comm, Nat.add_mul]
  rfl

theorem dist_codeOfSteps_le {n : Nat} (h : codeOfSteps n < infinityCode) (c : Nat) :
    Nat.dist n (steps (codeOfSteps n)) ≤ Nat.dist n (steps c) := by
  rw [steps, steps, Nat.mul_comm, Nat.mul_comm (units c)]
  exact dist_nearestCode_le stepsPerUnit_pos h c

theorem codeOfSteps_eq_of_near {n c : Nat} (hc : c < infinityCode)
    (h : (1 <<< 54) * Nat.dist n (steps c) < steps c) : codeOfSteps n = c := by
  rw [steps, Nat.mul_comm (units c)] at h
  exact nearestCode_eq_of_near stepsPerUnit_pos hc h

theorem codeOfSteps_of_between {m n k c : Nat} (hm : codeOfSteps m = c)
    (hk : codeOfSteps k = c) (hmn : m ≤ n) (hnk : n ≤ k) : codeOfSteps n = c :=
  Nat.le_antisymm (hk ▸ codeOfSteps_mono hnk) (hm ▸ codeOfSteps_mono hmn)

section

variable {digits n : Nat}

theorem keepDigits_eq_mul (digits n : Nat) : keepDigits digits n =
    powerOfTen (digitCount n - digits) * divNearest n (powerOfTen (digitCount n - digits)) :=
  Nat.mul_comm _ _

theorem lt_digitCount_of_keepDigits_ne (h : keepDigits digits n ≠ n) :
    digits < digitCount n :=
  Nat.lt_of_not_le fun hle => h (keepDigits_of_le hle)

theorem powerOfTen_eq_mul {count : Nat} (h : digits ≤ count) :
    powerOfTen count = powerOfTen (count - digits) * powerOfTen digits := by
  rw [← powerOfTen_add, Nat.sub_add_cancel h]

theorem keepDigits_of_dvd (h : powerOfTen (digitCount n - digits) ∣ n) :
    keepDigits digits n = n := by
  have hunit := powerOfTen_pos (digitCount n - digits)
  obtain ⟨count, hcount⟩ := h
  rw [keepDigits_eq_mul]
  generalize powerOfTen (digitCount n - digits) = unit at *
  rw [hcount, divNearest_mul_right hunit]

theorem two_mul_dist_keepDigits_le (digits n : Nat) :
    2 * Nat.dist n (keepDigits digits n) ≤ powerOfTen (digitCount n - digits) := by
  have hnear := (divNearest_eq_iff (n := n) (powerOfTen_pos (digitCount n - digits))).mp rfl
  rw [← keepDigits_eq_mul] at hnear
  omega

theorem dist_keepDigits_le_powerOfTen {k : Nat} (h : digitCount n - digits ≤ k) :
    Nat.dist n (keepDigits digits n) ≤ Nat.dist n (powerOfTen k) := by
  have hpower := powerOfTen_add (digitCount n - digits) (k - (digitCount n - digits))
  rw [Nat.add_sub_cancel' h] at hpower
  rw [keepDigits_eq_mul, hpower]
  exact dist_divNearest_le (powerOfTen_pos _) _

/-- What is as long as a number, with nothing to be rounded away, is no nearer to it
than its first digits are. -/
theorem dist_keepDigits_le {m : Nat} (hcount : digitCount m = digitCount n)
    (hm : keepDigits digits m = m) :
    Nat.dist n (keepDigits digits n) ≤ Nat.dist n m := by
  rw [keepDigits_eq_mul, hcount] at hm
  rw [keepDigits_eq_mul, ← hm]
  exact dist_divNearest_le (powerOfTen_pos _) _

theorem keepDigits_add_le {m : Nat} (hcount : digitCount m = digitCount n)
    (h : keepDigits digits m < keepDigits digits n) :
    keepDigits digits m + powerOfTen (digitCount n - digits) ≤ keepDigits digits n := by
  rw [keepDigits_eq_mul, keepDigits_eq_mul digits n, hcount] at h ⊢
  rw [← Nat.mul_succ]
  exact Nat.mul_le_mul_left _ (Nat.lt_of_mul_lt_mul_left h)

theorem keepDigits_eq_of_dist_le {m : Nat} (hcount : digitCount m = digitCount n)
    (h : Nat.dist m (keepDigits digits n) ≤ Nat.dist n (keepDigits digits n)) :
    keepDigits digits m = keepDigits digits n := by
  rw [keepDigits_eq_mul digits n] at h
  rw [keepDigits_eq_mul, keepDigits_eq_mul, hcount]
  rw [divNearest_eq_of_dist_le (powerOfTen_pos _) h]

end

theorem significantCode_of_le {digits c : Nat} (hdigits : 17 ≤ digits) (hpos : 0 < c)
    (hc : c < infinityCode) : significantCode digits c = c := by
  apply codeOfSteps_eq_of_near hc
  have hsteps := steps_pos hpos
  have hcount := powerOfTen_digitCount_le hsteps
  have hdist := two_mul_dist_keepDigits_le digits (steps c)
  rw [Nat.dist_comm] at hdist
  by_cases hlong : digits ≤ digitCount (steps c)
  -- Half a unit of the seventeenth digit is less than a 2⁵⁴th part of the number.
  · have hplace :
        powerOfTen (digitCount (steps c) - digits) * powerOfTen 16 ≤ steps c := by
      rw [← powerOfTen_add]
      exact Nat.le_trans (powerOfTen_le (by omega)) hcount
    have hsixteen : powerOfTen 16 = 10000000000000000 := rfl
    have hplacePos := powerOfTen_pos (digitCount (steps c) - digits)
    rw [hsixteen] at hplace
    omega
  · rw [Nat.sub_eq_zero_of_le (by omega), powerOfTen_zero] at hdist
    omega

theorem steps_of_gap_double {c : Nat} (hgap : gap (c + 1) = 2 * gap c)
    (hunits : units (c + 1) = (1 <<< 53) * gap c) :
    0 < gap c * stepsPerUnit ∧ steps (c + 1) = (1 <<< 53) * (gap c * stepsPerUnit) ∧
      steps (c + 1 + 1) = steps (c + 1) + 2 * (gap c * stepsPerUnit) := by
  refine ⟨Nat.mul_pos (gap_pos c) stepsPerUnit_pos, ?_, ?_⟩
  · rw [steps, hunits, Nat.mul_assoc]
  · rw [steps_succ (c + 1), hgap, Nat.mul_assoc]

theorem steps_add_steps_le (c : Nat) :
    steps (c + 1) + steps (c + 1) ≤ steps c + steps (c + 1 + 1) := by
  have hgap : gap c * stepsPerUnit ≤ gap (c + 1) * stepsPerUnit :=
    Nat.mul_le_mul_right _ (gap_le_gap_succ c)
  rw [steps_succ (c + 1), steps_succ c]
  omega

/-- What lies no further above a magnitude than something that is rounded up to it
is rounded down to it. -/
theorem codeOfSteps_of_reflected_above {n m c : Nat} (hc : c < infinityCode)
    (hm : codeOfSteps m = c) (hlow : m < steps c) (hhigh : steps c ≤ n)
    (hdist : n - steps c ≤ steps c - m) : codeOfSteps n = c := by
  have hupper : ¬ c < codeOfSteps n := by
    cases c with
    | zero =>
        rw [steps, units_zero, Nat.zero_mul] at hlow
        exact absurd hlow (Nat.not_lt_zero m)
    | succ c =>
        have hgaps := steps_add_steps_le c
        have hmiddle :=
          (lt_codeOfSteps_iff (n := m) (Nat.lt_of_succ_lt hc)).mp (by omega)
        rw [lt_codeOfSteps_iff hc]
        generalize steps c = below at *
        generalize steps (c + 1) = here at *
        generalize steps (c + 1 + 1) = above at *
        omega
  apply Nat.le_antisymm (Nat.le_of_not_lt hupper)
  rw [← hm]
  exact codeOfSteps_mono (Nat.le_trans (Nat.le_of_lt hlow) hhigh)

/-- What lies no further below a magnitude than something that is rounded down to it
is rounded up to it, where the gaps on both sides are equal. -/
theorem codeOfSteps_of_reflected_below {n m c : Nat} (hc : c + 1 < infinityCode)
    (hgap : gap (c + 1) = gap c) (hm : codeOfSteps m = c + 1) (hlow : n ≤ steps (c + 1))
    (hhigh : steps (c + 1) ≤ m) (hdist : steps (c + 1) - n ≤ m - steps (c + 1)) :
    codeOfSteps n = c + 1 := by
  have hlower : c < codeOfSteps n := by
    have hgaps : steps (c + 1) + steps (c + 1) = steps c + steps (c + 1 + 1) := by
      rw [steps_succ (c + 1), steps_succ c, hgap]
      omega
    have hmiddle := mt (lt_codeOfSteps_iff (n := m) hc).mpr (by omega)
    rw [lt_codeOfSteps_iff (Nat.lt_of_succ_lt hc)]
    generalize steps c = below at *
    generalize steps (c + 1) = here at *
    generalize steps (c + 1 + 1) = above at *
    omega
  refine Nat.le_antisymm ?_ hlower
  rw [← hm]
  exact codeOfSteps_mono (Nat.le_trans hlow hhigh)

section

variable {digits n c : Nat}

/-- Rounding twice, where the first rounding gives a magnitude of more digits: a
power of ten lies between the decimal and the magnitude. -/
theorem significantCode_of_digitCount_lt (hdigits : 0 < digits) (hpos : 0 < c)
    (hc : c < infinityCode) (hn : codeOfSteps (keepDigits digits n) = c)
    (hcount : digitCount n < digitCount (steps c)) : significantCode digits c = c := by
  have hsteps := steps_pos hpos
  have hexact := codeOfSteps_steps (Nat.le_of_lt hc)
  have hpower := powerOfTen_digitCount_le hsteps
  have hbetween : codeOfSteps (powerOfTen (digitCount (steps c) - 1)) = c :=
    codeOfSteps_of_between hn hexact
      (Nat.le_trans keepDigits_le_powerOfTen (powerOfTen_le (by omega))) hpower
  have hkept := powerOfTen_le_keepDigits hdigits hsteps
  have hdist : Nat.dist (steps c) (keepDigits digits (steps c)) ≤
      Nat.dist (steps c) (powerOfTen (digitCount (steps c) - 1)) :=
    dist_keepDigits_le_powerOfTen (by omega)
  rw [significantCode]
  generalize powerOfTen (digitCount (steps c) - 1) = power at *
  by_cases hbelow : keepDigits digits (steps c) ≤ steps c
  · exact codeOfSteps_of_between hbetween hexact hkept hbelow
  · rw [Nat.dist_eq_sub_of_le (by omega), Nat.dist_eq_sub_of_le_right hpower] at hdist
    exact codeOfSteps_of_reflected_above hc hbetween (by omega) (by omega) hdist

/-- A power of ten just above the smallest significand, whose neighbour below is nearer
than the one above. No power of ten lies between 2⁵² and 2⁵³ + 1, so the decimals of
that many digits are either finer than the gap below or coarser than the one above. -/
theorem lt_codeOfSteps_keepDigits (hc : c + 1 < infinityCode)
    (hgap : gap (c + 1) = 2 * gap c) (hunits : units (c + 1) = (1 <<< 53) * gap c)
    (hpower : codeOfSteps (powerOfTen (digitCount (steps (c + 1)))) = c + 1)
    (hbelow : keepDigits digits (steps (c + 1)) < steps (c + 1)) :
    c < codeOfSteps (keepDigits digits (steps (c + 1))) := by
  have hlong := lt_digitCount_of_keepDigits_ne (Nat.ne_of_lt hbelow)
  have hmiddle :=
    mt (lt_codeOfSteps_iff (n := powerOfTen (digitCount (steps (c + 1)))) hc).mpr
    (by omega)
  obtain ⟨hpos, hhere, habove⟩ := steps_of_gap_double hgap hunits
  have hlast := steps_succ c
  have hpowerOf := powerOfTen_eq_mul (Nat.le_of_lt hlong)
  have hupper := lt_powerOfTen_digitCount (steps (c + 1))
  by_cases hfew : digits ≤ 15
  -- So few digits are coarser than the gap above: they are rounded up to the power of ten.
  · exfalso
    have hcoarse :=
      Nat.mul_le_mul_left (powerOfTen (digitCount (steps (c + 1)) - digits))
      (powerOfTen_le hfew)
    have hfifteen : powerOfTen 15 = 1000000000000000 := rfl
    rw [← hpowerOf, hfifteen] at hcoarse
    have hround :
        divNearest (steps (c + 1)) (powerOfTen (digitCount (steps (c + 1)) - digits)) =
          powerOfTen digits := by
      rw [divNearest_eq_iff (powerOfTen_pos _), ← hpowerOf,
        Nat.dist_eq_sub_of_le (Nat.le_of_lt hupper)]
      omega
    rw [keepDigits_eq_mul, hround, ← hpowerOf] at hbelow
    omega
  -- More digits are finer than the gap below: what they lose does not reach its middle.
  · have hfine := Nat.mul_le_mul_left (powerOfTen (digitCount (steps (c + 1)) - digits))
      (powerOfTen_le (Nat.lt_of_not_le hfew))
    have hsixteen : powerOfTen 16 = 10000000000000000 := rfl
    rw [← hpowerOf, hsixteen] at hfine
    have hdist := two_mul_dist_keepDigits_le digits (steps (c + 1))
    rw [Nat.dist_eq_sub_of_le_right (Nat.le_of_lt hbelow)] at hdist
    rw [lt_codeOfSteps_iff (Nat.lt_of_succ_lt hc)]
    omega

theorem significantCode_of_digitCount_gt (hdigits : 0 < digits) (hn : 0 < n)
    (hpos : 0 < c)
    (hc : c < infinityCode) (hcode : codeOfSteps (keepDigits digits n) = c)
    (hcount : digitCount (steps c) < digitCount n) : significantCode digits c = c := by
  have hexact := codeOfSteps_steps (Nat.le_of_lt hc)
  have hpower := Nat.le_of_lt (lt_powerOfTen_digitCount (steps c))
  have hbetween : codeOfSteps (powerOfTen (digitCount (steps c))) = c :=
    codeOfSteps_of_between hexact hcode hpower
      (Nat.le_trans (powerOfTen_le (by omega)) (powerOfTen_le_keepDigits hdigits hn))
  have hkept : keepDigits digits (steps c) ≤ powerOfTen (digitCount (steps c)) :=
    keepDigits_le_powerOfTen
  rw [significantCode]
  by_cases habove : steps c ≤ keepDigits digits (steps c)
  · exact codeOfSteps_of_between hexact hbetween habove hkept
  have hbelow := Nat.lt_of_not_le habove
  obtain ⟨c, rfl⟩ := Nat.exists_eq_add_one.mpr hpos
  rcases gap_succ_cases c with hgap | ⟨hgap, hunits⟩
  · have hdist : Nat.dist (steps (c + 1)) (keepDigits digits (steps (c + 1))) ≤
        Nat.dist (steps (c + 1)) (powerOfTen (digitCount (steps (c + 1)))) :=
      dist_keepDigits_le_powerOfTen (Nat.sub_le _ _)
    rw [Nat.dist_eq_sub_of_le_right (Nat.le_of_lt hbelow),
      Nat.dist_eq_sub_of_le hpower] at hdist
    exact codeOfSteps_of_reflected_below hc hgap hbetween (Nat.le_of_lt hbelow) hpower hdist
  · apply Nat.le_antisymm
    · rw [← hexact]
      exact codeOfSteps_mono (hexact.symm ▸ Nat.le_of_lt hbelow)
    · exact lt_codeOfSteps_keepDigits hc hgap hunits hbetween hbelow

theorem significantCode_of_codeOfSteps_keepDigits (hdigits : 0 < digits) (hn : 0 < n)
    (hpos : 0 < c)
    (hc : c < infinityCode) (hcode : codeOfSteps (keepDigits digits (steps n)) = c) :
    significantCode digits c = c := by
  have hsteps := steps_pos hn
  rcases Nat.lt_trichotomy (digitCount (steps c)) (digitCount (steps n)) with hlt | heq | hgt
  · exact significantCode_of_digitCount_gt hdigits hsteps hpos hc hcode hlt
  · have hdist := dist_codeOfSteps_le (n := keepDigits digits (steps n)) (hcode ▸ hc) n
    rw [hcode, Nat.dist_comm, Nat.dist_comm _ (steps n)] at hdist
    rw [significantCode, keepDigits_eq_of_dist_le heq hdist, hcode]
  · exact significantCode_of_digitCount_lt hdigits hpos hc hcode hgt

theorem significantCode_significantCode (hdigits : 0 < digits) (hpos : 0 < c)
    (hfinite : significantCode digits c < infinityCode) :
    significantCode digits (significantCode digits c) = significantCode digits c :=
  significantCode_of_codeOfSteps_keepDigits hdigits hpos (significantCode_pos hdigits hpos)
    hfinite rfl

end

end Calculator.Decimal
