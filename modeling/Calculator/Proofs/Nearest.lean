import Calculator.Proofs.RoundingOrder
import Mathlib.Data.Nat.Dist

/-!
The nearest whole number and the nearest magnitude.

A fraction is rounded to a magnitude past a given one exactly when it lies past the
middle between this one and the next, and in the middle the even code decides. So no
other magnitude is nearer.
-/

namespace Calculator

namespace Rounding

theorem divNearest_mul_add {d r : Nat} (h : r < d) (m : Nat) :
    divNearest (d * m + r) d = if 2 * r < d ∨ 2 * r = d ∧
    m % 2 = 0 then m else m + 1 := by
  have hd : 0 < d := Nat.zero_lt_of_lt h
  rw [divNearest, Nat.mul_add_mod, Nat.mod_eq_of_lt h, Nat.mul_add_div hd,
    Nat.div_eq_of_lt h, Nat.add_zero]

theorem divNearest_eq_iff {n d m : Nat} (hd : 0 < d) :
    divNearest n d = m ↔
      2 * Nat.dist n (d * m) < d ∨ 2 * Nat.dist n (d * m) = d ∧ m % 2 = 0 := by
  have hmod := Nat.mod_lt n hd
  obtain ⟨k, r, hr, rfl⟩ : ∃ k r, r < d ∧ n = d * k + r :=
    ⟨n / d, n % d, hmod, (Nat.div_add_mod n d).symm⟩
  rw [divNearest_mul_add hr]
  have hcases : m = k ∨ m = k + 1 ∨ m + 1 ≤ k ∨ k + 2 ≤ m := by omega
  rcases hcases with rfl | rfl | hbelow | habove
  · have hdist : Nat.dist (d * m + r) (d * m) = r := by
      rw [Nat.dist_eq_sub_of_le_right (Nat.le_add_right _ _), Nat.add_sub_cancel_left]
    rw [hdist]
    split
    · exact iff_of_true rfl ‹_›
    · exact iff_of_false (Nat.succ_ne_self m) ‹_›
  · have hdist : Nat.dist (d * k + r) (d * (k + 1)) = d - r := by
      rw [Nat.mul_succ, Nat.dist_add_add_left, Nat.dist_eq_sub_of_le (Nat.le_of_lt hr)]
    rw [hdist]
    split <;> omega
  · have hle := Nat.mul_le_mul_left d hbelow
    rw [Nat.mul_succ] at hle
    unfold Nat.dist
    split <;> omega
  · have hle := Nat.mul_le_mul_left d habove
    rw [Nat.mul_add] at hle
    unfold Nat.dist
    split <;> omega

theorem dist_divNearest_le {n d : Nat} (hd : 0 < d) (m : Nat) :
    Nat.dist n (d * divNearest n d) ≤ Nat.dist n (d * m) := by
  have hnear := (divNearest_eq_iff (n := n) hd).mp rfl
  by_cases heq : divNearest n d = m
  · rw [heq]
  · have hfar := mt (divNearest_eq_iff hd).mpr heq
    omega

theorem divNearest_eq_of_dist_le {n k d : Nat} (hd : 0 < d)
    (h : Nat.dist k (d * divNearest n d) ≤ Nat.dist n (d * divNearest n d)) :
    divNearest k d = divNearest n d := by
  have hnear := (divNearest_eq_iff (n := n) hd).mp rfl
  rw [divNearest_eq_iff hd]
  omega

end Rounding

namespace Binary64

open Calculator.Rounding

theorem units_succ_le (c : Nat) : units (c + 1) ≤ (1 <<< 53) * gap c := by
  rw [units_succ, units_eq_mul_gap, ← Nat.succ_mul]
  refine Nat.mul_le_mul_right _ ?_
  omega

/-- Between two magnitudes next to each other a fraction goes to the nearer one, and
from the middle to the one with the even code. -/
theorem nearestCode_of_between {n d c : Nat} (hd : 0 < d) (hc : c < infinityCode)
    (hlow : d * units c ≤ n) (hhigh : n < d * units (c + 1)) :
    nearestCode n d =
      if 2 * n < d * (units c + units (c + 1)) ∨
        2 * n = d * (units c + units (c + 1)) ∧ c % 2 = 0 then c else c + 1 := by
  have hquotientLow : units c ≤ n / d :=
    (Nat.le_div_iff_mul_le hd).mpr (by rwa [Nat.mul_comm])
  have hquotientHigh : n / d < units (c + 1) :=
    (Nat.div_lt_iff_lt_mul hd).mpr (by rwa [Nat.mul_comm])
  have hshift : (n / d).log2 - 52 = (c >>> 52) - 1 := by
    have hle := log2_le_log2 hquotientLow
    have hlt : n / d < 2 ^ (53 + ((c >>> 52) - 1)) := by
      refine Nat.lt_of_lt_of_le hquotientHigh (Nat.le_trans (units_succ_le c) ?_)
      rw [gap, Nat.one_shiftLeft, Nat.one_shiftLeft, ← Nat.pow_add]
    have hlog := log2_units c
    have hupper : (n / d).log2 ≤ 52 + ((c >>> 52) - 1) := by
      by_cases hzero : n / d = 0
      · rw [hzero, Nat.log2_zero]
        exact Nat.zero_le _
      · have := (Nat.log2_lt hzero).mpr hlt
        omega
    omega
  obtain ⟨r, rfl⟩ := Nat.exists_eq_add_of_le hlow
  have hunits := units_eq_mul_gap c
  have hgap : d <<< ((c >>> 52) - 1) = d * gap c := by
    rw [gap, Nat.shiftLeft_eq, Nat.one_shiftLeft]
  rw [units_succ, Nat.mul_add] at hhigh
  have hmiddle : d * (units c + units (c + 1)) = 2 * (d * units c) + d * gap c := by
    rw [units_succ, ← Nat.add_assoc, ← Nat.two_mul, Nat.mul_add, Nat.mul_left_comm]
  simp only [nearestCode, hshift, hgap]
  rw [hmiddle]
  have hround : divNearest (d * units c + r) (d * gap c) =
      if 2 * r < d * gap c ∨ 2 * r = d * gap c ∧ (c - ((c >>> 52) - 1) <<< 52) % 2 = 0
        then c - ((c >>> 52) - 1) <<< 52 else c - ((c >>> 52) - 1) <<< 52 + 1 := by
    rw [hunits, Nat.mul_comm _ (gap c), ← Nat.mul_assoc]
    exact divNearest_mul_add (by omega) _
  have hcode : c = ((c >>> 52) - 1) <<< 52 + (c - ((c >>> 52) - 1) <<< 52) := by omega
  have hparity : (c - ((c >>> 52) - 1) <<< 52) % 2 = c % 2 := by omega
  rw [hround, hparity]
  by_cases hdown : 2 * r < d * gap c ∨ 2 * r = d * gap c ∧ c % 2 = 0
  · rw [if_pos hdown, if_pos (by omega), ← hcode]
    exact Nat.min_eq_left (Nat.le_of_lt hc)
  · rw [if_neg hdown, if_neg (by omega), ← Nat.add_assoc, ← hcode]
    exact Nat.min_eq_left hc

/-- A fraction is rounded to a magnitude past the one with code `c` when it lies
past the middle between this one and the next, or in the middle and `c` is odd. -/
theorem lt_nearestCode_iff {n d c : Nat} (hd : 0 < d) (hc : c < infinityCode) :
    c < nearestCode n d ↔
      d * (units c + units (c + 1)) < 2 * n ∨
        d * (units c + units (c + 1)) = 2 * n ∧ c % 2 = 1 := by
  have hstep : d * units c < d * units (c + 1) :=
    Nat.mul_lt_mul_of_pos_left (units_lt_units_succ c) hd
  rw [Nat.mul_add]
  by_cases hlow : d * units c ≤ n
  · by_cases hhigh : n < d * units (c + 1)
    · rw [nearestCode_of_between hd hc hlow hhigh, Nat.mul_add]
      split <;> omega
    · have hle := nearestCode_mono hd (Nat.le_of_not_lt hhigh)
      rw [nearestCode_units hc hd] at hle
      omega
  · have hle := nearestCode_mono hd (Nat.le_of_not_le hlow)
    rw [nearestCode_units (Nat.le_of_lt hc) hd] at hle
    omega

theorem dist_nearestCode_le {n d : Nat} (hd : 0 < d)
    (h : nearestCode n d < infinityCode)
    (c : Nat) : Nat.dist n (d * units (nearestCode n d)) ≤ Nat.dist n (d * units c) := by
  generalize hnearest : nearestCode n d = e at *
  have hbelow : 2 * n ≤ d * units e + d * units (e + 1) := by
    have hnot := mt (lt_nearestCode_iff (n := n) hd h).mpr (by omega)
    rw [Nat.mul_add] at hnot
    omega
  have hmono {c e : Nat} (hle : c ≤ e) : d * units c ≤ d * units e :=
    Nat.mul_le_mul_left d (units_mono hle)
  rcases Nat.lt_trichotomy c e with hlt | rfl | hgt
  · obtain ⟨k, rfl⟩ := Nat.exists_eq_add_one.mpr (Nat.zero_lt_of_lt hlt)
    have habove : d * units k + d * units (k + 1) ≤ 2 * n := by
      have hlt := (lt_nearestCode_iff (n := n) hd (Nat.lt_of_succ_lt h)).mp (by omega)
      rw [Nat.mul_add] at hlt
      omega
    have hfirst := hmono (Nat.le_of_lt_succ hlt)
    have hsecond := hmono (Nat.le_add_right k 1)
    unfold Nat.dist
    omega
  · exact Nat.le_refl _
  · have hfirst := hmono (Nat.le_add_right e 1)
    have hsecond : d * units (e + 1) ≤ d * units c := hmono hgt
    unfold Nat.dist
    omega

theorem nearestCode_eq_of_near {n d c : Nat} (hd : 0 < d) (hc : c < infinityCode)
    (h : (1 <<< 54) * Nat.dist n (d * units c) < d * units c) :
    nearestCode n d = c := by
  apply Nat.le_antisymm
  · have hgap : d * units c < (1 <<< 53) * (d * gap c) := by
      rw [Nat.mul_left_comm]
      refine Nat.mul_lt_mul_of_pos_left (Nat.lt_of_lt_of_le ?_ (units_succ_le c)) hd
      exact units_lt_units_succ c
    apply Nat.le_of_not_lt
    rw [lt_nearestCode_iff hd hc, units_succ, Nat.mul_add, Nat.mul_add]
    unfold Nat.dist at h
    omega
  · cases c with
    | zero => exact Nat.zero_le _
    | succ c =>
        have hgap : d * units (c + 1) ≤ (1 <<< 53) * (d * gap c) := by
          rw [Nat.mul_left_comm]
          exact Nat.mul_le_mul_left d (units_succ_le c)
        apply Nat.succ_le_of_lt
        rw [units_succ, Nat.mul_add] at h hgap
        rw [lt_nearestCode_iff hd (Nat.lt_of_succ_lt hc), units_succ, Nat.mul_add,
          Nat.mul_add]
        unfold Nat.dist at h
        omega

theorem gap_le_gap_succ (c : Nat) : gap c ≤ gap (c + 1) := by
  unfold gap
  rw [Nat.one_shiftLeft, Nat.one_shiftLeft]
  exact Nat.pow_le_pow_right (by decide) (by omega)

theorem gap_succ_cases (c : Nat) :
    gap (c + 1) = gap c ∨ gap (c + 1) = 2 * gap c ∧
    units (c + 1) = (1 <<< 53) * gap c := by
  by_cases hsame : ((c + 1) >>> 52) - 1 = (c >>> 52) - 1
  · exact .inl (by rw [gap, gap, hsame])
  · right
    have hnext : ((c + 1) >>> 52) - 1 = (c >>> 52) - 1 + 1 := by omega
    have hgap : gap (c + 1) = 2 * gap c := by
      rw [gap, gap, hnext, Nat.one_shiftLeft, Nat.one_shiftLeft, Nat.pow_succ']
    have hsignificand : c + 1 - ((c >>> 52) - 1 + 1) <<< 52 = 1 <<< 52 := by omega
    refine ⟨hgap, ?_⟩
    rw [units_eq_mul_gap, hgap, hnext, hsignificand, ← Nat.mul_assoc]
    congr 1

end Binary64

end Calculator
