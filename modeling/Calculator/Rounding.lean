namespace Calculator.Rounding

/-- The whole number nearest to `n / d`; of two equally near the even one. -/
def divNearest (n d : Nat) : Nat :=
  if 2 * (n % d) < d ∨ 2 * (n % d) = d ∧ n / d % 2 = 0 then n / d else n / d + 1

theorem divNearest_le {n d : Nat} : 2 * (d * divNearest n d) ≤ 2 * n + d := by
  have := Nat.div_add_mod n d
  unfold divNearest
  split
  · omega
  · rw [Nat.mul_add]
    omega

theorem le_divNearest {n d : Nat} (h : 0 < d) :
    2 * n ≤ 2 * (d * divNearest n d) + d := by
  have := Nat.div_add_mod n d
  have := Nat.mod_lt n h
  unfold divNearest
  split
  · omega
  · rw [Nat.mul_add]
    omega

theorem divNearest_mul_right {n d : Nat} (h : 0 < d) : divNearest (d * n) d = n := by
  simp [divNearest, Nat.mul_div_cancel_left n h, h]

theorem divNearest_mul_mul_left {k : Nat} (h : 0 < k) (n d : Nat) :
    divNearest (k * n) (k * d) = divNearest n d := by
  unfold divNearest
  rw [Nat.mul_mod_mul_left, Nat.mul_div_mul_left _ _ h, Nat.mul_left_comm]
  simp only [Nat.mul_lt_mul_left h, Nat.mul_right_inj (Nat.ne_of_gt h)]

end Calculator.Rounding
