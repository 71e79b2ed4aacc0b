import Calculator.Proofs.DoubleBits
import Calculator.Proofs.Nearest

namespace Calculator

namespace Binary64

theorem mul_units_lt {d c e : Nat} (hd : 0 < d) (h : c < e) :
    d * units c < d * units e := by
  refine Nat.mul_lt_mul_of_pos_left (Nat.lt_of_lt_of_le (units_lt_units_succ c) ?_) hd
  exact units_mono h

theorem even_nearestCode_of_dist_eq {n d c : Nat} (hd : 0 < d)
    (hlt : nearestCode n d < infinityCode) (hne : c ≠ nearestCode n d)
    (hdist : Nat.dist n (d * units c) = Nat.dist n (d * units (nearestCode n d))) :
    nearestCode n d % 2 = 0 := by
  generalize hnearest : nearestCode n d = e at *
  have hmono {c e : Nat} (hle : c ≤ e) : d * units c ≤ d * units e :=
    Nat.mul_le_mul_left d (units_mono hle)
  -- The fraction lies in the middle, so that the two magnitudes are neighbours.
  rcases Nat.lt_or_gt_of_ne hne with hbelow | habove
  · obtain ⟨k, rfl⟩ := Nat.exists_eq_add_one.mpr (Nat.zero_lt_of_lt hbelow)
    have hlow := (lt_nearestCode_iff (n := n) hd (Nat.lt_of_succ_lt hlt)).mp (by omega)
    have hle := hmono (Nat.le_of_lt_succ hbelow)
    have hstep := mul_units_lt hd hbelow
    rw [Nat.mul_add] at hlow
    unfold Nat.dist at hdist
    omega
  · have hhigh := mt (lt_nearestCode_iff (n := n) hd hlt).mpr (by omega)
    have hle : d * units (e + 1) ≤ d * units c := hmono habove
    have hstep := mul_units_lt hd habove
    rw [Nat.mul_add] at hhigh
    unfold Nat.dist at hdist
    omega

/-- Between two magnitudes that are equally near lies a nearer one, unless
they are neighbours. -/
theorem dist_units_succ_lt {n d c e : Nat} (hd : 0 < d) (h : c + 1 < e)
    (hdist : Nat.dist n (d * units c) = Nat.dist n (d * units e)) :
    Nat.dist n (d * units (c + 1)) < Nat.dist n (d * units c) := by
  have hlow := mul_units_lt hd (Nat.lt_add_one c)
  have hhigh := mul_units_lt hd h
  unfold Nat.dist at *
  omega

/-- How far a double without a sign is from `n / d`, in units of 2⁻¹⁰⁷⁴ and
multiplied by `d`. -/
def distance (n d : Nat) (x : Float) : Nat :=
  Nat.dist (n * 2 ^ 1074) (d * units (code x))

/-- The double nearest to `n / d`: no other finite double is nearer, and if one is
equally near, then its own last bit is zero. -/
structure NearestTo (n d : Nat) (x : Float) : Prop where
  finite : x.isFinite
  unsigned : isNegative x = false
  nearest : ∀ y : Float, y.isFinite → distance n d x ≤ distance n d y
  even : ∀ y : Float, y.isFinite → code y ≠ code x → distance n d y = distance n d x →
    code x % 2 = 0

/-- Whether `n / d` is beyond all doubles. The bound lies in the middle between the
largest double, which is 2¹⁰²⁴ - 2⁹⁷¹, and the next power of two. -/
def Overflows (n d : Nat) : Prop :=
  d * (2 ^ 1024 - 2 ^ 970) ≤ n

instance (n d : Nat) : Decidable (Overflows n d) :=
  inferInstanceAs (Decidable (_ ≤ _))

theorem nearestCode_lt_infinityCode_iff {n d : Nat} (hd : 0 < d) :
    nearestCode (n * 2 ^ 1074) d < infinityCode ↔ ¬ Overflows n d := by
  have hlast := lt_nearestCode_iff (n := n * 2 ^ 1074) hd
    (by decide : infinityCode - 1 < infinityCode)
  have hscale : d * ((2 ^ 1024 - 2 ^ 970) * 2 ^ 1074) ≤ n * 2 ^ 1074 ↔
      Overflows n d := by
    rw [Overflows, ← Nat.mul_assoc]
    exact Nat.mul_le_mul_right_iff (pow_pos Nat.two_pos 1074)
  rw [← hscale]
  generalize n * 2 ^ 1074 = scaled at *
  generalize hbound : (2 ^ 1024 - 2 ^ 970) * 2 ^ 1074 = bound
  have hmiddle : units (infinityCode - 1) + units (infinityCode - 1 + 1) =
      2 * bound := by
    rw [← hbound]
    decide +kernel
  have hodd : (infinityCode - 1) % 2 = 1 := by decide
  clear hbound
  rw [hmiddle, hodd, Nat.mul_left_comm] at hlast
  omega

theorem nearestTo_ofCode {n d : Nat} (hd : 0 < d) (h : ¬ Overflows n d) :
    NearestTo n d (ofCode false (nearestCode (n * 2 ^ 1074) d)) := by
  have hlt := (nearestCode_lt_infinityCode_iff hd).mpr h
  have hcode := code_ofCode false (Nat.le_of_lt hlt)
  refine ⟨isFinite_ofCode false hlt, isNegative_ofCode false (Nat.le_of_lt hlt), ?_, ?_⟩
  · intro y hy
    rw [distance, hcode]
    exact dist_nearestCode_le hd hlt (code y)
  · intro y hy hne hdist
    rw [distance, distance, hcode] at hdist
    rw [hcode] at hne ⊢
    exact even_nearestCode_of_dist_eq hd hlt hne hdist

theorem NearestTo.code_le {n d : Nat} (hd : 0 < d) {x y : Float} (hx : NearestTo n d x)
    (hy : NearestTo n d y) : code y ≤ code x := by
  apply Nat.le_of_not_lt
  intro hlt
  have hdist : distance n d x = distance n d y :=
    Nat.le_antisymm (hx.nearest y hy.finite) (hy.nearest x hx.finite)
  have hxeven := hx.even y hy.finite (Nat.ne_of_gt hlt) hdist.symm
  have hyeven := hy.even x hx.finite (Nat.ne_of_lt hlt) hdist
  have hbetween : code x + 1 < code y := by omega
  have hinfinity := (isFinite_iff y).mp hy.finite
  have hcode : code x + 1 < infinityCode := Nat.lt_trans hbetween hinfinity
  have hnearer := dist_units_succ_lt hd hbetween hdist
  have hnearest := hx.nearest _ (isFinite_ofCode false hcode)
  rw [distance, distance, code_ofCode false (Nat.le_of_lt hcode)] at hnearest
  exact Nat.not_le_of_lt hnearer hnearest

theorem NearestTo.unique {n d : Nat} (hd : 0 < d) {x y : Float} (hx : NearestTo n d x)
    (hy : NearestTo n d y) : x = y := by
  have hcode : code x = code y := Nat.le_antisymm (hy.code_le hd hx) (hx.code_le hd hy)
  rw [← ofCode_code hx.finite, ← ofCode_code hy.finite, hx.unsigned, hy.unsigned, hcode]

end Binary64

namespace Decimal

open Calculator.Binary64

theorem code_eq_nearestCode (decimal : Decimal) :
    decimal.code = nearestCode (decimal.coefficient * 2 ^ 1074) (10 ^ decimal.places) := by
  have hshift (n k : Nat) : n <<< k = n * 2 ^ k := Nat.shiftLeft_eq n k
  have hten (n : Nat) : powerOfTen n = 10 ^ n := rfl
  rw [code, unitExponent, hshift, hten]

theorem isFinite_toFloat_iff (decimal : Decimal) :
    decimal.toFloat.isFinite ↔
      ¬ Overflows decimal.coefficient (10 ^ decimal.places) := by
  have hle : decimal.code ≤ infinityCode := nearestCode_le _ _
  rw [toFloat, isFinite_iff, code_ofCode false hle, code_eq_nearestCode]
  exact nearestCode_lt_infinityCode_iff (Nat.pow_pos (by decide))

theorem nearestTo_iff {decimal : Decimal}
    (h : ¬ Overflows decimal.coefficient (10 ^ decimal.places)) {x : Float} :
    NearestTo decimal.coefficient (10 ^ decimal.places) x ↔ x = decimal.toFloat := by
  have hpos : 0 < 10 ^ decimal.places := Nat.pow_pos (by decide)
  have hnearest := nearestTo_ofCode hpos h
  rw [← code_eq_nearestCode, ← toFloat] at hnearest
  constructor
  · intro hx
    exact hx.unique hpos hnearest
  · rintro rfl
    exact hnearest

end Decimal

end Calculator
