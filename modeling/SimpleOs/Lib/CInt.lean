import Mathlib.Order.Basic

/-!
# C integer conversions

Values of the C integer types are kept as mathematical integers; a conversion wraps as two's
complement does.

* `toInt` : conversion to `int` (32 bits), `toULong` : to `unsigned long` (64 bits);
* `alignUp` : rounding an `int` up to a multiple, computed in `int`, division truncating;
* `toInt_of_bounds`, `toULong_of_nonneg`, `alignUp_eq` : the conversions are exact in range.
-/

namespace SimpleOs.CInt

/-- Conversion of an integer value to a 32-bit `int`. -/
def toInt (x : Int) : Int := (x + 2147483648) % 4294967296 - 2147483648

/-- Conversion of an integer value to a 64-bit `unsigned long`. -/
def toULong (x : Int) : Nat := (x % 18446744073709551616).toNat

/-- `((n) + (d) - 1) / (d) * (d)` evaluated in `int`. -/
def alignUp (n d : Int) : Int := toInt ((toInt (toInt (n + d) - 1)).tdiv d * d)

theorem toInt_of_bounds {x : Int} (h₀ : -2147483648 ≤ x) (h₁ : x < 2147483648) : toInt x = x := by
  unfold toInt; omega

theorem toInt_lower (x : Int) : -2147483648 ≤ toInt x := by unfold toInt; omega

theorem toInt_lt (x : Int) : toInt x < 2147483648 := by unfold toInt; omega

theorem toULong_lt (x : Int) : toULong x < 18446744073709551616 := by unfold toULong; omega

theorem toULong_natCast {n : Nat} (h : n < 18446744073709551616) : toULong n = n := by
  unfold toULong; omega

theorem toULong_of_nonneg {x : Int} (h₀ : 0 ≤ x) (h₁ : x < 18446744073709551616) :
    (toULong x : Int) = x := by
  unfold toULong; omega

theorem alignUp_eq {n d : Int} (hd : 0 < d) (hn : 0 ≤ n) (h : n + d ≤ 2147483648) :
    alignUp n d = (n + d - 1) / d * d := by
  have hsum : toInt (toInt (n + d) - 1) = n + d - 1 := by unfold toInt; omega
  have hle : (n + d - 1) / d * d ≤ n + d - 1 := Int.ediv_mul_le _ (by omega)
  have hnonneg : 0 ≤ (n + d - 1) / d * d := Int.mul_nonneg (Int.ediv_nonneg (by omega) (by omega)) (by omega)
  rw [alignUp, hsum, Int.tdiv_eq_ediv_of_nonneg (by omega), toInt_of_bounds (by omega) (by omega)]

theorem alignUp_bounds {n d : Int} (hd : 0 < d) (hn : 0 ≤ n) (h : n + d ≤ 2147483648) :
    n ≤ alignUp n d ∧ alignUp n d < n + d ∧ d ∣ alignUp n d := by
  rw [alignUp_eq hd hn h]
  have hdiv := Int.emod_add_mul_ediv (n + d - 1) d
  have hmod := Int.emod_nonneg (n + d - 1) (show d ≠ 0 by omega)
  have hmod' := Int.emod_lt_of_pos (n + d - 1) hd
  rw [Int.mul_comm] at hdiv
  exact ⟨by omega, by omega, Int.dvd_mul_left _ _⟩

theorem alignUp_nonpos {n d : Int} (hd : 0 < d) (h₀ : -2147483648 ≤ n) (hd' : n + d < 2147483648) (h : n ≤ 0) :
    alignUp n d ≤ 0 := by
  have hsum : toInt (toInt (n + d) - 1) = n + d - 1 := by unfold toInt; omega
  have hzero : (d - 1).tdiv d = 0 := Int.tdiv_eq_zero_of_lt (by omega) (by omega)
  have hdiv : (n + d - 1).tdiv d ≤ (d - 1).tdiv d := Int.tdiv_le_tdiv hd (by omega)
  have hle : (n + d - 1).tdiv d * d ≤ 0 := Int.mul_nonpos_of_nonpos_of_nonneg (by omega) (by omega)
  have hmod := Int.tmod_lt_of_pos (n + d - 1) hd
  have hmul := Int.tdiv_mul_self (n + d - 1) d
  rw [alignUp, hsum, toInt_of_bounds (by omega) (by omega)]
  exact hle

theorem alignUp_wrap {n d : Int} (hn : n < 2147483648) (hd : d < 2147483648) (h₀ : 0 < d) (h : 2147483648 < n + d) :
    alignUp n d ≤ 0 := by
  have hsum : toInt (toInt (n + d) - 1) = n + d - 1 - 4294967296 := by unfold toInt; omega
  have hdiv : (n + d - 1 - 4294967296).tdiv d ≤ (0 : Int).tdiv d := Int.tdiv_le_tdiv h₀ (by omega)
  rw [Int.zero_tdiv] at hdiv
  have hle : (n + d - 1 - 4294967296).tdiv d * d ≤ 0 := Int.mul_nonpos_of_nonpos_of_nonneg hdiv (by omega)
  have hmod := Int.tmod_nonneg d (show 0 ≤ -(n + d - 1 - 4294967296) by omega)
  rw [Int.neg_tmod] at hmod
  have hmul := Int.tdiv_mul_self (n + d - 1 - 4294967296) d
  rw [alignUp, hsum, toInt_of_bounds (by omega) (by omega)]
  exact hle
end SimpleOs.CInt
