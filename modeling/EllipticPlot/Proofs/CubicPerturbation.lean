import Mathlib

/-!
# Cardano's formula with small errors

For a cubic `x³ + p·x + q` with coefficients of size one, two numbers `u` and `v` whose cubes almost
have the sum `-q` and the product `-(p/3)³` almost add up to a root. What the error of the product
does to `u·v` depends on `p`: where `p` is almost zero, a cube root magnifies the error.
-/

namespace EllipticPlot

theorem abs_sub_pow_three_le (y z : ℝ) : |y - z| ^ 3 ≤ 4 * |y ^ 3 - z ^ 3| := by
  have hfactor : y ^ 3 - z ^ 3 = (y - z) * (y ^ 2 + y * z + z ^ 2) := by ring
  have hlarge : |y - z| ^ 2 ≤ 4 * (y ^ 2 + y * z + z ^ 2) := by
    rw [sq_abs]
    linarith [sq_nonneg (y + z), (by ring : (y + z) ^ 2 = y ^ 2 + 2 * (y * z) + z ^ 2),
      (by ring : (y - z) ^ 2 = y ^ 2 - 2 * (y * z) + z ^ 2)]
  have hnonneg : 0 ≤ y ^ 2 + y * z + z ^ 2 := by linarith [sq_nonneg |y - z|]
  rw [hfactor, abs_mul, abs_of_nonneg hnonneg, pow_succ']
  linarith [mul_le_mul_of_nonneg_left hlarge (abs_nonneg (y - z))]

theorem sq_mul_abs_sub_le (y z : ℝ) : 3 / 4 * z ^ 2 * |y - z| ≤ |y ^ 3 - z ^ 3| := by
  have hfactor : y ^ 3 - z ^ 3 = (y - z) * (y ^ 2 + y * z + z ^ 2) := by ring
  have hlarge : 3 / 4 * z ^ 2 ≤ y ^ 2 + y * z + z ^ 2 := by
    linarith [sq_nonneg (y + z / 2), (by ring : (y + z / 2) ^ 2 = y ^ 2 + y * z + z ^ 2 / 4)]
  have hnonneg : 0 ≤ y ^ 2 + y * z + z ^ 2 := by linarith [sq_nonneg z]
  rw [hfactor, abs_mul, abs_of_nonneg hnonneg, mul_comm |y - z|]
  exact mul_le_mul_of_nonneg_right hlarge (abs_nonneg _)

/-- The cubes of `u` and `v` have almost the sum and the product that Cardano's formula asks for. -/
structure AlmostCardano (p q u v : ℝ) : Prop where
  left : |u| ≤ 3 / 2
  right : |v| ≤ 3 / 2
  sum : |u ^ 3 + v ^ 3 + q| ≤ 1 / 2 ^ 47
  product : |u ^ 3 * v ^ 3 + (p / 3) ^ 3| ≤ 1 / 2 ^ 47

/-- The root of Cardano's formula; where `u` and `v` agree there is another one. -/
def CardanoRoot (u v y : ℝ) : Prop := y = u + v ∨ u = v ∧ y = -u

namespace AlmostCardano

variable {p q u v y κ : ℝ} (h : AlmostCardano p q u v)

include h

theorem abs_cubes_le : |(u * v) ^ 3 - (-p / 3) ^ 3| ≤ 1 / 2 ^ 47 := by
  have hcubes : (u * v) ^ 3 - (-p / 3) ^ 3 = u ^ 3 * v ^ 3 + (p / 3) ^ 3 := by ring
  rw [hcubes]
  exact h.product

/-- The cube root of an error is larger than the error. -/
theorem abs_product_le : |3 * (u * v) + p| ≤ 3 / 2 ^ 15 := by
  have hcube : |u * v - -p / 3| ≤ 1 / 2 ^ 15 := by
    refine le_of_pow_le_pow_left₀ three_ne_zero (by positivity) ?_
    linarith [abs_sub_pow_three_le (u * v) (-p / 3), h.abs_cubes_le]
  have hscale : 3 * (u * v) + p = 3 * (u * v - -p / 3) := by ring
  rw [hscale, abs_mul, abs_of_pos three_pos]
  linarith

/-- Away from zero the cube root does not magnify the error by much. -/
theorem abs_product_le_of_le (hp : 1 / 100 ≤ |p / 3|) : |3 * (u * v) + p| ≤ 3 / 10 ^ 10 := by
  have hsq : (1 / 100) ^ 2 ≤ (-p / 3) ^ 2 := by
    rw [neg_div, neg_sq, ← sq_abs (p / 3)]
    exact pow_le_pow_left₀ (by positivity) hp 2
  have hle := sq_mul_abs_sub_le (u * v) (-p / 3)
  have hmul := mul_le_mul_of_nonneg_right hsq (abs_nonneg (u * v - -p / 3))
  have hscale : 3 * (u * v) + p = 3 * (u * v - -p / 3) := by ring
  rw [hscale, abs_mul, abs_of_pos three_pos]
  linarith [h.abs_cubes_le]

theorem abs_root_le (hy : CardanoRoot u v y) : |y| ≤ 3 := by
  obtain rfl | ⟨-, rfl⟩ := hy
  · linarith [abs_add_le u v, h.left, h.right]
  · linarith [abs_neg u, h.left]

theorem abs_value_le (hκ : |3 * (u * v) + p| ≤ κ) (hy : CardanoRoot u v y) :
    |y ^ 3 + p * y + q| ≤ 1 / 2 ^ 47 + 3 * κ := by
  have hproduct : |(3 * (u * v) + p) * y| ≤ κ * 3 := by
    rw [abs_mul]
    exact mul_le_mul hκ (h.abs_root_le hy) (abs_nonneg _) ((abs_nonneg _).trans hκ)
  have hsplit : y ^ 3 + p * y + q = u ^ 3 + v ^ 3 + q + (3 * (u * v) + p) * y := by
    obtain rfl | ⟨rfl, rfl⟩ := hy <;> ring
  rw [hsplit]
  linarith [abs_add_le (u ^ 3 + v ^ 3 + q) ((3 * (u * v) + p) * y), h.sum]

/-- Without cancellation the root is as large as the coefficients. -/
theorem le_abs_root (hp : p ≤ 0) (hq : 19 / 10 ≤ |q|) (hy : CardanoRoot u v y) : 9 / 10 ≤ |y| := by
  have hcubes : 18 / 10 ≤ |u ^ 3 + v ^ 3| := by
    have hsum := h.sum
    have htriangle := abs_sub_abs_le_abs_sub q (-(u ^ 3 + v ^ 3))
    rw [abs_neg, sub_neg_eq_add, add_comm q] at htriangle
    norm_num at hsum
    linarith
  by_contra hlt
  obtain rfl | ⟨rfl, rfl⟩ := hy
  · have hs : |u + v| < 1 := by linarith
    have hfactor : u ^ 3 + v ^ 3 = (u + v) * ((u + v) ^ 2 - 3 * (u * v)) := by ring
    have hsquare : (u + v) ^ 2 ≤ 1 := by
      rw [← sq_abs]
      exact pow_le_one₀ (abs_nonneg _) hs.le
    have hquarter : 4 * (u * v) ≤ (u + v) ^ 2 := by linarith [sq_nonneg (u - v)]
    have hproduct : -(3 / 2 ^ 15) ≤ 3 * (u * v) := by linarith [(abs_le.mp h.abs_product_le).1]
    have hfew : |(u + v) ^ 2 - 3 * (u * v)| ≤ 11 / 10 := by
      rw [abs_le]
      constructor
      · linarith [sq_nonneg (u + v)]
      · linarith
    rw [hfactor, abs_mul] at hcubes
    linarith [mul_le_mul hs.le hfew (abs_nonneg _) zero_le_one]
  · rw [abs_neg] at hlt
    have hcube := pow_le_pow_left₀ (abs_nonneg u) (not_le.mp hlt).le 3
    rw [← two_mul, abs_mul, abs_two, abs_pow] at hcubes
    linarith

end AlmostCardano

theorem abs_value_sub_le {p q x y η : ℝ} (hp : |p| ≤ 3) (hy : |y| ≤ 3) (hxy : |x - y| ≤ η)
    (hη : η ≤ 1) : |x ^ 3 + p * x + q| ≤ |y ^ 3 + p * y + q| + 40 * η := by
  have hx : |x| ≤ 4 := by linarith [abs_sub_abs_le_abs_sub x y]
  have hsquares : |x ^ 2 + x * y + y ^ 2 + p| ≤ 40 := by
    have hxx := mul_le_mul hx hx (abs_nonneg x) (by norm_num)
    have hxy := mul_le_mul hx hy (abs_nonneg y) (by norm_num)
    have hyy := mul_le_mul hy hy (abs_nonneg y) (by norm_num)
    rw [← abs_mul] at hxx hxy hyy
    rw [sq, sq]
    linarith [abs_add_le (x * x + x * y + y * y) p, abs_add_three (x * x) (x * y) (y * y)]
  have hsplit : x ^ 3 + p * x + q =
      y ^ 3 + p * y + q + (x - y) * (x ^ 2 + x * y + y ^ 2 + p) := by ring
  have hproduct : |(x - y) * (x ^ 2 + x * y + y ^ 2 + p)| ≤ η * 40 := by
    rw [abs_mul]
    exact mul_le_mul hxy hsquares (abs_nonneg _) ((abs_nonneg _).trans hxy)
  rw [hsplit]
  linarith [abs_add_le (y ^ 3 + p * y + q) ((x - y) * (x ^ 2 + x * y + y ^ 2 + p))]

end EllipticPlot
