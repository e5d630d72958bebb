/-
# NinjaVision.Lib.Angles — angles in degrees and the tangents of acute ones.

`half_tan_lt_tan_iff` compares half the tangent of one acute angle with the tangent of another one
without a division: with `sin a cos b` and `cos a sin b` written as half sums of `sin (a ± b)` it is
a comparison of two sines. `tan_half_lt_half_tan` is about an angle and its half.
-/
import Mathlib.Analysis.SpecialFunctions.Trigonometric.Bounds
import Mathlib.Analysis.Real.Pi.Bounds

namespace NinjaVision.Lib

/-- Degrees to radians. -/
noncomputable def radians (degrees : ℝ) : ℝ := degrees * Real.pi / 180

/-- Radians to degrees. -/
noncomputable def degrees (radians : ℝ) : ℝ := radians * 180 / Real.pi

theorem radians_degrees (x : ℝ) : radians (degrees x) = x := by
  have := Real.pi_ne_zero
  unfold radians degrees
  field_simp

theorem radians_half (x : ℝ) : radians (x / 2) = radians x / 2 := by
  unfold radians; ring

theorem radians_add (x y : ℝ) : radians (x + y) = radians x + radians y := by
  unfold radians; ring

theorem radians_sub (x y : ℝ) : radians (x - y) = radians x - radians y := by
  unfold radians; ring

theorem radians_ninety : radians 90 = Real.pi / 2 := by
  unfold radians; ring

theorem radians_pos {x : ℝ} (hx : 0 < x) : 0 < radians x := by
  have := Real.pi_pos
  unfold radians
  positivity

theorem radians_strictMono : StrictMono radians := by
  intro x y hxy
  have hpos := radians_pos (sub_pos.mpr hxy)
  rw [radians_sub] at hpos
  exact sub_pos.mp hpos

theorem radians_mul (x y : ℝ) : radians (x * y) = radians x * y := by
  unfold radians; ring

theorem abs_radians (x : ℝ) : |radians x| = radians |x| := by
  have hpi : (0 : ℝ) < Real.pi / 180 := by have := Real.pi_pos; positivity
  have hscale : ∀ y : ℝ, radians y = y * (Real.pi / 180) := fun y => by unfold radians; ring
  rw [hscale, hscale, abs_mul, abs_of_pos hpi]

theorem sign_radians (x : ℝ) : SignType.sign (radians x) = SignType.sign x := by
  have hzero : radians 0 = 0 := by unfold radians; simp
  rcases lt_trichotomy x 0 with hx | rfl | hx
  · rw [sign_neg hx, sign_neg (hzero ▸ radians_strictMono hx)]
  · rw [hzero]
  · rw [sign_pos hx, sign_pos (radians_pos hx)]

theorem radians_lt_half_pi {x : ℝ} (hx : x < 90) : radians x < Real.pi / 2 :=
  radians_ninety ▸ radians_strictMono hx

theorem tan_radians_pos {x : ℝ} (hx : 0 < x) (hx' : x < 90) : 0 < Real.tan (radians x) :=
  Real.tan_pos_of_pos_of_lt_pi_div_two (radians_pos hx) (radians_lt_half_pi hx')

theorem cos_radians_pos {x : ℝ} (hx : 0 < x) (hx' : x < 90) : 0 < Real.cos (radians x) :=
  Real.cos_pos_of_mem_Ioo ⟨by linarith [radians_pos hx, Real.pi_pos], radians_lt_half_pi hx'⟩

/-- A bound on radians that is linear in the degrees. -/
theorem radians_lt {x : ℝ} (hx : 0 < x) : radians x < 0.0175 * x := by
  have hpi : Real.pi < 3.15 := Real.pi_lt_d2
  have := mul_lt_mul_of_pos_left hpi hx
  unfold radians
  linarith

/-- Half the tangent of `a` is below the tangent of `b` exactly when
`3 sin (a - b) < sin (a + b)`. -/
theorem half_tan_lt_tan_iff {a b : ℝ} (ha : 0 < Real.cos a) (hb : 0 < Real.cos b) :
    Real.tan a / 2 < Real.tan b ↔ 3 * Real.sin (a - b) < Real.sin (a + b) := by
  rw [Real.tan_eq_sin_div_cos, Real.tan_eq_sin_div_cos, div_div, div_lt_div_iff₀ (by positivity) hb,
    Real.sin_sub, Real.sin_add]
  constructor
  · intro h; linarith
  · intro h; linarith

/-- **Half of a tangent is not the tangent of the half angle**: the half is strictly larger. -/
theorem tan_half_lt_half_tan {a : ℝ} (ha : 0 < a) (ha' : a < Real.pi / 2) :
    Real.tan (a / 2) < Real.tan a / 2 := by
  have hpi := Real.pi_pos
  have hcos : 0 < Real.cos a := Real.cos_pos_of_mem_Ioo ⟨by linarith, ha'⟩
  have hcos' : 0 < Real.cos (a / 2) := Real.cos_pos_of_mem_Ioo ⟨by linarith, by linarith⟩
  have hsin' : 0 < Real.sin (a / 2) := Real.sin_pos_of_pos_of_lt_pi (by linarith) (by linarith)
  have hsin : Real.sin a = 2 * Real.sin (a / 2) * Real.cos (a / 2) := by
    rw [← Real.sin_two_mul]; congr 1; ring
  have hcosa : Real.cos a = 2 * Real.cos (a / 2) ^ 2 - 1 := by
    rw [← Real.cos_two_mul]; congr 1; ring
  have hlt : Real.cos a < Real.cos (a / 2) ^ 2 := by
    have hsq := Real.sin_sq_add_cos_sq (a / 2)
    have := pow_pos hsin' 2
    linarith
  rw [Real.tan_eq_sin_div_cos, Real.tan_eq_sin_div_cos, div_div,
    div_lt_div_iff₀ hcos' (by positivity), hsin]
  have hmul := mul_lt_mul_of_pos_left hlt (mul_pos two_pos hsin')
  linarith

end NinjaVision.Lib
