/-
# NinjaVision.Lib.Arctan — the arctangent between its chord and its tangents.

The arctangent is concave on the nonnegative numbers. So it is above the chord from the origin to
any of its points, and below its tangent at any other one. A linear scale that is right at `0` and
at `tan α` is that chord, and `arctan_chord` bounds its error in both directions: the two are never
farther apart than the tangent at `x₀` is from the chord, if it is not steeper than the chord.

`poly_le_arctan` and `arctan_le_poly` are the truncated series on either side, for the numbers.
-/
import Mathlib

namespace NinjaVision.Lib

/-! ## §1 — bounds from the derivative. -/

/-- A function that starts below another one and grows no faster stays below it. -/
theorem le_of_hasDerivAt_le {f g f' g' : ℝ → ℝ} (hf : ∀ x, HasDerivAt f (f' x) x)
    (hg : ∀ x, HasDerivAt g (g' x) x) (hzero : f 0 ≤ g 0) (hle : ∀ x, f' x ≤ g' x) {x : ℝ}
    (hx : 0 ≤ x) : f x ≤ g x := by
  have hderiv : ∀ y, HasDerivAt (fun y => g y - f y) (g' y - f' y) y := fun y => (hg y).sub (hf y)
  have hmono : Monotone fun y => g y - f y :=
    monotone_of_hasDerivAt_nonneg hderiv fun y => sub_nonneg.mpr (hle y)
  have hgrow : g 0 - f 0 ≤ g x - f x := hmono hx
  linarith

theorem hasDerivAt_poly₅ (y : ℝ) :
    HasDerivAt (fun y : ℝ => y - y ^ 3 / 3 + y ^ 5 / 5) (1 - y ^ 2 + y ^ 4) y := by
  have h := ((hasDerivAt_id y).sub ((hasDerivAt_pow 3 y).div_const 3)).add
    ((hasDerivAt_pow 5 y).div_const 5)
  refine h.congr_deriv ?_
  push_cast
  ring

theorem hasDerivAt_poly₇ (y : ℝ) :
    HasDerivAt (fun y : ℝ => y - y ^ 3 / 3 + y ^ 5 / 5 - y ^ 7 / 7)
      (1 - y ^ 2 + y ^ 4 - y ^ 6) y := by
  refine ((hasDerivAt_poly₅ y).sub ((hasDerivAt_pow 7 y).div_const 7)).congr_deriv ?_
  push_cast
  ring

theorem arctan_le_poly {x : ℝ} (hx : 0 ≤ x) : Real.arctan x ≤ x - x ^ 3 / 3 + x ^ 5 / 5 := by
  refine le_of_hasDerivAt_le Real.hasDerivAt_arctan hasDerivAt_poly₅ (by norm_num) (fun y => ?_) hx
  rw [div_le_iff₀ (by positivity)]
  -- the product is `1 + y ^ 6`
  have := pow_nonneg (sq_nonneg y) 3
  linarith

theorem poly_le_arctan {x : ℝ} (hx : 0 ≤ x) :
    x - x ^ 3 / 3 + x ^ 5 / 5 - x ^ 7 / 7 ≤ Real.arctan x := by
  refine le_of_hasDerivAt_le hasDerivAt_poly₇ Real.hasDerivAt_arctan (by norm_num) (fun y => ?_) hx
  rw [le_div_iff₀ (by positivity)]
  -- the product is `1 - y ^ 8`
  have := pow_nonneg (sq_nonneg y) 4
  linarith

/-! ## §2 — chord and tangents. -/

theorem concaveOn_arctan : ConcaveOn ℝ (Set.Ici 0) Real.arctan := by
  apply AntitoneOn.concaveOn_of_deriv (convex_Ici 0) Real.continuous_arctan.continuousOn
  · exact Real.differentiable_arctan.differentiableOn
  · intro x hx y hy hxy
    rw [interior_Ici] at hx hy
    have hx : 0 < x := hx
    rw [Real.deriv_arctan]
    show 1 / (1 + y ^ 2) ≤ 1 / (1 + x ^ 2)
    gcongr

/-- **Above the chord** from the origin. -/
theorem mul_arctan_le {u x : ℝ} (hu : 0 ≤ u) (hu' : u ≤ 1) (hx : 0 ≤ x) :
    u * Real.arctan x ≤ Real.arctan (u * x) := by
  have hchord :=
    concaveOn_arctan.2 (Set.mem_Ici.mpr hx) (Set.mem_Ici.mpr le_rfl) hu (sub_nonneg.mpr hu')
    (add_sub_cancel u 1)
  simpa using hchord

/-- **Below every tangent.** -/
theorem arctan_le_tangent {x x₀ : ℝ} (hx : 0 ≤ x) (hx₀ : 0 ≤ x₀) :
    Real.arctan x ≤ Real.arctan x₀ + (x - x₀) / (1 + x₀ ^ 2) := by
  have hderiv := Real.hasDerivAt_arctan x₀
  rcases lt_trichotomy x x₀ with hlt | rfl | hlt
  · have hslope :=
      concaveOn_arctan.le_slope_of_hasDerivAt (Set.mem_Ici.mpr hx) (Set.mem_Ici.mpr hx₀) hlt hderiv
    rw [slope_def_field, le_div_iff₀ (sub_pos.mpr hlt)] at hslope
    have hflip : (x - x₀) / (1 + x₀ ^ 2) = -(1 / (1 + x₀ ^ 2) * (x₀ - x)) := by ring
    rw [hflip]
    linarith
  · simp
  · have hslope :=
      concaveOn_arctan.slope_le_of_hasDerivAt (Set.mem_Ici.mpr hx₀) (Set.mem_Ici.mpr hx) hlt hderiv
    rw [slope_def_field, div_le_iff₀ (sub_pos.mpr hlt)] at hslope
    have hflip : (x - x₀) / (1 + x₀ ^ 2) = 1 / (1 + x₀ ^ 2) * (x - x₀) := by ring
    rw [hflip]
    linarith

/-! ## §3 — the error of a linear scale. -/

/-- The linear scale `α * u` against `arctan (u * tan α)`, to one side of the centre. -/
theorem arctan_chord_of_nonneg {α x₀ u : ℝ} (hα : 0 < α) (hα' : α < Real.pi / 2) (hx₀ : 0 ≤ x₀)
    (hslope : Real.tan α ≤ α * (1 + x₀ ^ 2)) (hu : 0 ≤ u) (hu' : u ≤ 1) :
    α * u ≤ Real.arctan (u * Real.tan α) ∧
      Real.arctan (u * Real.tan α) - α * u ≤ Real.arctan x₀ - x₀ / (1 + x₀ ^ 2) := by
  have htan : 0 < Real.tan α := Real.tan_pos_of_pos_of_lt_pi_div_two hα hα'
  have hinv : Real.arctan (Real.tan α) = α := Real.arctan_tan (by linarith) hα'
  constructor
  · have hchord := mul_arctan_le hu hu' htan.le
    rw [hinv] at hchord
    linarith
  · have htangent := arctan_le_tangent (mul_nonneg hu htan.le) hx₀
    have hsteep : u * Real.tan α / (1 + x₀ ^ 2) ≤ α * u := by
      rw [div_le_iff₀ (by positivity)]
      have := mul_le_mul_of_nonneg_left hslope hu
      linarith
    rw [sub_div] at htangent
    linarith

/-- **The error of a linear scale** for an angle whose tangent is linear, to both sides of the
centre. -/
theorem arctan_chord {α x₀ u : ℝ} (hα : 0 < α) (hα' : α < Real.pi / 2) (hx₀ : 0 ≤ x₀)
    (hslope : Real.tan α ≤ α * (1 + x₀ ^ 2)) (hu : |u| ≤ 1) :
    |α * u| ≤ |Real.arctan (u * Real.tan α)| ∧
      |α * u - Real.arctan (u * Real.tan α)| ≤ Real.arctan x₀ - x₀ / (1 + x₀ ^ 2) := by
  obtain ⟨hneg, hpos⟩ := abs_le.mp hu
  rcases le_total 0 u with hu0 | hu0
  · obtain ⟨hchord, herror⟩ := arctan_chord_of_nonneg hα hα' hx₀ hslope hu0 hpos
    have hscale : 0 ≤ α * u := mul_nonneg hα.le hu0
    rw [abs_of_nonneg hscale, abs_of_nonneg (hscale.trans hchord), abs_sub_comm,
      abs_of_nonneg (sub_nonneg.mpr hchord)]
    exact ⟨hchord, herror⟩
  · obtain ⟨hchord, herror⟩ :=
      arctan_chord_of_nonneg hα hα' hx₀ hslope (neg_nonneg.mpr hu0) (neg_le.mp hneg)
    have hscale : 0 ≤ α * -u := mul_nonneg hα.le (neg_nonneg.mpr hu0)
    -- both sides are odd in `u`
    have hodd : Real.arctan (u * Real.tan α) = -Real.arctan (-u * Real.tan α) := by
      rw [neg_mul, Real.arctan_neg, neg_neg]
    have hodd' : α * u = -(α * -u) := by ring
    rw [hodd, hodd', abs_neg, abs_neg, abs_of_nonneg hscale, abs_of_nonneg (hscale.trans hchord),
      neg_sub_neg, abs_of_nonneg (sub_nonneg.mpr hchord)]
    exact ⟨hchord, herror⟩

/-- Both have the sign of `u`. -/
theorem sign_arctan_mul_tan {α : ℝ} (hα : 0 < α) (hα' : α < Real.pi / 2) (u : ℝ) :
    SignType.sign (Real.arctan (u * Real.tan α)) = SignType.sign u := by
  have htan : 0 < Real.tan α := Real.tan_pos_of_pos_of_lt_pi_div_two hα hα'
  rcases lt_trichotomy u 0 with hu | rfl | hu
  · rw [sign_neg hu, sign_neg (Real.arctan_lt_zero.mpr (mul_neg_of_neg_of_pos hu htan))]
  · rw [zero_mul, Real.arctan_zero]
  · rw [sign_pos hu, sign_pos (Real.arctan_pos.mpr (mul_pos hu htan))]

end NinjaVision.Lib
