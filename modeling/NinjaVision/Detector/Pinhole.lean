/-
# NinjaVision.Detector.Pinhole — the published distance against a pinhole camera.

In a pinhole camera whose field of view `θ` spans the 640 columns, half a target width of 10 appears
`w / 2` pixels wide at the range `640 * (10 / w) / tan (θ / 2)`. `main` divides by `tan(46.6°) / 2`
instead. That is no pinhole range for either field of view the source documents: it is too short for
46.6° (`tan 2x / 2 > tan x`) and too long for 58.5°, by a constant factor in both cases, so at every
width.
-/
import NinjaVision.Detector.Geometry

namespace NinjaVision

open Lib (ExactDouble)

/-- The range of a target of half width 10 that appears `w` pixels wide, for a field of view of `θ`
degrees across the image. -/
noncomputable def pinholeRange (θ : ℝ) (w : ℤ) : ℝ :=
  imageCols * (10.0 / w) / Real.tan (Lib.radians (θ / 2.0))

theorem pinholeRange_eq (θ : ℝ) (w : ℤ) :
    pinholeRange θ w = 640 * (10 / w) / Real.tan (Lib.radians (θ / 2)) := by
  norm_num [pinholeRange]

/-- The published distance is the pinhole range for the field of view `θ`. -/
def PinholeLaw (θ : ℝ) (r : Rect) : Prop := distance realMath r = .finite (pinholeRange θ r.width)

/-- `640 * (10 / w)` is positive. -/
theorem apparent_pos {w : ℤ} (hw : 0 < w) : (0 : ℝ) < 640 * (10 / w) := by
  have hcast : (0 : ℝ) < w := by exact_mod_cast hw
  positivity

/-- The published distance with the divisor of the source. -/
theorem distance_eq_half_tan {r : Rect} (hw : 0 < r.width) :
    distance realMath r = .finite (640 * (10 / r.width) / (Real.tan (Lib.radians 46.6) / 2)) := by
  have hcast : (r.width : ℝ) ≠ 0 := by exact_mod_cast hw.ne'
  have htan := Lib.tan_radians_pos (x := 46.6) (by norm_num) (by norm_num)
  rw [distance_eq hw, rangeFactor]
  congr 1
  field_simp
  norm_num

/-- Half the tangent of the vertical field of view is more than the tangent of its half, ... -/
theorem tan_half_vertical_lt :
    Real.tan (Lib.radians (46.6 / 2)) < Real.tan (Lib.radians 46.6) / 2 := by
  rw [Lib.radians_half]
  exact Lib.tan_half_lt_half_tan (Lib.radians_pos (by norm_num))
    (Lib.radians_lt_half_pi (by norm_num))

/-- ... and less than the tangent of half the horizontal one. The two sines are those of 17.35° and
75.85°. -/
theorem half_tan_vertical_lt :
    Real.tan (Lib.radians 46.6) / 2 < Real.tan (Lib.radians (58.5 / 2)) := by
  have hdiff : Lib.radians 46.6 - Lib.radians (58.5 / 2) = Lib.radians 17.35 := by
    rw [← Lib.radians_sub]; norm_num
  have hsum : Lib.radians 46.6 + Lib.radians (58.5 / 2) = Real.pi / 2 - Lib.radians 14.15 := by
    rw [← Lib.radians_add, ← Lib.radians_ninety, ← Lib.radians_sub]; norm_num
  rw [Lib.half_tan_lt_tan_iff (Lib.cos_radians_pos (by norm_num) (by norm_num))
    (Lib.cos_radians_pos (by norm_num) (by norm_num)), hdiff, hsum, Real.sin_pi_div_two_sub]
  -- `3 sin x < 3 x` for the small angle and `1 - y ^ 2 / 2 ≤ cos y` for the large one leave room
  have hsmall := Lib.radians_lt (x := 17.35) (by norm_num)
  have hsmall' := Lib.radians_lt (x := 14.15) (by norm_num)
  have hpos := Lib.radians_pos (x := 17.35) (by norm_num)
  have hpos' := Lib.radians_pos (x := 14.15) (by norm_num)
  have hsin := Real.sin_lt hpos
  have hcos := Real.one_sub_sq_div_two_le_cos (x := Lib.radians 14.15)
  have hsq : Lib.radians 14.15 ^ 2 < 0.25 ^ 2 := pow_lt_pow_left₀ (by linarith) hpos'.le two_ne_zero
  linarith

/-- **The published distance lies strictly between the pinhole ranges** of the two documented fields
of view, at every width. -/
theorem distance_between {r : Rect} (hw : 0 < r.width) :
    .finite (pinholeRange 58.5 r.width) < distance realMath r ∧
      distance realMath r < .finite (pinholeRange 46.6 r.width) := by
  have hnum := apparent_pos hw
  have hvertical := Lib.tan_radians_pos (x := 46.6 / 2) (by norm_num) (by norm_num)
  rw [distance_eq_half_tan hw, ExactDouble.finite_lt_finite, ExactDouble.finite_lt_finite,
    pinholeRange_eq, pinholeRange_eq]
  constructor
  · exact div_lt_div_of_pos_left hnum (hvertical.trans tan_half_vertical_lt) half_tan_vertical_lt
  · exact div_lt_div_of_pos_left hnum hvertical tan_half_vertical_lt

/-- A distance strictly between the two ranges is neither of them. -/
theorem not_pinholeLaw {r : Rect} (hw : 0 < r.width) {θ : ℝ} (hθ : θ = 58.5 ∨ θ = 46.6) :
    ¬ PinholeLaw θ r := by
  obtain ⟨hlong, hshort⟩ := distance_between hw
  intro hlaw
  rcases hθ with rfl | rfl
  · rw [hlaw, ExactDouble.finite_lt_finite] at hlong
    exact lt_irrefl _ hlong
  · rw [hlaw, ExactDouble.finite_lt_finite] at hshort
    exact lt_irrefl _ hshort

/-- **The pinhole law fails for every accepted contour**, with either documented field of view. -/
theorem pinhole_law_never {cv : OpenCV} {c : Contour} (hacc : accepts cv c = true) {θ : ℝ}
    (hθ : θ = 58.5 ∨ θ = 46.6) : ¬ PinholeLaw θ (boundingRect c) := by
  have hw := accepts_width hacc
  exact not_pinholeLaw (by omega) hθ

/-- The law fails at an accepted outline for both fields of view. -/
theorem pinhole_law_never_outline :
    ¬ PinholeLaw 58.5 (boundingRect (uOutline 100 100 40 30 5)) ∧
    ¬ PinholeLaw 46.6 (boundingRect (uOutline 100 100 40 30 5)) := by
  exact ⟨pinhole_law_never outline_accepted (Or.inl rfl),
    pinhole_law_never outline_accepted (Or.inr rfl)⟩

/-- **No documented field of view makes the published distances pinhole ranges**: for each of the
two an accepted outline inside the frame has another distance. -/
theorem no_field_of_view :
    ¬ ∃ θ : ℝ, (θ = 58.5 ∨ θ = 46.6) ∧ ∀ (cv : OpenCV) (c : Contour), InFrame c → HullAt cv c →
      accepts cv c = true → PinholeLaw θ (boundingRect c) := by
  rintro ⟨θ, hθ, hlaw⟩
  have hhull : HullAt boxHull (uOutline 100 100 40 30 5) := hullAt_boxHull (by decide)
  exact not_pinholeLaw (by decide) hθ (hlaw boxHull _ (by decide) hhull outline_accepted)

end NinjaVision
