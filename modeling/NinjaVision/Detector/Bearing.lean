/-
# NinjaVision.Detector.Bearing — the published azimuth against the bearing of the column.

`main` takes the azimuth to be linear in the column: `targetX`, which runs from -1 to 1 over the
frame, times half of the horizontal field of view. In a pinhole camera it is the *tangent* of the
bearing that is linear in the column. The two agree at the centre and at the edges of the frame.

In between the published azimuth is the chord of an arctangent (`Lib.arctan_chord`): it has the sign
of the bearing, is never larger, and is off by the distance of a tangent from that chord, which is
less than 1.1 degrees. This holds at every column of the frame, so for every box inside it.
-/
import NinjaVision.Detector.Geometry
import NinjaVision.Lib.Arctan

namespace NinjaVision

open Lib (ExactDouble)

/-- The bearing, in degrees, of a column at `u` half frames from the centre, in a pinhole camera
with a horizontal field of view of 58.5 degrees. -/
noncomputable def trueBearing (u : ℝ) : ℝ :=
  Lib.degrees (Real.arctan (u * Real.tan (Lib.radians 29.25)))

/-- The place of a column on the scale of `targetX`. -/
noncomputable def scaleAt (column : ℤ) : ℝ := column / 320 - 1

theorem targetX_eq_scale (r : Rect) :
    (targetX r : ExactDouble ℝ) = .finite (scaleAt (centreColumn r)) := by
  rw [targetX_eq, scaleAt]
  congr 1
  push_cast
  ring

theorem azimuthAt_eq_scale (column : ℤ) : (azimuthAt column : ℝ) = 29.25 * scaleAt column := by
  unfold azimuthAt scaleAt
  norm_num
  ring

/-- A column of the frame, its two edges included, is on the scale. -/
theorem abs_scaleAt_le {column : ℤ} (hleft : 0 ≤ column) (hright : column ≤ 640) :
    |scaleAt column| ≤ 1 := by
  have hleft' : (0 : ℝ) ≤ column := by exact_mod_cast hleft
  have hright' : (column : ℝ) ≤ 640 := by exact_mod_cast hright
  unfold scaleAt
  rw [abs_le]
  constructor <;> linarith

/-! ## §1 — the numbers. -/

theorem radians_fov_bounds : 0.51049 < Lib.radians 29.25 ∧ Lib.radians 29.25 < 0.51052 := by
  have hlow := Real.pi_gt_d4
  have hhigh := Real.pi_lt_d4
  unfold Lib.radians
  constructor <;> linarith

/-- The tangent of half of the field of view, from the arctangent of 0.5612. -/
theorem tan_fov_le : Real.tan (Lib.radians 29.25) ≤ 0.5612 := by
  have hpos : 0 < Lib.radians 29.25 := Lib.radians_pos (by norm_num)
  have hacute : Lib.radians 29.25 < Real.pi / 2 := Lib.radians_lt_half_pi (by norm_num)
  have hpoly := Lib.poly_le_arctan (x := 0.5612) (by norm_num)
  obtain ⟨_, hhigh⟩ := radians_fov_bounds
  rw [← Real.arctan_le_arctan_iff, Real.arctan_tan (by linarith) hacute]
  refine hhigh.le.trans (le_trans ?_ hpoly)
  norm_num

/-- The tangent of the scale at 0.317 is not steeper than the scale. -/
theorem tan_fov_slope : Real.tan (Lib.radians 29.25) ≤ Lib.radians 29.25 * (1 + 0.317 ^ 2) := by
  have htan := tan_fov_le
  obtain ⟨hlow, _⟩ := radians_fov_bounds
  norm_num at htan ⊢
  linarith

/-- The largest distance of the two, in radians, is below that of 1.1 degrees. -/
theorem chord_error_lt : Real.arctan 0.317 - 0.317 / (1 + 0.317 ^ 2) < Lib.radians 1.1 := by
  have hpoly := Lib.arctan_le_poly (x := 0.317) (by norm_num)
  have hpi := Real.pi_gt_d4
  unfold Lib.radians
  norm_num at hpoly ⊢
  linarith

/-! ## §2 — azimuth and bearing. -/

/-- **The scale against the bearing**, at every place from edge to edge. -/
theorem near_bearing {u : ℝ} (hu : |u| ≤ 1) :
    SignType.sign (29.25 * u) = SignType.sign (trueBearing u) ∧ |29.25 * u| ≤ |trueBearing u| ∧
      |29.25 * u - trueBearing u| < 1.1 := by
  have hpos : 0 < Lib.radians 29.25 := Lib.radians_pos (by norm_num)
  have hacute : Lib.radians 29.25 < Real.pi / 2 := Lib.radians_lt_half_pi (by norm_num)
  obtain ⟨hchord, herror⟩ := Lib.arctan_chord hpos hacute (by norm_num) tan_fov_slope hu
  have hsign := Lib.sign_arctan_mul_tan hpos hacute u
  -- everything is compared in radians
  have hbearing : Lib.radians (trueBearing u) = Real.arctan (u * Real.tan (Lib.radians 29.25)) :=
    Lib.radians_degrees _
  rw [← Lib.radians_mul, ← hbearing] at hchord herror
  rw [← hbearing, Lib.sign_radians] at hsign
  refine ⟨?_, ?_, ?_⟩
  · rw [hsign, sign_mul, sign_pos (by norm_num : (0 : ℝ) < 29.25), one_mul]
  · rw [Lib.abs_radians, Lib.abs_radians] at hchord
    exact Lib.radians_strictMono.le_iff_le.mp hchord
  · rw [← Lib.radians_sub, Lib.abs_radians] at herror
    exact Lib.radians_strictMono.lt_iff_lt.mp (herror.trans_lt chord_error_lt)

/-- The centre column of a box inside the frame is a column of the frame. -/
theorem centreColumn_mem_frame {r : Rect} (hw : 0 ≤ r.width) (hleft : 0 ≤ r.tl.x)
    (hright : r.br.x ≤ imageCols) : 0 ≤ centreColumn r ∧ centreColumn r ≤ 640 := by
  change 0 ≤ r.x at hleft
  change r.x + r.width ≤ 640 at hright
  rw [centreColumn_eq hw]
  omega

/-- **The published azimuth is close to the true bearing.** For every accepted contour whose box is
inside the 640 columns of the frame, with `u` the place of its centre column on the scale, which is
the value `targetX`: azimuth and bearing have the same sign, the azimuth is never the larger one in
absolute value, and they differ by less than 1.1 degrees. -/
theorem azimuth_near_bearing {cv : OpenCV} {c : Contour} (hacc : accepts cv c = true)
    (hleft : 0 ≤ (boundingRect c).tl.x) (hright : (boundingRect c).br.x ≤ imageCols) :
    ∃ u a : ℝ, u = scaleAt (centreColumn (boundingRect c)) ∧ targetX (boundingRect c) = .finite u ∧
      azimuth (boundingRect c) = .finite a ∧ SignType.sign a = SignType.sign (trueBearing u) ∧
      |a| ≤ |trueBearing u| ∧ |a - trueBearing u| < 1.1 := by
  have hw := accepts_width hacc
  obtain ⟨hmin, hmax⟩ := centreColumn_mem_frame (by omega) hleft hright
  refine ⟨_, _, rfl, targetX_eq_scale _, azimuth_eq _, ?_⟩
  rw [azimuthAt_eq_scale]
  exact near_bearing (abs_scaleAt_le hmin hmax)

/-- The two at an outline in the left half of the frame. -/
theorem azimuth_near_bearing_outline :
    ∃ u a : ℝ, u = scaleAt 120 ∧ targetX (boundingRect (uOutline 100 100 40 30 5)) = .finite u ∧
      azimuth (boundingRect (uOutline 100 100 40 30 5)) = .finite a ∧
      SignType.sign a = SignType.sign (trueBearing u) ∧ |a| ≤ |trueBearing u| ∧
      |a - trueBearing u| < 1.1 := by
  exact azimuth_near_bearing outline_accepted (by decide) (by decide)

end NinjaVision
