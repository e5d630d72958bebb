/-
# NinjaVision.Detector.Readout — what a robot can read from the two vectors.

A published pair is a distance that stands for the width of a box and an azimuth that stands for its
centre column. `spanNearest` reads both back, and with them the first column of the box: the
truncation in the centre column loses nothing once the width is known. It takes the nearest
integers, so it reads rounded numbers as well (`Detector.Rounded`); here the numbers are exact. Over
whole vectors this is a round trip (`readout_law`): they determine the columns of the boxes that
were kept, box by box, and are determined by them. Rows and heights are not in them, and neither
vector alone determines the columns.
-/
import NinjaVision.Detector.Bounds

namespace NinjaVision

open Lib (ExactDouble)

/-! ## §1 — one pair. -/

/-- The columns of a rectangle: the first one, and how many there are. -/
def columnSpan (r : Rect) : ℤ × ℤ := (r.x, r.width)

/-- The number published as the distance of a width. -/
noncomputable def distanceOf (width : ℤ) : ExactDouble ℝ := .finite (rangeFactor / width)

/-- The number published as the azimuth of a centre column. -/
noncomputable def azimuthOf (column : ℤ) : ExactDouble ℝ := .finite (azimuthAt column)

section Decoder

variable {K : Type*} [Field K] [LinearOrder K] [FloorRing K]

/-- The columns behind a distance and an azimuth that need not be exact: the nearest ones. `T` is
the divisor of the distances. -/
def spanNearest (T : K) : ExactDouble K → ExactDouble K → ℤ × ℤ
  | .finite d, .finite a =>
      (⌊(a + 29.25) * (imageCols : ℕ) / 58.5 + 0.5⌋ - ⌊6400 / (T * d) + 0.5⌋ / 2,
        ⌊6400 / (T * d) + 0.5⌋)
  | _, _ => (0, 0)

theorem spanNearest_finite (T d a : K) : spanNearest T (.finite d) (.finite a)
    = (⌊(a + 29.25) * (imageCols : ℕ) / 58.5 + 0.5⌋ - ⌊6400 / (T * d) + 0.5⌋ / 2,
        ⌊6400 / (T * d) + 0.5⌋) := rfl

/-- An integer is the nearest one to itself. -/
theorem floor_intCast_add_half [IsStrictOrderedRing K] (n : ℤ) : ⌊(n : K) + 0.5⌋ = n := by
  rw [Int.floor_eq_iff]
  constructor
  · norm_num
  · norm_num

end Decoder

/-- The divisor of the distances: half the tangent of 46.6 degrees. -/
noncomputable def exactDivisor : ℝ := Real.tan (Lib.radians 46.6) / 2.0

theorem distanceOf_injective : Function.Injective distanceOf := by
  intro w w' h
  have hquot : rangeFactor / (w : ℝ) = rangeFactor / (w' : ℝ) := ExactDouble.finite.inj h
  have hinv : ((w : ℝ))⁻¹ = (w' : ℝ)⁻¹ := by
    rw [div_eq_mul_inv, div_eq_mul_inv] at hquot
    exact mul_left_cancel₀ rangeFactor_pos.ne' hquot
  exact_mod_cast inv_injective hinv

theorem azimuthOf_injective : Function.Injective azimuthOf := by
  intro a b h
  exact azimuthAt_strictMono.injective (ExactDouble.finite.inj h)

/-- **One pair is read back to the columns of its rectangle.** -/
theorem spanNearest_exact {r : Rect} (hw : 0 < r.width) :
    spanNearest exactDivisor (distance realMath r) (azimuth r) = columnSpan r := by
  have hwidth : ((r.width : ℤ) : ℝ) ≠ 0 := by exact_mod_cast hw.ne'
  have htan : Real.tan (Lib.radians 46.6) ≠ 0 :=
    (Lib.tan_radians_pos (by norm_num) (by norm_num)).ne'
  have hback : 6400 / (exactDivisor * (rangeFactor / (r.width : ℝ))) = (r.width : ℤ) := by
    unfold exactDivisor rangeFactor
    field_simp
    norm_num
  have hcolumn : (azimuthAt (centreColumn r) + 29.25) * (imageCols : ℕ) / 58.5
      = ((centreColumn r : ℤ) : ℝ) := by
    unfold azimuthAt
    norm_num
  rw [distance_eq hw, azimuth_eq, spanNearest_finite, columnSpan, hback, hcolumn,
    floor_intCast_add_half, floor_intCast_add_half, centreColumn_eq hw.le, add_sub_cancel_right]

/-! ## §2 — whole vectors. -/

/-- No kept rectangle is empty. -/
theorem irRects_width {cv : OpenCV} {contours : List Contour} :
    ∀ r ∈ (filterLoop cv contours).irRects, 0 < r.width := by
  intro r hr
  rw [filterLoop_eq] at hr
  obtain ⟨c, hc, rfl⟩ := List.mem_map.mp hr
  have hw := accepts_width (List.mem_filter.mp hc).2
  omega

/-- The distances are those of the widths. -/
theorem distances_eq (cv : OpenCV) (contours : List Contour) :
    (targetsOf cv realMath contours).distances
      = ((filterLoop cv contours).irRects.map Rect.width).map distanceOf := by
  rw [targetsOf, geometryLoop_eq, List.map_map]
  exact List.map_congr_left fun r hr => distance_eq (irRects_width r hr)

/-- The azimuths are those of the centre columns. -/
theorem azimuths_eq (cv : OpenCV) (contours : List Contour) :
    (targetsOf cv realMath contours).azimuths
      = ((filterLoop cv contours).irRects.map centreColumn).map azimuthOf := by
  rw [targetsOf, geometryLoop_eq, List.map_map]
  exact List.map_congr_left fun r _ => azimuth_eq r

/-- Reading back all pairs gives the columns of all kept rectangles. -/
theorem zipWith_spanNearest (cv : OpenCV) (contours : List Contour) :
    List.zipWith (spanNearest exactDivisor) (targetsOf cv realMath contours).distances
        (targetsOf cv realMath contours).azimuths
      = (filterLoop cv contours).irRects.map columnSpan := by
  rw [targetsOf, geometryLoop_eq, List.zipWith_map, List.zipWith_self]
  exact List.map_congr_left fun r hr => spanNearest_exact (irRects_width r hr)

/-- The columns of a rectangle determine its width and its centre column. -/
theorem map_width_of_columnSpan {rs rs' : List Rect} (h : rs.map columnSpan = rs'.map columnSpan) :
    rs.map Rect.width = rs'.map Rect.width ∧ rs.map centreColumn = rs'.map centreColumn := by
  have hwidth := congrArg (List.map Prod.snd) h
  have hcentre := congrArg (List.map fun span : ℤ × ℤ => span.1 + span.2.tdiv 2) h
  rw [List.map_map, List.map_map] at hwidth hcentre
  exact ⟨hwidth, hcentre⟩

/-- **The readout law**, in exact arithmetic, for all lists of contours and every OpenCV. The
published vectors are read back to the columns of the kept boxes, in order. Two lists are published
alike exactly when their kept boxes stand in the same columns; their distances are the same exactly
when the widths are, and their azimuths when the centre columns are. -/
theorem readout_law (cv cv' : OpenCV) (contours contours' : List Contour) :
    List.zipWith (spanNearest exactDivisor) (targetsOf cv realMath contours).distances
        (targetsOf cv realMath contours).azimuths
      = (filterLoop cv contours).irRects.map columnSpan ∧
    (targetsOf cv realMath contours = targetsOf cv' realMath contours' ↔
      (filterLoop cv contours).irRects.map columnSpan
        = (filterLoop cv' contours').irRects.map columnSpan) ∧
    ((targetsOf cv realMath contours).distances = (targetsOf cv' realMath contours').distances ↔
      (filterLoop cv contours).irRects.map Rect.width
        = (filterLoop cv' contours').irRects.map Rect.width) ∧
    ((targetsOf cv realMath contours).azimuths = (targetsOf cv' realMath contours').azimuths ↔
      (filterLoop cv contours).irRects.map centreColumn
        = (filterLoop cv' contours').irRects.map centreColumn) := by
  have hdistances : (targetsOf cv realMath contours).distances
      = (targetsOf cv' realMath contours').distances ↔
      (filterLoop cv contours).irRects.map Rect.width
        = (filterLoop cv' contours').irRects.map Rect.width := by
    rw [distances_eq, distances_eq]
    exact (List.map_injective_iff.mpr distanceOf_injective).eq_iff
  have hazimuths : (targetsOf cv realMath contours).azimuths
      = (targetsOf cv' realMath contours').azimuths ↔
      (filterLoop cv contours).irRects.map centreColumn
        = (filterLoop cv' contours').irRects.map centreColumn := by
    rw [azimuths_eq, azimuths_eq]
    exact (List.map_injective_iff.mpr azimuthOf_injective).eq_iff
  refine ⟨zipWith_spanNearest cv contours, ⟨fun h => ?_, fun h => ?_⟩, hdistances, hazimuths⟩
  · rw [← zipWith_spanNearest cv contours, ← zipWith_spanNearest cv' contours', h]
  · obtain ⟨hwidth, hcentre⟩ := map_width_of_columnSpan h
    have hd := hdistances.mpr hwidth
    have ha := hazimuths.mpr hcentre
    generalize targetsOf cv realMath contours = t at hd ha ⊢
    generalize targetsOf cv' realMath contours' = t' at hd ha ⊢
    obtain ⟨ds, as⟩ := t
    obtain ⟨ds', as'⟩ := t'
    rw [show ds = ds' from hd, show as = as' from ha]

/-- The azimuth alone hides a column: a box of even width and the box with one more column on its
right have the same one. -/
theorem azimuth_hides_column (x y h : ℤ) {w : ℤ} (hw : 0 ≤ w) (heven : Even w) :
    (azimuth ⟨x, y, w, h⟩ : ExactDouble ℝ) = azimuth ⟨x, y, w + 1, h⟩ := by
  have hcolumn : centreColumn ⟨x, y, w, h⟩ = centreColumn ⟨x, y, w + 1, h⟩ := by
    rw [centreColumn_eq hw, centreColumn_eq (show 0 ≤ w + 1 by omega)]
    obtain ⟨k, rfl⟩ := heven
    dsimp only
    omega
  rw [azimuth_eq, azimuth_eq, hcolumn]

end NinjaVision
