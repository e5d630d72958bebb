/-
# NinjaVision.Detector.Symmetry — how the result moves with the contour.

A contour is rotated (another start vertex), reversed, shifted or mirrored, and the filter's
verdict, the distance and the azimuth are compared. All comparisons go the same way: the bounding
box moves as a pixel box does, the contour's area and its hull's stay, and the published numbers are
read off the box.

* `shape_law` — start vertex and direction do not matter; a shift moves the azimuth by its share of
  the field of view; azimuths are ordered left to right and distances by width.
* `mirror_symmetric_iff` — the mirror image gets the opposite azimuth exactly for boxes of even
  width. The half width is an `int` division, so for an odd width the centre column is half a pixel
  left of the centre of the box, in both images: `odd_width_asymmetric`.
-/
import NinjaVision.Detector.Geometry

namespace NinjaVision

open Lib (ExactDouble)

/-! ## §1 — what a change of the vertex list does to the box and the verdict. -/

/-- The contour moved by `dx` columns and `dy` rows. -/
def shift (dx dy : ℤ) (c : Contour) : Contour := c.map (Lib.translate dx dy)

/-- The contour reflected in the vertical axis of the frame. -/
def mirror (c : Contour) : Contour := c.map (Lib.reflect 639)

/-- A map of points that takes boxes to boxes of the same size. -/
def KeepsSize (f : Point → Point) : Prop :=
  ∀ S r, PixelBox S r → ∃ x y, PixelBox (f '' S) ⟨x, y, r.width, r.height⟩

theorem translate_keepsSize (dx dy : ℤ) : KeepsSize (Lib.translate dx dy) :=
  fun _ _ hbox => ⟨_, _, hbox.translate dx dy⟩

theorem reflect_keepsSize (m : ℤ) : KeepsSize (Lib.reflect m) :=
  fun _ _ hbox => ⟨_, _, hbox.reflect m⟩

/-- The box of a moved contour, from a box of the moved points. -/
theorem boundingRect_map {f : Point → Point} {c : Contour} (hc : c ≠ []) {r : Rect}
    (hbox : PixelBox (f '' points c) r) : boundingRect (c.map f) = r := by
  have hne : c.map f ≠ [] := by simpa using hc
  rw [← points_map] at hbox
  exact (boundingRect_pixelBox hne).unique hbox

theorem size_map {f : Point → Point} (hf : KeepsSize f) (c : Contour) :
    (boundingRect (c.map f)).width = (boundingRect c).width ∧
      (boundingRect (c.map f)).height = (boundingRect c).height := by
  by_cases hc : c = []
  · subst hc
    exact ⟨rfl, rfl⟩
  · obtain ⟨x, y, hbox⟩ := hf _ _ (boundingRect_pixelBox hc)
    rw [boundingRect_map hc hbox]
    exact ⟨rfl, rfl⟩

theorem boundingRect_shift {c : Contour} (hc : c ≠ []) (dx dy : ℤ) :
    boundingRect (shift dx dy c) = ⟨(boundingRect c).x + dx, (boundingRect c).y + dy,
      (boundingRect c).width, (boundingRect c).height⟩ :=
  boundingRect_map hc ((boundingRect_pixelBox hc).translate dx dy)

theorem boundingRect_mirror {c : Contour} (hc : c ≠ []) :
    boundingRect (mirror c)
      = ⟨639 - ((boundingRect c).x + (boundingRect c).width - 1), (boundingRect c).y,
        (boundingRect c).width, (boundingRect c).height⟩ :=
  boundingRect_map hc ((boundingRect_pixelBox hc).reflect 639)

/-- Two listings of one closed polygon: another start vertex, or the other direction as well. -/
def SameCycle (c c' : Contour) : Prop := c ~r c' ∨ c.reverse ~r c'

theorem SameCycle.points_eq {c c' : Contour} (h : SameCycle c c') : points c = points c' := by
  rcases h with h | h
  · exact points_eq_of_rotated h
  · rw [← points_reverse c]
    exact points_eq_of_rotated h

theorem SameCycle.contourArea_eq {c c' : Contour} (h : SameCycle c c') :
    contourArea c = contourArea c' := by
  rcases h with h | h
  · exact contourArea_rotated h
  · rw [← contourArea_reverse c]
    exact contourArea_rotated h

/-- Two listings of one polygon get the same verdict, from whatever lists their hulls are. -/
theorem SameCycle.accepts_eq {cv : OpenCV} {c c' : Contour} (h : SameCycle c c') (hc : HullAt cv c)
    (hc' : HullAt cv c') : accepts cv c' = accepts cv c := by
  have hrect := boundingRect_congr h.points_eq
  refine accepts_congr ?_ ?_ h.contourArea_eq.symm (hullArea_congr hc hc' h.points_eq).symm
  · rw [hrect]
  · rw [hrect]

/-- A rigid motion that keeps the size of boxes keeps the verdict. -/
theorem accepts_map {cv : OpenCV} {c : Contour} {f : Point → Point} {σ : ℤ} (hf : Lib.Rigid f σ)
    (hsize : KeepsSize f) (hc : HullAt cv c) (hc' : HullAt cv (c.map f)) :
    accepts cv (c.map f) = accepts cv c :=
  accepts_congr (size_map hsize c).1 (size_map hsize c).2 (contourArea_map hf c)
    (hullArea_map hf hc hc')

theorem shift_width (c : Contour) (dx dy : ℤ) :
    (boundingRect (shift dx dy c)).width = (boundingRect c).width :=
  (size_map (translate_keepsSize dx dy) c).1

theorem mirror_width (c : Contour) : (boundingRect (mirror c)).width = (boundingRect c).width :=
  (size_map (reflect_keepsSize 639) c).1

theorem accepts_shift {cv : OpenCV} {c : Contour} (dx dy : ℤ) (hc : HullAt cv c)
    (hc' : HullAt cv (shift dx dy c)) : accepts cv (shift dx dy c) = accepts cv c :=
  accepts_map (Lib.translate_rigid dx dy) (translate_keepsSize dx dy) hc hc'

theorem accepts_mirror {cv : OpenCV} {c : Contour} (hc : HullAt cv c) (hc' : HullAt cv (mirror c)) :
    accepts cv (mirror c) = accepts cv c :=
  accepts_map (Lib.reflect_rigid 639) (reflect_keepsSize 639) hc hc'

/-! ## §2 — the centre column. -/

theorem centreColumn_shift {c : Contour} (hc : c ≠ []) (dx dy : ℤ) :
    centreColumn (boundingRect (shift dx dy c)) = centreColumn (boundingRect c) + dx := by
  rw [boundingRect_shift hc]
  unfold centreColumn Rect.tl
  ring

/-- A box left of another one has its centre column left of the other's, for every parity of the
widths. -/
theorem centreColumn_lt {r r' : Rect} (hw : 0 < r.width) (hw' : 0 ≤ r'.width)
    (h : r.br.x ≤ r'.tl.x) : centreColumn r < centreColumn r' := by
  rw [centreColumn_eq hw.le, centreColumn_eq hw']
  change r.x + r.width ≤ r'.x at h
  omega

/-- The centre columns of a box and of its mirror image add up to 640 when the width is even and to
639 when it is odd. -/
theorem centreColumn_mirror {c : Contour} (hc : c ≠ []) :
    centreColumn (boundingRect c) + centreColumn (boundingRect (mirror c))
      = 640 - (boundingRect c).width % 2 := by
  have hw := (boundingRect_pixelBox hc).width_pos
  have hw' : 0 ≤ (boundingRect (mirror c)).width := by rw [mirror_width]; exact hw.le
  -- `x + w / 2` and `640 - (x + w) + w / 2`: two floored halves are `w` less its parity
  rw [centreColumn_eq hw.le, centreColumn_eq hw', boundingRect_mirror hc]
  dsimp only
  omega

/-! ## §3 — the shape law. -/

theorem azimuth_lt_iff (r r' : Rect) :
    (azimuth r : ExactDouble ℝ) < azimuth r' ↔ centreColumn r < centreColumn r' := by
  rw [azimuth_eq, azimuth_eq, ExactDouble.finite_lt_finite, azimuthAt_strictMono.lt_iff_lt]

/-- **The result depends on the shape and its position, and moves with it.** Start vertex and
direction of the list do not matter. A shift keeps verdict and distance and adds `58.5 * dx / 640`
degrees to the azimuth. Of two accepted contours side by side the left one has the smaller azimuth,
and of two accepted contours of different widths the wider one has the smaller distance. -/
theorem shape_law (cv : OpenCV) :
    (∀ c c' : Contour, SameCycle c c' → HullAt cv c → HullAt cv c' →
      accepts cv c' = accepts cv c ∧
      distance realMath (boundingRect c') = distance realMath (boundingRect c) ∧
      (azimuth (boundingRect c') : ExactDouble ℝ) = azimuth (boundingRect c)) ∧
    (∀ (c : Contour) (dx dy : ℤ), HullAt cv c → HullAt cv (shift dx dy c) →
      accepts cv (shift dx dy c) = accepts cv c ∧
      distance realMath (boundingRect (shift dx dy c)) = distance realMath (boundingRect c) ∧
      (c ≠ [] → (azimuth (boundingRect (shift dx dy c)) : ExactDouble ℝ) =
        azimuth (boundingRect c) + .finite (58.5 * dx / 640))) ∧
    (∀ c c' : Contour, accepts cv c = true → accepts cv c' = true →
      (boundingRect c).br.x ≤ (boundingRect c').tl.x →
      (azimuth (boundingRect c) : ExactDouble ℝ) < azimuth (boundingRect c')) ∧
    ∀ c c' : Contour, accepts cv c = true → accepts cv c' = true →
      (boundingRect c).width < (boundingRect c').width →
      distance realMath (boundingRect c') < distance realMath (boundingRect c) := by
  refine ⟨?_, ?_, ?_, ?_⟩
  · intro c c' h hc hc'
    have hrect := boundingRect_congr h.points_eq
    exact ⟨h.accepts_eq hc hc', by rw [hrect], by rw [hrect]⟩
  · intro c dx dy hc hc'
    refine ⟨accepts_shift dx dy hc hc', distance_congr realMath (shift_width c dx dy),
      fun hne => ?_⟩
    rw [azimuth_eq, azimuth_eq, centreColumn_shift hne, azimuthAt_add, ExactDouble.add_finite]
  · intro c c' hc hc' hleft
    have hw := accepts_width hc
    have hw' := accepts_width hc'
    rw [azimuth_lt_iff]
    exact centreColumn_lt (by omega) (by omega) hleft
  · intro c c' hc hc' hlt
    have hw := accepts_width hc
    rw [distance_eq (by omega), distance_eq (by omega), ExactDouble.finite_lt_finite]
    exact rangeFactor_div_lt (by omega) hlt

/-- The law at a U-shaped outline: listed backwards, shifted by 200 columns, next to its shifted
copy, and next to a wider outline. -/
theorem shape_law_outline :
    accepts boxHull (uOutline 100 100 40 30 5).reverse
      = accepts boxHull (uOutline 100 100 40 30 5) ∧
    (azimuth (boundingRect (shift 200 7 (uOutline 100 100 40 30 5))) : ExactDouble ℝ) =
      azimuth (boundingRect (uOutline 100 100 40 30 5)) + .finite (58.5 * (200 : ℤ) / 640) ∧
    (azimuth (boundingRect (uOutline 100 100 40 30 5)) : ExactDouble ℝ) <
      azimuth (boundingRect (uOutline 300 107 60 30 5)) ∧
    distance realMath (boundingRect (uOutline 300 107 60 30 5)) <
      distance realMath (boundingRect (uOutline 100 100 40 30 5)) := by
  obtain ⟨hcycle, hshift, hleft, hwide⟩ := shape_law boxHull
  have hhull : HullAt boxHull (uOutline 100 100 40 30 5) := hullAt_boxHull (by decide)
  have hrev : HullAt boxHull (uOutline 100 100 40 30 5).reverse := hullAt_boxHull (by decide)
  have hmoved : HullAt boxHull (shift 200 7 (uOutline 100 100 40 30 5)) :=
    hullAt_boxHull (by decide)
  have hacc' : accepts boxHull (uOutline 300 107 60 30 5) = true :=
    (accepts_iff_twiceArea ..).mpr (by decide)
  refine ⟨?_, ?_, ?_, ?_⟩
  · exact (hcycle _ _ (Or.inr (List.IsRotated.refl _)) hhull hrev).1
  · exact (hshift _ 200 7 hhull hmoved).2.2 (by decide)
  · exact hleft _ _ outline_accepted hacc' (by decide)
  · exact hwide _ _ outline_accepted hacc' (by decide)

/-! ## §4 — the mirror image. -/

/-- Contour and mirror image are treated alike: same verdict, and, when accepted, the same distance
and the negated azimuth. -/
def MirrorSymmetric (cv : OpenCV) (c : Contour) : Prop :=
  accepts cv (mirror c) = accepts cv c ∧
  (accepts cv c = true →
    distance realMath (boundingRect (mirror c)) = distance realMath (boundingRect c) ∧
    (azimuth (boundingRect (mirror c)) : ExactDouble ℝ) = -azimuth (boundingRect c))

/-- The azimuths are opposite exactly when the width is even. -/
theorem azimuth_mirror_iff {c : Contour} (hc : c ≠ []) :
    (azimuth (boundingRect (mirror c)) : ExactDouble ℝ) = -azimuth (boundingRect c) ↔
      Even (boundingRect c).width := by
  have hsum := centreColumn_mirror hc
  rw [azimuth_eq, azimuth_eq, ExactDouble.neg_finite, ExactDouble.finite.injEq,
    azimuthAt_eq_neg_iff, hsum, Int.even_iff]
  constructor
  · intro h; omega
  · intro h; omega

/-- **The detector is left/right symmetric on a contour exactly when it rejects it or its box has
even width.** The verdict and the distance are symmetric always; the azimuth is off by one column
for every odd width. -/
theorem mirror_symmetric_iff {cv : OpenCV} {c : Contour} (hc : HullAt cv c)
    (hc' : HullAt cv (mirror c)) :
    MirrorSymmetric cv c ↔ (accepts cv c = true → Even (boundingRect c).width) := by
  have hverdict := accepts_mirror hc hc'
  have hdist := distance_congr realMath (mirror_width c)
  constructor
  · rintro ⟨_, hsym⟩ hacc
    exact (azimuth_mirror_iff (accepts_ne_nil hacc)).mp (hsym hacc).2
  · intro heven
    refine ⟨hverdict, fun hacc => ⟨hdist, ?_⟩⟩
    exact (azimuth_mirror_iff (accepts_ne_nil hacc)).mpr (heven hacc)

/-- An outline of even width is treated like its mirror image. -/
theorem mirror_symmetric_outline : MirrorSymmetric boxHull (uOutline 100 100 41 30 5) := by
  have hhull : HullAt boxHull (uOutline 100 100 41 30 5) := hullAt_boxHull (by decide)
  have hmirror : HullAt boxHull (mirror (uOutline 100 100 41 30 5)) := hullAt_boxHull (by decide)
  exact (mirror_symmetric_iff hhull hmirror).mpr fun _ => by decide

/-- **An accepted outline of odd width whose mirror image is not seen at the opposite azimuth**,
although the hulls of both are right. -/
theorem odd_width_asymmetric :
    InFrame (uOutline 100 100 40 30 5) ∧ HullAt boxHull (uOutline 100 100 40 30 5) ∧
    HullAt boxHull (mirror (uOutline 100 100 40 30 5)) ∧
    ¬ MirrorSymmetric boxHull (uOutline 100 100 40 30 5) := by
  refine ⟨by decide, hullAt_boxHull (by decide), hullAt_boxHull (by decide), ?_⟩
  rintro ⟨_, hsym⟩
  have heven := (azimuth_mirror_iff (accepts_ne_nil outline_accepted)).mp (hsym outline_accepted).2
  exact absurd heven (by decide)

end NinjaVision
