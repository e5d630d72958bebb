/-
# NinjaVision.Detector.Convex — convex contours are never published.

The solidity of a contour compares its area with its hull's. A contour that traces a convex polygon
is its own hull, but not always the same list: `convexHull` may start at another vertex, run the
other way, and drop vertices that lie on a segment between the ones it keeps (`HullThins`). None of
this changes the area, so the solidity is exactly 100, or `0/0` when the contour has no area, and
neither is below 50 (`convex_law`). This is for polygons of any number of vertices, any size and any
place.

What `HullThins` assumes of `convexHull` is no more than `HullAt` does for contours in general: for
a convex trace it follows (`HullAt.thins`).
-/
import NinjaVision.Detector.Geometry
import NinjaVision.Lib.Convex

namespace NinjaVision

open Lib (ExactDouble)

/-- What `convexHull` is assumed to do on a contour if it traces a convex polygon: return the same
cycle, from some start and in some direction, without some vertices that lie on the segments between
the kept ones. -/
def HullThins (cv : OpenCV) (c : Contour) : Prop :=
  Lib.ConvexTrace c → Lib.ThinCycle c (cv.convexHull c) ∨ Lib.ThinCycle c (cv.convexHull c).reverse

/-- The hull vertices in cyclic order are such a cycle. -/
theorem HullAt.thins {cv : OpenCV} {c : Contour} (h : HullAt cv c) : HullThins cv c :=
  fun hconvex => hconvex.thin h

/-- **A convex contour has the area of its hull.** -/
theorem hullArea_eq_of_convex {cv : OpenCV} {c : Contour} (hconvex : Lib.ConvexTrace c)
    (hhull : HullThins cv c) : contourArea (cv.convexHull c) = contourArea c := by
  apply contourArea_congr
  rcases hhull hconvex with h | h
  · rw [h.twiceArea_eq]
  · rw [h.twiceArea_eq, Lib.twiceArea_reverse, abs_neg]

/-- **No convex contour is published.** Its solidity is 100, or NaN when it has no area; the filter
rejects it, and wherever it stands in a list of contours, what the list is published as is the same
without it. -/
theorem convex_law {K : Type*} [Field K] [LinearOrder K] {cv : OpenCV} {c : Contour}
    (hconvex : Lib.ConvexTrace c) (hhull : HullThins cv c) :
    (contourArea c ≠ 0 → solidity cv c = .finite 100) ∧
    (contourArea c = 0 → contourArea (cv.convexHull c) = 0 ∧ solidity cv c = .nan) ∧
    accepts cv c = false ∧
    ∀ (m : CMath K) (pre post : List Contour),
      targetsOf cv m (pre ++ c :: post) = targetsOf cv m (pre ++ post) := by
  have harea := hullArea_eq_of_convex hconvex hhull
  have hrej : accepts cv c = false := rejected_of_hullArea_le harea.le
  refine ⟨?_, ?_, hrej, fun m pre post => targetsOf_rejected hrej m pre post⟩
  · intro hpos
    rw [solidity_eq, harea, ExactDouble.div_finite _ hpos, mul_div_cancel_right₀ _ hpos]
  · intro hzero
    refine ⟨harea.trans hzero, ?_⟩
    rw [solidity_eq, harea, hzero, mul_zero, ExactDouble.zero_div_zero]

/-- The law at a rectangle with a vertex in the middle of one side, and at a segment listed with its
middle. -/
theorem convex_law_rectangle :
    solidity boxHull [⟨10, 10⟩, ⟨40, 10⟩, ⟨70, 10⟩, ⟨70, 30⟩, ⟨10, 30⟩] = .finite 100 ∧
    accepts boxHull [⟨10, 10⟩, ⟨40, 10⟩, ⟨70, 10⟩, ⟨70, 30⟩, ⟨10, 30⟩] = false ∧
    solidity ⟨fun _ => [], fun _ => [⟨10, 10⟩, ⟨70, 10⟩]⟩ [⟨10, 10⟩, ⟨40, 10⟩, ⟨70, 10⟩]
      = .nan := by
  have hside : HullAt boxHull [⟨10, 10⟩, ⟨40, 10⟩, ⟨70, 10⟩, ⟨70, 30⟩, ⟨10, 30⟩] :=
    hullAt_boxHull (by decide)
  have hsegment : HullThins ⟨fun _ => [], fun _ => [⟨10, 10⟩, ⟨70, 10⟩]⟩ [⟨10, 10⟩, ⟨40, 10⟩,
      ⟨70, 10⟩] := by
    intro _
    -- the middle is dropped on the way to the other end, nothing on the way back
    have hthin : Lib.Thin (⟨10, 10⟩ : Point) ([⟨40, 10⟩] ++ ⟨70, 10⟩ :: ([] ++ [⟨10, 10⟩]))
        [⟨70, 10⟩, ⟨10, 10⟩] :=
      .keep (by decide) (.keep (by decide) (.nil _))
    exact Or.inl (Or.inr ⟨_, [⟨40, 10⟩, ⟨70, 10⟩], [⟨70, 10⟩], List.IsRotated.refl _,
      List.IsRotated.refl _, hthin⟩)
  obtain ⟨hhundred, _, hrej, _⟩ := convex_law (K := ℚ) (Or.inl (by decide)) hside.thins
  obtain ⟨_, hnan, _⟩ := convex_law (K := ℚ) (Or.inl (by decide)) hsegment
  refine ⟨hhundred ?_, hrej, (hnan ?_).2⟩
  · rw [contourArea_eq]
    norm_num [Lib.twiceArea, Lib.cycleSum, Lib.det]
  · rw [contourArea_eq]
    norm_num [Lib.twiceArea, Lib.cycleSum, Lib.det]

end NinjaVision
