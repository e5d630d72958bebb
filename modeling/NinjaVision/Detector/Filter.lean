/-
# NinjaVision.Detector.Filter — the loop that keeps the target contours.

`main` keeps a contour when its bounding box is wider than high and more than 30 pixels wide, and
its area is less than half of its hull's. The comparisons are on quotients of doubles, one of which
can be `0/0`. `accepts_iff` is the same decision without a division, on the box and the two shoelace
sums; `filter_law` states it on the vertex coordinates, with what it means for degenerate contours
and for the two vectors the loop fills.
-/
import NinjaVision.Detector.Outline
import NinjaVision.Lib.ExactDouble

namespace NinjaVision

open Lib (ExactDouble)

/-! ## §1 — the loop, as written. -/

/-- `(double) r.width / (double) r.height`. -/
def aspect (contour : Contour) : ExactDouble ℚ :=
  .finite (boundingRect contour).width / .finite (boundingRect contour).height

/-- `100.0 * area / contourArea(hull)`. -/
def solidity (cv : OpenCV) (contour : Contour) : ExactDouble ℚ :=
  .finite 100 * .finite (contourArea contour) / .finite (contourArea (cv.convexHull contour))

/-- `aspect > 1.0 && r.width > 30 && solidity < 50.0`. -/
def accepts (cv : OpenCV) (contour : Contour) : Bool :=
  decide (.finite 1 < aspect contour) && decide (30 < (boundingRect contour).width) &&
    decide (solidity cv contour < .finite 50)

/-- The two vectors the loop fills. -/
structure Filtered where
  filteredContours : List Contour
  irRects : List Rect
  deriving DecidableEq, Repr

/-- The loop body. -/
def filterBody (cv : OpenCV) (acc : Filtered) (contour : Contour) : Filtered :=
  if accepts cv contour then
    ⟨acc.filteredContours ++ [contour], acc.irRects ++ [boundingRect contour]⟩
  else
    acc

/-- `for (i = 0; i < contours.size(); i++)`, from two empty vectors. -/
def filterLoop (cv : OpenCV) (contours : List Contour) : Filtered :=
  contours.foldl (filterBody cv) ⟨[], []⟩

/-! ## §2 — the loop keeps its vectors aligned. -/

theorem foldl_filterBody (cv : OpenCV) (acc : Filtered) (contours : List Contour) :
    contours.foldl (filterBody cv) acc =
      ⟨acc.filteredContours ++ contours.filter (accepts cv),
        acc.irRects ++ (contours.filter (accepts cv)).map boundingRect⟩ := by
  induction contours generalizing acc with
  | nil => simp
  | cons c cs ih =>
      rw [List.foldl_cons, ih]
      cases hc : accepts cv c with
      | true => simp [filterBody, hc]
      | false => simp [filterBody, hc]

/-- **What the loop computes**: the accepted contours in order, and their bounding rectangles. -/
theorem filterLoop_eq (cv : OpenCV) (contours : List Contour) :
    filterLoop cv contours =
      ⟨contours.filter (accepts cv), (contours.filter (accepts cv)).map boundingRect⟩ := by
  rw [filterLoop, foldl_filterBody]
  simp

/-! ## §3 — the decision without a division. -/

theorem solidity_eq (cv : OpenCV) (c : Contour) :
    solidity cv c = .finite (100 * contourArea c) / .finite (contourArea (cv.convexHull c)) := rfl

/-- The solidity test: a hull without area fails it, be the solidity NaN or infinite. -/
theorem solidity_lt_iff (cv : OpenCV) (c : Contour) :
    solidity cv c < .finite 50 ↔ 2 * contourArea c < contourArea (cv.convexHull c) := by
  have harea := contourArea_nonneg c
  have hhull := contourArea_nonneg (cv.convexHull c)
  -- a hull area above twice a nonnegative area is positive, which excludes both special quotients
  rw [solidity_eq, ExactDouble.quot_lt_iff (by positivity) hhull]
  constructor
  · rintro ⟨_, h⟩
    linarith
  · intro h
    exact ⟨by linarith, by linarith⟩

/-- The aspect test: the divisor is the height of a nonempty pixel box. -/
theorem lt_aspect_iff {c : Contour} (hc : c ≠ []) :
    .finite 1 < aspect c ↔ (boundingRect c).height < (boundingRect c).width := by
  have hw := (boundingRect_pixelBox hc).width_pos
  have hh := (boundingRect_pixelBox hc).height_pos
  have hw' : (0 : ℚ) ≤ ((boundingRect c).width : ℤ) := by exact_mod_cast hw.le
  have hh' : (0 : ℚ) < ((boundingRect c).height : ℤ) := by exact_mod_cast hh
  rw [aspect, ExactDouble.lt_quot_iff hw' hh'.le, one_mul]
  constructor
  · rintro (⟨_, h⟩ | ⟨h, _⟩)
    · exact_mod_cast h
    · exact absurd h hh'.ne'
  · intro h
    exact Or.inl ⟨hh', by exact_mod_cast h⟩

/-- The empty list is rejected: `0/0` is not above 1. -/
theorem accepts_nil (cv : OpenCV) : accepts cv [] = false := by
  have haspect : aspect [] = .nan := by
    show (ExactDouble.finite ((0 : ℤ) : ℚ) / ExactDouble.finite ((0 : ℤ) : ℚ)) = _
    rw [Int.cast_zero, ExactDouble.zero_div_zero]
  simp [accepts, haspect]

/-- **The decision on the box and the areas.** -/
theorem accepts_iff (cv : OpenCV) (c : Contour) :
    accepts cv c = true ↔ (boundingRect c).height < (boundingRect c).width ∧
      30 < (boundingRect c).width ∧ 2 * contourArea c < contourArea (cv.convexHull c) := by
  by_cases hc : c = []
  · subst hc
    rw [accepts_nil]
    simp [boundingRect]
  · simp only [accepts, Bool.and_eq_true, decide_eq_true_eq, lt_aspect_iff hc, solidity_lt_iff,
      and_assoc]

/-- The decision on integers alone. -/
theorem accepts_iff_twiceArea (cv : OpenCV) (c : Contour) :
    accepts cv c = true ↔ (boundingRect c).height < (boundingRect c).width ∧
      30 < (boundingRect c).width ∧ 2 * |Lib.twiceArea c| < |Lib.twiceArea (cv.convexHull c)| := by
  have hcast : 2 * contourArea c < contourArea (cv.convexHull c) ↔
      2 * |Lib.twiceArea c| < |Lib.twiceArea (cv.convexHull c)| := by
    rw [contourArea_eq, contourArea_eq, ← Int.cast_abs, ← Int.cast_abs, ← mul_div_assoc,
      div_lt_div_iff_of_pos_right two_pos]
    exact_mod_cast Iff.rfl
  rw [accepts_iff, hcast]

/-- A hull that adds no area to its contour is rejected with it. -/
theorem rejected_of_hullArea_le {cv : OpenCV} {c : Contour}
    (h : contourArea (cv.convexHull c) ≤ contourArea c) : accepts cv c = false := by
  rw [Bool.eq_false_iff, ne_eq, accepts_iff]
  rintro ⟨_, _, hthin⟩
  linarith [contourArea_nonneg c]

/-- The outline at which the laws of the detector are read below is accepted. -/
theorem outline_accepted : accepts boxHull (uOutline 100 100 40 30 5) = true :=
  (accepts_iff_twiceArea ..).mpr (by decide)

theorem accepts_width {cv : OpenCV} {c : Contour} (h : accepts cv c = true) :
    30 < (boundingRect c).width := ((accepts_iff cv c).mp h).2.1

theorem accepts_ne_nil {cv : OpenCV} {c : Contour} (h : accepts cv c = true) : c ≠ [] := by
  rintro rfl
  rw [accepts_nil] at h
  exact Bool.false_ne_true h

/-- The decision reads the size of the box and the two areas, nothing else. -/
theorem accepts_congr {cv cv' : OpenCV} {c c' : Contour}
    (hw : (boundingRect c).width = (boundingRect c').width)
    (hh : (boundingRect c).height = (boundingRect c').height)
    (harea : contourArea c = contourArea c')
    (hhull : contourArea (cv.convexHull c) = contourArea (cv'.convexHull c')) :
    accepts cv c = accepts cv' c' := by
  rw [Bool.eq_iff_iff, accepts_iff, accepts_iff, hw, hh, harea, hhull]

/-! ## §4 — the decision on the vertex list. -/

/-- Greatest minus least value of a coordinate over a vertex list. -/
def extent (coord : Point → ℤ) (c : Contour) : ℤ :=
  (c.map coord).max?.getD 0 - (c.map coord).min?.getD 0

theorem extent_cons (coord : Point → ℤ) (p : Point) (ps : Contour) :
    extent coord (p :: ps)
      = ps.foldl (fun m q => max m (coord q)) (coord p) -
        ps.foldl (fun m q => min m (coord q)) (coord p) := by
  rw [extent, List.map_cons, List.max?_cons', List.min?_cons', List.foldl_map, List.foldl_map]
  rfl

theorem width_eq {c : Contour} (hc : c ≠ []) :
    (boundingRect c).width = extent Lib.Point.x c + 1 := by
  cases c with
  | nil => exact absurd rfl hc
  | cons p ps => rw [extent_cons]; rfl

theorem height_eq {c : Contour} (hc : c ≠ []) :
    (boundingRect c).height = extent Lib.Point.y c + 1 := by
  cases c with
  | nil => exact absurd rfl hc
  | cons p ps => rw [extent_cons]; rfl

/-- **The filter law.** A contour is kept exactly when its columns extend further than its rows,
over at least 30, and twice its shoelace area is below its hull's. The aspect divisor is never zero;
a contour whose hull has no area is dropped, and so is every collinear one, whose solidity is NaN,
when the hull is made of its vertices. The loop returns the kept contours in order, with their
rectangles. -/
theorem filter_law (cv : OpenCV) :
    (∀ c : Contour, c ≠ [] →
      ((boundingRect c).height : ℚ) ≠ 0 ∧
      (accepts cv c = true ↔ extent Lib.Point.y c < extent Lib.Point.x c ∧
        30 ≤ extent Lib.Point.x c ∧
        2 * (|((Lib.twiceArea c : ℤ) : ℚ)| / 2)
          < |((Lib.twiceArea (cv.convexHull c) : ℤ) : ℚ)| / 2)) ∧
    (∀ c : Contour, contourArea (cv.convexHull c) = 0 → accepts cv c = false) ∧
    (∀ c : Contour, (∀ p ∈ cv.convexHull c, p ∈ c) → Collinear c →
      contourArea (cv.convexHull c) = 0 ∧ solidity cv c = .nan) ∧
    ∀ contours : List Contour,
      (filterLoop cv contours).filteredContours = contours.filter (accepts cv) ∧
      (filterLoop cv contours).irRects = (contours.filter (accepts cv)).map boundingRect := by
  refine ⟨fun c hc => ⟨?_, ?_⟩, ?_, ?_, fun contours => ?_⟩
  · exact_mod_cast (boundingRect_pixelBox hc).height_pos.ne'
  -- the box counts pixels, one more than the extent on either axis
  · rw [accepts_iff, width_eq hc, height_eq hc, contourArea_eq, contourArea_eq]
    refine and_congr (by omega) (and_congr (by omega) Iff.rfl)
  · intro c hhull
    exact rejected_of_hullArea_le (hhull ▸ contourArea_nonneg c)
  · intro c hsub hline
    have hhull : contourArea (cv.convexHull c) = 0 :=
      contourArea_collinear fun o ho a ha b hb => hline o (hsub o ho) a (hsub a ha) b (hsub b hb)
    refine ⟨hhull, ?_⟩
    rw [solidity_eq, hhull, contourArea_collinear hline, mul_zero, ExactDouble.zero_div_zero]
  · rw [filterLoop_eq]
    exact ⟨rfl, rfl⟩

/-- The law at a U-shaped outline, which is kept, and at a segment, which is not. -/
theorem filter_law_outline :
    ((boundingRect (uOutline 100 100 40 30 5)).height : ℚ) ≠ 0 ∧
    accepts boxHull (uOutline 100 100 40 30 5) = true ∧
    accepts boxHull [⟨7, 7⟩, ⟨90, 7⟩] = false := by
  obtain ⟨hkeep, hdrop, hline, _⟩ := filter_law boxHull
  have hU : uOutline 100 100 40 30 5 ≠ [] := by decide
  refine ⟨(hkeep _ hU).1, (hkeep _ hU).2.mpr ⟨by decide, by decide, ?_⟩, hdrop _ (hline _ ?_ ?_).1⟩
  · have hareaU : Lib.twiceArea (uOutline 100 100 40 30 5) = 900 := by decide
    have hhullU : Lib.twiceArea (boxHull.convexHull (uOutline 100 100 40 30 5)) = 2400 := by decide
    rw [hareaU, hhullU]
    norm_num
  · decide
  · unfold Collinear; decide

end NinjaVision
