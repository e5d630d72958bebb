/-
# NinjaVision.Detector.Contour — contours and the OpenCV functions the detector applies to them.

OpenCV is not part of this repository. Of what `main` calls on a contour, `boundingRect` and
`contourArea` are written out as documented: the pixel bounding box, and half the absolute shoelace
sum, computed by the loop that carries the previous vertex. `findContours` and `convexHull` stay
parameters (`OpenCV`); what is assumed of `convexHull` where a result needs it is `HullAt`: it lists
the hull vertices of that contour in cyclic order.

`PixelBox` says what a bounding rectangle is without the loop. A point set has one, so
`boundingRect` depends on the set of vertices only and moves with it (`PixelBox.translate`,
`PixelBox.reflect`, `PixelBox.flipRows`).
-/
import NinjaVision.Device.CvFreenect
import NinjaVision.Lib.Planar
import Mathlib.Algebra.Order.Field.Basic
import Mathlib.Algebra.Order.Field.Rat
import Mathlib.Order.Bounds.Basic
import Mathlib.Tactic.Positivity

namespace NinjaVision

/-! ## §1 — points, rectangles and the library functions. -/

/-- OpenCV's `Point`. -/
abbrev Point := Lib.Point ℤ

/-- A contour: the vertex list of a closed curve. -/
abbrev Contour := List Point

/-- All vertices inside the 640 x 480 frame. -/
def InFrame (c : Contour) : Prop := ∀ p ∈ c, 0 ≤ p.x ∧ p.x < imageCols ∧ 0 ≤ p.y ∧ p.y < imageRows

instance (c : Contour) : Decidable (InFrame c) :=
  inferInstanceAs (Decidable (∀ p ∈ c, 0 ≤ p.x ∧ p.x < imageCols ∧ 0 ≤ p.y ∧ p.y < imageRows))

/-- OpenCV's `Rect`. -/
structure Rect where
  x : ℤ
  y : ℤ
  width : ℤ
  height : ℤ
  deriving DecidableEq, Repr

/-- Top-left corner. -/
def Rect.tl (r : Rect) : Point := ⟨r.x, r.y⟩

/-- Bottom-right corner, just outside the rectangle. -/
def Rect.br (r : Rect) : Point := ⟨r.x + r.width, r.y + r.height⟩

/-- The two OpenCV functions that stay parameters: the external contours of a mask, and the convex
hull of a contour. -/
structure OpenCV where
  findContours : Image UInt8 → List Contour
  convexHull : Contour → Contour

/-- `boundingRect`: least and greatest coordinates in one pass; `Rect()` for no points. -/
def boundingRect : Contour → Rect
  | [] => ⟨0, 0, 0, 0⟩
  | p :: ps =>
      let xmin := ps.foldl (fun m q => min m q.x) p.x
      let ymin := ps.foldl (fun m q => min m q.y) p.y
      let xmax := ps.foldl (fun m q => max m q.x) p.x
      let ymax := ps.foldl (fun m q => max m q.y) p.y
      ⟨xmin, ymin, xmax - xmin + 1, ymax - ymin + 1⟩

/-- The loop of `contourArea`: `a00 += prev.x * p.y - prev.y * p.x; prev = p`. -/
def contourAreaLoop (prev : Point) (a00 : ℤ) : Contour → ℤ
  | [] => a00
  | p :: ps => contourAreaLoop p (a00 + (prev.x * p.y - prev.y * p.x)) ps

/-- `contourArea`, not oriented: `prev` starts as the last vertex, the sum is halved, then
`fabs`. -/
def contourArea : Contour → ℚ
  | [] => 0
  | p :: ps => |(contourAreaLoop ((p :: ps).getLast (by simp)) 0 (p :: ps) : ℚ) / 2|

/-! ## §2 — areas. -/

theorem contourAreaLoop_eq (prev : Point) (a00 : ℤ) (ps : Contour) :
    contourAreaLoop prev a00 ps = a00 + Lib.chainSum Lib.det prev ps := by
  induction ps generalizing prev a00 with
  | nil => simp [contourAreaLoop]
  | cons p ps ih => rw [contourAreaLoop, ih, Lib.chainSum_cons, add_assoc]; rfl

/-- `contourArea` is half the absolute shoelace sum. -/
theorem contourArea_eq (c : Contour) : contourArea c = |((Lib.twiceArea c : ℤ) : ℚ)| / 2 := by
  cases c with
  | nil => simp [contourArea, Lib.twiceArea]
  | cons p ps =>
      rw [contourArea, contourAreaLoop_eq, zero_add, Lib.chainSum_getLast, abs_div, abs_two]
      rfl

theorem contourArea_nonneg (c : Contour) : 0 ≤ contourArea c := by
  rw [contourArea_eq]
  positivity

/-- Contours with the same absolute shoelace sum have the same area. -/
theorem contourArea_congr {c c' : Contour} (h : |Lib.twiceArea c| = |Lib.twiceArea c'|) :
    contourArea c = contourArea c' := by
  rw [contourArea_eq, contourArea_eq, ← Int.cast_abs, ← Int.cast_abs, h]

theorem contourArea_rotated {c c' : Contour} (h : c ~r c') : contourArea c = contourArea c' :=
  contourArea_congr (by rw [Lib.twiceArea_rotated h])

theorem contourArea_reverse (c : Contour) : contourArea c.reverse = contourArea c :=
  contourArea_congr (by rw [Lib.twiceArea_reverse, abs_neg])

/-- Rigid maps keep areas. -/
theorem contourArea_map {f : Point → Point} {σ : ℤ} (hf : Lib.Rigid f σ) (c : Contour) :
    contourArea (c.map f) = contourArea c := by
  refine contourArea_congr ?_
  rw [Lib.twiceArea_map hf, abs_mul]
  rcases hf.unit with rfl | rfl <;> simp

/-- All vertices on one line. -/
def Collinear (c : Contour) : Prop := ∀ o ∈ c, ∀ a ∈ c, ∀ b ∈ c, Lib.cross o a b = 0

theorem contourArea_collinear {c : Contour} (h : Collinear c) : contourArea c = 0 := by
  rw [contourArea_eq, Lib.twiceArea_collinear h]
  simp

/-! ## §3 — convex hulls. -/

/-- The vertex set of a contour. -/
def points (c : Contour) : Set Point := {p | p ∈ c}

theorem points_map (f : Point → Point) (c : Contour) : points (c.map f) = f '' points c := by
  ext q
  simp [points]

theorem points_eq_of_rotated {c c' : Contour} (h : c ~r c') : points c = points c' :=
  Set.ext fun _ => h.mem_iff

theorem points_reverse (c : Contour) : points c.reverse = points c :=
  Set.ext fun _ => List.mem_reverse

/-- What `convexHull` is assumed to do on a contour: list its hull vertices in cyclic order, from
any start and in either direction. -/
def HullAt (cv : OpenCV) (c : Contour) : Prop := Lib.IsHull (points c) (cv.convexHull c)

/-- Contours with the same vertices have hulls of the same area. -/
theorem hullArea_congr {cv : OpenCV} {c c' : Contour} (h : HullAt cv c) (h' : HullAt cv c')
    (hpoints : points c = points c') :
    contourArea (cv.convexHull c) = contourArea (cv.convexHull c') := by
  unfold HullAt at h
  rw [hpoints] at h
  exact contourArea_congr (h.abs_twiceArea_eq h')

/-- A rigid map keeps the area of the hull, although the hull list may start and turn
differently. -/
theorem hullArea_map {cv : OpenCV} {c : Contour} {f : Point → Point} {σ : ℤ} (hf : Lib.Rigid f σ)
    (h : HullAt cv c) (h' : HullAt cv (c.map f)) :
    contourArea (cv.convexHull (c.map f)) = contourArea (cv.convexHull c) := by
  unfold HullAt at h'
  rw [points_map] at h'
  rw [contourArea_congr (h'.abs_twiceArea_eq (h.map hf)), contourArea_map hf]

/-! ## §4 — bounding rectangles. -/

/-- `r` is the pixel bounding box of `S`: its first and last columns and rows are attained, and no
point is outside. -/
structure PixelBox (S : Set Point) (r : Rect) : Prop where
  left : IsLeast (Lib.Point.x '' S) r.x
  right : IsGreatest (Lib.Point.x '' S) (r.x + r.width - 1)
  top : IsLeast (Lib.Point.y '' S) r.y
  bottom : IsGreatest (Lib.Point.y '' S) (r.y + r.height - 1)

theorem PixelBox.unique {S : Set Point} {r r' : Rect} (h : PixelBox S r) (h' : PixelBox S r') :
    r = r' := by
  have hx := h.left.unique h'.left
  have hy := h.top.unique h'.top
  have hw := h.right.unique h'.right
  have hh := h.bottom.unique h'.bottom
  obtain ⟨x, y, w, ht⟩ := r
  obtain ⟨x', y', w', ht'⟩ := r'
  simp only [Rect.mk.injEq] at *
  omega

/-- One pass with `min` finds the least value of `f`. -/
theorem foldl_min_isLeast (f : Point → ℤ) (p : Point) (ps : Contour) :
    IsLeast (f '' points (p :: ps)) (ps.foldl (fun m q => min m (f q)) (f p)) := by
  have hfold : ps.foldl (fun m q => min m (f q)) (f p) = (ps.map f).foldl min (f p) := by
    rw [List.foldl_map]
  have hmin : ((p :: ps).map f).min? = some ((ps.map f).foldl min (f p)) := List.min?_cons'
  obtain ⟨hmem, hle⟩ := List.min?_eq_some_iff.mp hmin
  rw [hfold]
  refine ⟨List.mem_map.mp hmem, ?_⟩
  rintro _ ⟨q, hq, rfl⟩
  exact hle _ (List.mem_map_of_mem hq)

/-- One pass with `max` finds the greatest value of `f`. -/
theorem foldl_max_isGreatest (f : Point → ℤ) (p : Point) (ps : Contour) :
    IsGreatest (f '' points (p :: ps)) (ps.foldl (fun m q => max m (f q)) (f p)) := by
  have hfold : ps.foldl (fun m q => max m (f q)) (f p) = (ps.map f).foldl max (f p) := by
    rw [List.foldl_map]
  have hmax : ((p :: ps).map f).max? = some ((ps.map f).foldl max (f p)) := List.max?_cons'
  obtain ⟨hmem, hle⟩ := List.max?_eq_some_iff.mp hmax
  rw [hfold]
  refine ⟨List.mem_map.mp hmem, ?_⟩
  rintro _ ⟨q, hq, rfl⟩
  exact hle _ (List.mem_map_of_mem hq)

/-- **`boundingRect` is the pixel bounding box** of every nonempty contour. -/
theorem boundingRect_pixelBox {c : Contour} (hc : c ≠ []) :
    PixelBox (points c) (boundingRect c) := by
  cases c with
  | nil => exact absurd rfl hc
  | cons p ps =>
      have hright : ∀ a b : ℤ, a + (b - a + 1) - 1 = b := fun a b => by ring
      refine ⟨foldl_min_isLeast _ p ps, ?_, foldl_min_isLeast _ p ps, ?_⟩
      · simp only [boundingRect, hright]
        exact foldl_max_isGreatest _ p ps
      · simp only [boundingRect, hright]
        exact foldl_max_isGreatest _ p ps

/-- `boundingRect` depends on the vertex set only. -/
theorem boundingRect_congr {c c' : Contour} (h : points c = points c') :
    boundingRect c = boundingRect c' := by
  -- `Rect()` of an empty list is no pixel box, so that case is apart
  have hnil : c = [] ↔ c' = [] := by
    simp only [List.eq_nil_iff_forall_not_mem]
    exact forall_congr' fun p => not_congr (Set.ext_iff.mp h p)
  by_cases hc : c = []
  · rw [hc, hnil.mp hc]
  · exact (h ▸ boundingRect_pixelBox hc).unique (boundingRect_pixelBox fun hc' => hc (hnil.mpr hc'))

theorem PixelBox.width_pos {S : Set Point} {r : Rect} (h : PixelBox S r) : 0 < r.width := by
  have := h.left.2 h.right.1
  omega

theorem PixelBox.height_pos {S : Set Point} {r : Rect} (h : PixelBox S r) : 0 < r.height := by
  have := h.top.2 h.bottom.1
  omega

/-! ## §5 — boxes move with their points. -/

/-- The least value of `T` is `a`, and the greatest the last of `n` values from there. -/
def Span (T : Set ℤ) (a n : ℤ) : Prop := IsLeast T a ∧ IsGreatest T (a + n - 1)

theorem Span.shift {T : Set ℤ} {a n : ℤ} (h : Span T a n) (d : ℤ) :
    Span ((fun v => v + d) '' T) (a + d) n := by
  have hmono : Monotone fun v : ℤ => v + d := fun a b hab => add_le_add_left hab d
  refine ⟨hmono.map_isLeast h.1, ?_⟩
  rw [show a + d + n - 1 = a + n - 1 + d by ring]
  exact hmono.map_isGreatest h.2

/-- An antitone image exchanges least and greatest value. -/
theorem Span.reverse {T : Set ℤ} {a n : ℤ} (h : Span T a n) (m : ℤ) :
    Span ((fun v => m - v) '' T) (m - (a + n - 1)) n := by
  have hanti : Antitone fun v : ℤ => m - v := fun a b hab => sub_le_sub_left hab m
  refine ⟨hanti.map_isGreatest h.2, ?_⟩
  rw [show m - (a + n - 1) + n - 1 = m - a by ring]
  exact hanti.map_isLeast h.1

/-- A pixel box spans the columns and the rows of its points. -/
theorem pixelBox_iff {S : Set Point} {r : Rect} :
    PixelBox S r ↔ Span (Lib.Point.x '' S) r.x r.width ∧ Span (Lib.Point.y '' S) r.y r.height := by
  constructor
  · intro h
    exact ⟨⟨h.left, h.right⟩, h.top, h.bottom⟩
  · rintro ⟨⟨hleft, hright⟩, htop, hbottom⟩
    exact ⟨hleft, hright, htop, hbottom⟩

/-- A coordinate of moved points is the moved coordinate. -/
theorem coord_image {coord : Point → ℤ} {f : Point → Point} {g : ℤ → ℤ}
    (hf : ∀ p, coord (f p) = g (coord p)) (S : Set Point) :
    coord '' (f '' S) = g '' (coord '' S) := by
  rw [Set.image_image, Set.image_image]
  exact Set.image_congr fun p _ => hf p

/-- The box of a translated set is the translated box. -/
theorem PixelBox.translate {S : Set Point} {r : Rect} (h : PixelBox S r) (dx dy : ℤ) :
    PixelBox (Lib.translate dx dy '' S) ⟨r.x + dx, r.y + dy, r.width, r.height⟩ := by
  obtain ⟨hx, hy⟩ := pixelBox_iff.mp h
  have hcolumns : Lib.Point.x '' (Lib.translate dx dy '' S)
      = (fun v => v + dx) '' (Lib.Point.x '' S) :=
    coord_image (fun _ => rfl) S
  have hrows : Lib.Point.y '' (Lib.translate dx dy '' S)
      = (fun v => v + dy) '' (Lib.Point.y '' S) :=
    coord_image (fun _ => rfl) S
  rw [pixelBox_iff, hcolumns, hrows]
  exact ⟨hx.shift dx, hy.shift dy⟩

/-- The box of a reflected set: first and last column change places. -/
theorem PixelBox.reflect {S : Set Point} {r : Rect} (h : PixelBox S r) (m : ℤ) :
    PixelBox (Lib.reflect m '' S) ⟨m - (r.x + r.width - 1), r.y, r.width, r.height⟩ := by
  obtain ⟨hx, hy⟩ := pixelBox_iff.mp h
  have hcolumns : Lib.Point.x '' (Lib.reflect m '' S) = (fun v => m - v) '' (Lib.Point.x '' S) :=
    coord_image (fun _ => rfl) S
  have hrows : Lib.Point.y '' (Lib.reflect m '' S) = Lib.Point.y '' S := by
    rw [Set.image_image]; rfl
  rw [pixelBox_iff, hcolumns, hrows]
  exact ⟨hx.reverse m, hy⟩

/-- The box of an upside-down set: first and last row change places. -/
theorem PixelBox.flipRows {S : Set Point} {r : Rect} (h : PixelBox S r) (m : ℤ) :
    PixelBox (Lib.flipRows m '' S) ⟨r.x, m - (r.y + r.height - 1), r.width, r.height⟩ := by
  obtain ⟨hx, hy⟩ := pixelBox_iff.mp h
  have hcolumns : Lib.Point.x '' (Lib.flipRows m '' S) = Lib.Point.x '' S := by
    rw [Set.image_image]; rfl
  have hrows : Lib.Point.y '' (Lib.flipRows m '' S) = (fun v => m - v) '' (Lib.Point.y '' S) :=
    coord_image (fun _ => rfl) S
  rw [pixelBox_iff, hcolumns, hrows]
  exact ⟨hx, hy.reverse m⟩

end NinjaVision
