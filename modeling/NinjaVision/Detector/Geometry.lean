/-
# NinjaVision.Detector.Geometry — the loop that turns target rectangles into distances and azimuths.

For each rectangle the loop computes a distance from the width and an azimuth from the centre
column, and pushes one onto each of two vectors. The arithmetic is double arithmetic on numbers one
of which, `tl().x + width / 2`, is an `int` first: its division truncates. `tan` and `M_PI` are
those of `<cmath>`, a parameter (`CMath`); `realMath` reads them as the real functions.

`targetsOf` is this loop after the filter loop: what a list of contours is published as.

`azimuth_eq` and `distance_eq` are the finite values. The azimuth is affine in the centre column and
the distance is a positive constant over the width; the order and shift laws follow from these two
forms.

The local `x` of the loop body is never read, and everything after the two `push_back` calls draws
onto an image that nothing reads; both are left out.
-/
import NinjaVision.Detector.Filter
import NinjaVision.Lib.Angles

namespace NinjaVision

open Lib (ExactDouble)

variable {K : Type*}

/-! ## §1 — the loop, as written. -/

/-- `M_PI` and `tan` of `<cmath>`. -/
structure CMath (K : Type*) where
  mPi : ExactDouble K
  tan : ExactDouble K → ExactDouble K

section Loop

variable [Field K] [LinearOrder K]

/-- `((processed.size().width*(10.0/r.width)))/(tan(46.6 * M_PI/180.0)/2.0)`. -/
def distance (m : CMath K) (r : Rect) : ExactDouble K :=
  .finite imageCols * (.finite 10.0 / .finite r.width) /
    (m.tan (.finite 46.6 * m.mPi / .finite 180.0) / .finite 2.0)

/-- `r.tl().x + r.width / 2`, in `int` arithmetic: the division truncates. -/
def centreColumn (r : Rect) : ℤ := r.tl.x + r.width.tdiv 2

/-- `2 * (targetX / processed.size().width) - 1`. -/
def targetX (r : Rect) : ExactDouble K :=
  .finite 2 * (.finite (centreColumn r) / .finite imageCols) - .finite 1

/-- `targetX*58.5 / 2.0`. -/
def azimuth (r : Rect) : ExactDouble K := targetX r * .finite 58.5 / .finite 2.0

/-- The two vectors the loop fills. -/
structure Targets (K : Type*) where
  distances : List (ExactDouble K)
  azimuths : List (ExactDouble K)
  deriving DecidableEq, Repr

/-- The loop body: one `push_back` onto each vector. -/
def geometryBody (m : CMath K) (acc : Targets K) (r : Rect) : Targets K :=
  ⟨acc.distances ++ [distance m r], acc.azimuths ++ [azimuth r]⟩

/-- `for (Rect r : ir_rects)`, from two empty vectors. -/
def geometryLoop (m : CMath K) (irRects : List Rect) : Targets K :=
  irRects.foldl (geometryBody m) ⟨[], []⟩

/-! ## §2 — the two vectors stay aligned. -/

theorem foldl_geometryBody (m : CMath K) (acc : Targets K) (rs : List Rect) :
    rs.foldl (geometryBody m) acc =
      ⟨acc.distances ++ rs.map (distance m), acc.azimuths ++ rs.map azimuth⟩ := by
  induction rs generalizing acc with
  | nil => simp
  | cons r rs ih =>
      rw [List.foldl_cons, ih]
      simp [geometryBody]

/-- **What the loop computes**: one distance and one azimuth for each rectangle, in order. -/
theorem geometryLoop_eq (m : CMath K) (rs : List Rect) :
    geometryLoop m rs = ⟨rs.map (distance m), rs.map azimuth⟩ := by
  rw [geometryLoop, foldl_geometryBody]
  simp

/-- What a list of contours is published as: both loops, one after the other. -/
def targetsOf (cv : OpenCV) (m : CMath K) (contours : List Contour) : Targets K :=
  geometryLoop m (filterLoop cv contours).irRects

instance : Append (Targets K) := ⟨fun s t => ⟨s.distances ++ t.distances, s.azimuths ++ t.azimuths⟩⟩

theorem targetsOf_eq (cv : OpenCV) (m : CMath K) (contours : List Contour) :
    targetsOf cv m contours =
      ⟨(contours.filter (accepts cv)).map fun c => distance m (boundingRect c),
        (contours.filter (accepts cv)).map fun c => azimuth (boundingRect c)⟩ := by
  rw [targetsOf, filterLoop_eq, geometryLoop_eq, List.map_map, List.map_map]
  rfl

theorem targetsOf_append (cv : OpenCV) (m : CMath K) (cs cs' : List Contour) :
    targetsOf cv m (cs ++ cs') = targetsOf cv m cs ++ targetsOf cv m cs' := by
  rw [targetsOf_eq, targetsOf_eq, targetsOf_eq, List.filter_append, List.map_append,
    List.map_append]
  rfl

/-- An accepted contour is published at its place: one distance and one azimuth. -/
theorem targetsOf_accepted {cv : OpenCV} {c : Contour} (hacc : accepts cv c = true) (m : CMath K)
    (pre post : List Contour) :
    targetsOf cv m (pre ++ c :: post) =
      targetsOf cv m pre ++ ⟨[distance m (boundingRect c)], [azimuth (boundingRect c)]⟩ ++
        targetsOf cv m post := by
  have hone : targetsOf cv m [c] = ⟨[distance m (boundingRect c)], [azimuth (boundingRect c)]⟩ := by
    rw [targetsOf_eq, List.filter_cons_of_pos hacc]
    rfl
  rw [List.append_cons, targetsOf_append, targetsOf_append, hone]

/-- A rejected contour leaves no trace, wherever it stands. -/
theorem targetsOf_rejected {cv : OpenCV} {c : Contour} (hrej : accepts cv c = false) (m : CMath K)
    (pre post : List Contour) :
    targetsOf cv m (pre ++ c :: post) = targetsOf cv m (pre ++ post) := by
  have hskip : (c :: post).filter (accepts cv) = post.filter (accepts cv) :=
    List.filter_cons_of_neg (by rw [hrej]; exact Bool.false_ne_true)
  rw [targetsOf_eq, targetsOf_eq, List.filter_append, List.filter_append, hskip]

/-- The distance reads the width of the rectangle only. -/
theorem distance_congr (m : CMath K) {r r' : Rect} (h : r.width = r'.width) :
    distance m r = distance m r' := by
  rw [distance, distance, h]

end Loop

/-! ## §3 — the azimuth is affine in the centre column. -/

/-- On a box the truncating division is the floor. -/
theorem centreColumn_eq {r : Rect} (hw : 0 ≤ r.width) : centreColumn r = r.x + r.width / 2 := by
  rw [centreColumn, Int.tdiv_eq_ediv_of_nonneg hw]
  rfl

section Azimuth

variable [Field K] [LinearOrder K] [IsStrictOrderedRing K]

/-- Degrees of azimuth at a column. -/
def azimuthAt (column : ℤ) : K := 58.5 * column / 640 - 29.25

theorem targetX_eq (r : Rect) :
    (targetX r : ExactDouble K) = .finite (2 * (centreColumn r / (imageCols : ℕ)) - 1) := by
  have hcols : ((imageCols : ℕ) : K) ≠ 0 := by norm_num
  rw [targetX, ExactDouble.div_finite _ hcols, ExactDouble.mul_finite, ExactDouble.sub_finite]

theorem azimuth_eq (r : Rect) :
    (azimuth r : ExactDouble K) = .finite (azimuthAt (centreColumn r)) := by
  have htwo : (2.0 : K) ≠ 0 := by norm_num
  rw [azimuth, targetX_eq, ExactDouble.mul_finite, ExactDouble.div_finite _ htwo, azimuthAt]
  congr 1
  norm_num
  ring

theorem azimuthAt_add (column d : ℤ) :
    (azimuthAt (column + d) : K) = azimuthAt column + 58.5 * d / 640 := by
  unfold azimuthAt
  push_cast
  ring

theorem azimuthAt_strictMono : StrictMono (azimuthAt : ℤ → K) := by
  intro a b hab
  have hcast : (a : K) < b := by exact_mod_cast hab
  unfold azimuthAt
  norm_num
  linarith

/-- Two columns are seen at opposite azimuths exactly when they lie symmetrically about column
320. -/
theorem azimuthAt_eq_neg_iff (a b : ℤ) : (azimuthAt b : K) = -azimuthAt a ↔ a + b = 640 := by
  have hcast : (azimuthAt b : K) = -azimuthAt a ↔ ((a + b : ℤ) : K) = (640 : ℤ) := by
    unfold azimuthAt
    push_cast
    norm_num
    constructor
    · intro h; linarith
    · intro h; linarith
  rw [hcast, Int.cast_inj]

end Azimuth

/-! ## §4 — the distance over the reals. -/

/-- The real `tan` and `π`; an infinity or NaN gives NaN. -/
noncomputable def realMath : CMath ℝ where
  mPi := .finite Real.pi
  tan
    | .finite x => .finite (Real.tan x)
    | _ => .nan

/-- The numerator of the published distance over the width: a positive constant. -/
noncomputable def rangeFactor : ℝ := 12800 / Real.tan (Lib.radians 46.6)

theorem rangeFactor_pos : 0 < rangeFactor :=
  div_pos (by norm_num) (Lib.tan_radians_pos (by norm_num) (by norm_num))

/-- The divisor of `distance`, with the tangent of the field of view in degrees. -/
theorem distanceDivisor_eq :
    realMath.tan (.finite 46.6 * realMath.mPi / .finite 180.0) / .finite 2.0
      = .finite (Real.tan (Lib.radians 46.6) / 2.0) := by
  have hrad : (46.6 : ℝ) * Real.pi / 180.0 = Lib.radians 46.6 := by unfold Lib.radians; norm_num
  show realMath.tan (.finite (46.6 * Real.pi) / .finite 180.0) / .finite 2.0 = _
  rw [ExactDouble.div_finite _ (by norm_num), hrad]
  exact ExactDouble.div_finite _ (by norm_num)

theorem distance_eq {r : Rect} (hw : 0 < r.width) :
    distance realMath r = .finite (rangeFactor / r.width) := by
  have htan : Real.tan (Lib.radians 46.6) ≠ 0 :=
    (Lib.tan_radians_pos (by norm_num) (by norm_num)).ne'
  have hwidth : ((r.width : ℤ) : ℝ) ≠ 0 := by exact_mod_cast hw.ne'
  rw [distance, distanceDivisor_eq, ExactDouble.div_finite _ hwidth, ExactDouble.mul_finite,
    ExactDouble.div_finite _ (div_ne_zero htan (by norm_num)), rangeFactor]
  congr 1
  field_simp
  norm_num

/-- The wider of two targets is published as the nearer one. -/
theorem rangeFactor_div_lt {w w' : ℤ} (hw : 0 < w) (hlt : w < w') :
    rangeFactor / w' < rangeFactor / w := by
  have hw' : (0 : ℝ) < w := by exact_mod_cast hw
  have hcast : (w : ℝ) < w' := by exact_mod_cast hlt
  exact div_lt_div_of_pos_left rangeFactor_pos hw' hcast

theorem rangeFactor_div_le {w w' : ℤ} (hw : 0 < w) (hle : w ≤ w') :
    rangeFactor / w' ≤ rangeFactor / w := by
  rcases hle.eq_or_lt with rfl | hlt
  · exact le_rfl
  · exact (rangeFactor_div_lt hw hlt).le

end NinjaVision
