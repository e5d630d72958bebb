/-
# NinjaVision.Detector.Bounds — the range of what is published.

The published numbers are quotients, and nothing in the loop that computes them looks at a divisor.
That no one of them is zero, and that the results are finite and of the right size, comes from two
places before that loop: the filter lets no box through that is narrower than 31 columns, and a
contour inside the frame has its box inside the frame (`InFrame.box`). The centre column is then one
of the columns 15 to 624, and the width at most 640 (`centreColumn_bounds`). The divisors are read
off the expressions of the source (`Arith`), which evaluate to `distance` and `azimuth`.

`bounds_law` turns this into bounds of the two vectors, for every list of contours inside the frame,
with bounds that are reached: the azimuths at the two ends of the frame by the narrowest boxes,
which are also the farthest. The two azimuth bounds are not opposite, because the half width is an
`int` division.
-/
import NinjaVision.Detector.UShape

namespace NinjaVision

open Lib (ExactDouble)

/-! ## §1 — boxes of accepted contours in the frame. -/

/-- The box of a contour inside the frame is inside the frame. -/
theorem InFrame.box {c : Contour} (hin : InFrame c) (hc : c ≠ []) :
    0 ≤ (boundingRect c).x ∧ (boundingRect c).x + (boundingRect c).width ≤ imageCols := by
  have hbox := boundingRect_pixelBox hc
  obtain ⟨p, hp, hleft⟩ := hbox.left.1
  obtain ⟨q, hq, hright⟩ := hbox.right.1
  have hpin := hin p hp
  have hqin := hin q hq
  constructor <;> omega

/-- From the narrowest accepted box at the left edge to the narrowest one at the right edge. -/
theorem centreColumn_bounds {r : Rect} (hw : 30 < r.width) (hleft : 0 ≤ r.x)
    (hright : r.x + r.width ≤ imageCols) : 15 ≤ centreColumn r ∧ centreColumn r ≤ 624 := by
  rw [centreColumn_eq (by omega)]
  change r.x + r.width ≤ 640 at hright
  omega

/-! ## §2 — the divisors. -/

section Divisors

/-- The operations of C arithmetic. -/
inductive Op where
  | add
  | sub
  | mul
  | div

/-- An expression of the source: its numbers, its calls and its operations. -/
inductive Arith (α : Type*) where
  | num (v : α)
  | call (f : α → α) (e : Arith α)
  | op (o : Op) (a b : Arith α)

/-- The value of an expression. -/
def Arith.eval {α : Type*} (apply : Op → α → α → α) : Arith α → α
  | .num v => v
  | .call f e => f (e.eval apply)
  | .op o a b => apply o (a.eval apply) (b.eval apply)

/-- The values that something is divided by, in the order of evaluation. -/
def Arith.divisors {α : Type*} (apply : Op → α → α → α) : Arith α → List α
  | .num _ => []
  | .call _ e => e.divisors apply
  | .op .div a b => a.divisors apply ++ b.divisors apply ++ [b.eval apply]
  | .op _ a b => a.divisors apply ++ b.divisors apply

/-- On `int`, division truncates. -/
def intOp : Op → ℤ → ℤ → ℤ
  | .add, a, b => a + b
  | .sub, a, b => a - b
  | .mul, a, b => a * b
  | .div, a, b => a.tdiv b

variable {K : Type*} [Field K] [LinearOrder K]

/-- On `double`. -/
def doubleOp : Op → ExactDouble K → ExactDouble K → ExactDouble K
  | .add, a, b => a + b
  | .sub, a, b => a - b
  | .mul, a, b => a * b
  | .div, a, b => a / b

/-- The expression for the distance. -/
def distanceArith (m : CMath K) (r : Rect) : Arith (ExactDouble K) :=
  .op .div
    (.op .mul (.num (.finite imageCols)) (.op .div (.num (.finite 10.0)) (.num (.finite r.width))))
    (.op .div
      (.call m.tan (.op .div (.op .mul (.num (.finite 46.6)) (.num m.mPi)) (.num (.finite 180.0))))
      (.num (.finite 2.0)))

/-- The `int` expression for the centre column. -/
def centreArith (r : Rect) : Arith ℤ := .op .add (.num r.tl.x) (.op .div (.num r.width) (.num 2))

/-- The expression for the azimuth, from the centre column. -/
def azimuthArith (r : Rect) : Arith (ExactDouble K) :=
  .op .div
    (.op .mul
      (.op .sub
        (.op .mul (.num (.finite (2 : ℕ)))
          (.op .div (.num (.finite (centreColumn r))) (.num (.finite imageCols))))
        (.num (.finite 1)))
      (.num (.finite 58.5)))
    (.num (.finite 2.0))

theorem eval_distanceArith (m : CMath K) (r : Rect) :
    (distanceArith m r).eval doubleOp = distance m r := rfl

theorem eval_centreArith (r : Rect) : (centreArith r).eval intOp = centreColumn r := rfl

theorem eval_azimuthArith (r : Rect) :
    (azimuthArith r : Arith (ExactDouble K)).eval doubleOp = azimuth r := by
  rw [azimuth, targetX, ← Nat.cast_ofNat]
  rfl

/-- The divisors behind the two numbers of a rectangle. -/
def divisors (m : CMath K) (r : Rect) : List (ExactDouble K) :=
  (distanceArith m r).divisors doubleOp ++ (azimuthArith r).divisors doubleOp

/-- The divisors of `int` divisions behind them. -/
def intDivisors (r : Rect) : List ℤ := (centreArith r).divisors intOp

/-- In the order of the source: `10.0/r.width`, `/180.0` and `/2.0` in the divisor of `distance`,
that divisor, `/ processed.size().width`, and `/ 2.0` in `azimuth`. -/
theorem divisors_eq (m : CMath K) (r : Rect) : divisors m r =
    [.finite r.width, .finite 180.0, .finite 2.0,
      m.tan (.finite 46.6 * m.mPi / .finite 180.0) / .finite 2.0, .finite imageCols, .finite 2.0] :=
  rfl

/-- `r.width / 2`. -/
theorem intDivisors_eq (r : Rect) : intDivisors r = [2] := rfl

end Divisors

/-- A finite number other than zero. -/
def NonzeroFinite (d : ExactDouble ℝ) : Prop := ∃ v, d = .finite v ∧ v ≠ 0

/-- No divisor is zero when the rectangle has a width. -/
theorem divisors_nonzero {r : Rect} (hw : 0 < r.width) : ∀ d ∈ divisors realMath r,
    NonzeroFinite d := by
  have hwidth : ((r.width : ℤ) : ℝ) ≠ 0 := by exact_mod_cast hw.ne'
  have htan := Lib.tan_radians_pos (x := 46.6) (by norm_num) (by norm_num)
  have hconst : ∀ v : ℝ, v ≠ 0 → NonzeroFinite (.finite v) := fun v hv => ⟨v, rfl, hv⟩
  simp only [divisors_eq, List.forall_mem_cons, List.not_mem_nil, false_imp_iff, implies_true,
    and_true]
  refine ⟨hconst _ hwidth, hconst _ (by norm_num), hconst _ (by norm_num), ?_,
    hconst _ (by norm_num), hconst _ (by norm_num)⟩
  rw [distanceDivisor_eq]
  exact hconst _ (div_ne_zero htan.ne' (by norm_num))

/-! ## §3 — the bounds. -/

/-- Every published distance is finite and between 20 and `12800 / 31` over the tangent, every
azimuth is finite and between those of the columns 15 and 624, and they come in pairs. -/
structure PhysicallyBounded (t : Targets ℝ) : Prop where
  paired : t.distances.length = t.azimuths.length
  distances : ∀ d ∈ t.distances, ∃ v, d = .finite v ∧
    20 / Real.tan (Lib.radians 46.6) ≤ v ∧ v ≤ 12800 / (31 * Real.tan (Lib.radians 46.6))
  azimuths : ∀ a ∈ t.azimuths, ∃ v, a = .finite v ∧ -27.87890625 ≤ v ∧ v ≤ 27.7875

/-- The contour is inside the frame, and every OpenCV that finds its hull accepts it; and its hull
can be found. -/
structure AcceptedInFrame (c : Contour) : Prop where
  inFrame : InFrame c
  hull : ∃ cv, HullAt cv c
  accepted : ∀ cv, HullAt cv c → accepts cv c = true

/-- The upper distance bound is that of the width 31. -/
theorem farthest_eq : 12800 / (31 * Real.tan (Lib.radians 46.6)) = rangeFactor / (31 : ℤ) := by
  rw [rangeFactor, div_div, mul_comm]
  rfl

/-- The lower one is that of the width of the frame. -/
theorem nearest_eq : 20 / Real.tan (Lib.radians 46.6) = rangeFactor / (640 : ℤ) := by
  rw [rangeFactor]
  push_cast
  ring

theorem distance_bounds {r : Rect} (hw : 30 < r.width) (hmax : r.width ≤ imageCols) :
    ∃ v, distance realMath r = .finite v ∧ 20 / Real.tan (Lib.radians 46.6) ≤ v ∧
      v ≤ 12800 / (31 * Real.tan (Lib.radians 46.6)) := by
  refine ⟨rangeFactor / r.width, distance_eq (by omega), ?_, ?_⟩
  · rw [nearest_eq]
    exact rangeFactor_div_le (by omega) hmax
  · rw [farthest_eq]
    exact rangeFactor_div_le (by omega) hw

theorem azimuth_bounds {r : Rect} (hmin : 15 ≤ centreColumn r) (hmax : centreColumn r ≤ 624) :
    ∃ v : ℝ, azimuth r = .finite v ∧ -27.87890625 ≤ v ∧ v ≤ 27.7875 := by
  have hleft : (azimuthAt 15 : ℝ) = -27.87890625 := by norm_num [azimuthAt]
  have hright : (azimuthAt 624 : ℝ) = 27.7875 := by norm_num [azimuthAt]
  refine ⟨azimuthAt (centreColumn r), azimuth_eq r, ?_, ?_⟩
  · rw [← hleft]
    exact azimuthAt_strictMono.monotone hmin
  · rw [← hright]
    exact azimuthAt_strictMono.monotone hmax

/-- The box of an accepted contour inside the frame. -/
theorem accepted_box {cv : OpenCV} {c : Contour} (hacc : accepts cv c = true) (hin : InFrame c) :
    30 < (boundingRect c).width ∧ (boundingRect c).width ≤ imageCols ∧
      15 ≤ centreColumn (boundingRect c) ∧ centreColumn (boundingRect c) ≤ 624 := by
  have hw := accepts_width hacc
  obtain ⟨hleft, hright⟩ := hin.box (accepts_ne_nil hacc)
  exact ⟨hw, by omega, centreColumn_bounds hw hleft hright⟩

/-- Both vectors of a list of contours inside the frame are bounded. -/
theorem targetsOf_bounded (cv : OpenCV) {contours : List Contour}
    (hin : ∀ c ∈ contours, InFrame c) : PhysicallyBounded (targetsOf cv realMath contours) := by
  rw [targetsOf_eq]
  refine ⟨by simp, ?_, ?_⟩
  · intro d hd
    obtain ⟨c, hc, rfl⟩ := List.mem_map.mp hd
    obtain ⟨hmem, hacc⟩ := List.mem_filter.mp hc
    obtain ⟨hw, hmax, _, _⟩ := accepted_box hacc (hin c hmem)
    exact distance_bounds hw hmax
  · intro a ha
    obtain ⟨c, hc, rfl⟩ := List.mem_map.mp ha
    obtain ⟨hmem, hacc⟩ := List.mem_filter.mp hc
    obtain ⟨_, _, hmin, hmax⟩ := accepted_box hacc (hin c hmem)
    exact azimuth_bounds hmin hmax

/-- No bearing is at or beyond half of the field of view. -/
theorem PhysicallyBounded.bearing {t : Targets ℝ} (h : PhysicallyBounded t) :
    ∀ a ∈ t.azimuths, .finite (-(58.5 / 2)) < a ∧ a < .finite (58.5 / 2) := by
  intro a ha
  obtain ⟨v, rfl, hmin, hmax⟩ := h.azimuths a ha
  rw [ExactDouble.finite_lt_finite, ExactDouble.finite_lt_finite]
  constructor <;> norm_num at hmin hmax ⊢ <;> linarith

/-! ## §4 — the bounds are reached. -/

/-- A thin U of 31 columns. -/
theorem narrowU_shape (x₀ : ℤ) : UShape x₀ 0 30 10 1 (uOutline x₀ 0 30 10 1) :=
  uShape_upright (by decide) (by decide) (by decide)

/-- It is accepted wherever it stands in the frame. -/
theorem narrowU_accepted {x₀ : ℤ} (hleft : 0 ≤ x₀) (hright : x₀ + 30 < imageCols) :
    AcceptedInFrame (uOutline x₀ 0 30 10 1) where
  inFrame := by
    intro p hp
    have hbox := mem_uOutline (by decide) (by decide) (by decide) p hp
    change x₀ + 30 < 640 at hright
    show 0 ≤ p.x ∧ p.x < 640 ∧ 0 ≤ p.y ∧ p.y < 480
    omega
  hull := ⟨boxHull, hullAt_boxHull ((narrowU_shape x₀).reachesCorners (by decide) (by decide))⟩
  accepted _ hhull := ((narrowU_shape x₀).accepts_iff (by decide) (by decide) hhull).mpr (by decide)

theorem narrowU_azimuth (x₀ : ℤ) :
    (azimuth (boundingRect (uOutline x₀ 0 30 10 1)) : ExactDouble ℝ)
      = .finite (azimuthAt (x₀ + 15)) := by
  rw [azimuth_eq, (narrowU_shape x₀).box, centreColumn_eq (show (0 : ℤ) ≤ 30 + 1 by decide)]
  rfl

theorem narrowU_distance (x₀ : ℤ) : distance realMath (boundingRect (uOutline x₀ 0 30 10 1))
    = .finite (12800 / (31 * Real.tan (Lib.radians 46.6))) := by
  rw [(narrowU_shape x₀).box, distance_eq (show (0 : ℤ) < 30 + 1 by decide), farthest_eq]
  rfl

/-- The thin U is published at the upper distance bound, wherever it stands in the frame. -/
theorem narrowU_published {x₀ : ℤ} (hleft : 0 ≤ x₀) (hright : x₀ + 30 < imageCols) {cv : OpenCV}
    (hhull : HullAt cv (uOutline x₀ 0 30 10 1)) :
    targetsOf cv realMath [uOutline x₀ 0 30 10 1] =
      ⟨[.finite (12800 / (31 * Real.tan (Lib.radians 46.6)))],
        [.finite (azimuthAt (x₀ + 15))]⟩ := by
  have hacc := (narrowU_accepted hleft hright).accepted cv hhull
  rw [targetsOf_eq, List.filter_cons_of_pos hacc, List.filter_nil, List.map_singleton,
    List.map_singleton, narrowU_distance, narrowU_azimuth]

/-- **Everything published is finite and bounded.** For every list of nonempty contours inside the
frame, no divisor behind a published number is zero, that of the `int` division included, the
published pairs are within the bounds, and no bearing reaches half of the field of view. The bounds
are reached: of two accepted contours inside the frame, both are published at the upper distance
bound, one with the lower and one with the upper azimuth bound. -/
theorem bounds_law (cv : OpenCV) {contours : List Contour}
    (hin : ∀ c ∈ contours, c ≠ [] ∧ InFrame c) :
    (∀ r ∈ (filterLoop cv contours).irRects,
      (∀ d ∈ divisors realMath r, NonzeroFinite d) ∧ ∀ d ∈ intDivisors r, d ≠ 0) ∧
    PhysicallyBounded (targetsOf cv realMath contours) ∧
    (∀ a ∈ (targetsOf cv realMath contours).azimuths,
      .finite (-(58.5 / 2)) < a ∧ a < .finite (58.5 / 2)) ∧
    (∃ c, AcceptedInFrame c ∧ ∀ cv', HullAt cv' c → targetsOf cv' realMath [c] =
      ⟨[.finite (12800 / (31 * Real.tan (Lib.radians 46.6)))], [.finite (-27.87890625)]⟩) ∧
    ∃ c, AcceptedInFrame c ∧ ∀ cv', HullAt cv' c → targetsOf cv' realMath [c] =
      ⟨[.finite (12800 / (31 * Real.tan (Lib.radians 46.6)))], [.finite 27.7875]⟩ := by
  have hbounded := targetsOf_bounded cv fun c hc => (hin c hc).2
  have hleft := narrowU_accepted (le_refl (0 : ℤ)) (by decide)
  have hright := narrowU_accepted (show (0 : ℤ) ≤ 609 by decide) (by decide)
  refine ⟨?_, hbounded, hbounded.bearing, ⟨_, hleft, fun cv' hhull => ?_⟩, _, hright,
    fun cv' hhull => ?_⟩
  · intro r hr
    rw [filterLoop_eq] at hr
    obtain ⟨c, hc, rfl⟩ := List.mem_map.mp hr
    have hw := accepts_width (List.mem_filter.mp hc).2
    refine ⟨divisors_nonzero (by omega), ?_⟩
    rw [intDivisors_eq]
    decide
  · have hazimuth : (azimuthAt (0 + 15) : ℝ) = -27.87890625 := by norm_num [azimuthAt]
    rw [narrowU_published le_rfl (by decide) hhull, hazimuth]
  · have hazimuth : (azimuthAt (609 + 15) : ℝ) = 27.7875 := by norm_num [azimuthAt]
    rw [narrowU_published (by decide) (by decide) hhull, hazimuth]

/-- The bounds at a list with a target, a single point and the outline of the frame. -/
theorem bounds_law_frame :
    PhysicallyBounded (targetsOf boxHull realMath
      [uOutline 100 100 40 30 5, [⟨7, 7⟩], [⟨0, 0⟩, ⟨639, 0⟩, ⟨639, 479⟩, ⟨0, 479⟩]]) :=
  (bounds_law boxHull (by decide)).2.1

end NinjaVision
