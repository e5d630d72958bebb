/-
# NinjaVision.Detector.Rounded — the detector in double arithmetic, where every result is rounded.

Elsewhere the quotients of doubles are read exactly. Here the loops are written with a rounding
after every operation, of any mode (`DoubleRounding`), and compared with the exact ones. On contours
inside the frame the verdict is the same (`acceptsRounded_eq`): the areas are computed without an
error, a ratio of sides is 1 or at least `1 / 480` away from it, and a solidity is 50 or far enough
away as well. The published numbers are off, but so little that the azimuth keeps its sign and that
the columns of every kept box are still read back from them (`rounding_law`).
-/
import NinjaVision.Detector.Readout
import NinjaVision.Lib.HullBounds
import NinjaVision.Lib.Rounding

namespace NinjaVision

open Lib (ExactDouble Rounding)

variable {K : Type*}

/-! ## §1 — the loops, with every result rounded. -/

/-- The roundings to a double: 53 digits, and exponents up to 970 in size, which the format has on
both sides. -/
abbrev DoubleRounding (K : Type*) [Field K] [LinearOrder K] := Rounding K 53 970

section Code

variable [Field K] [LinearOrder K]

/-- `fabs`. -/
def fabs : ExactDouble K → ExactDouble K
  | .finite v => .finite |v|
  | .inf _ => .inf false
  | .nan => .nan

/-- The loop of `contourArea`. -/
def contourAreaLoopRounded (R : DoubleRounding K) (prev : Point) (a00 : ExactDouble K) :
    Contour → ExactDouble K
  | [] => a00
  | p :: ps =>
      contourAreaLoopRounded R p
        (R.fl (a00 +
          R.fl (R.fl (.finite prev.x * .finite p.y) - R.fl (.finite prev.y * .finite p.x)))) ps

/-- `contourArea`, not oriented. -/
def contourAreaRounded (R : DoubleRounding K) : Contour → ExactDouble K
  | [] => .finite 0
  | p :: ps =>
      fabs (R.fl (contourAreaLoopRounded R ((p :: ps).getLast (List.cons_ne_nil p ps)) (.finite 0)
        (p :: ps) / .finite 2.0))

/-- `(double) r.width / (double) r.height`. -/
def aspectRounded (R : DoubleRounding K) (contour : Contour) : ExactDouble K :=
  R.fl (.finite (boundingRect contour).width / .finite (boundingRect contour).height)

/-- `100.0 * area / contourArea(hull)`. -/
def solidityRounded (R : DoubleRounding K) (cv : OpenCV) (contour : Contour) : ExactDouble K :=
  R.fl (R.fl (.finite 100 * contourAreaRounded R contour) /
    contourAreaRounded R (cv.convexHull contour))

/-- `aspect > 1.0 && r.width > 30 && solidity < 50.0`. -/
def acceptsRounded (R : DoubleRounding K) (cv : OpenCV) (contour : Contour) : Bool :=
  decide (.finite 1 < aspectRounded R contour) && decide (30 < (boundingRect contour).width) &&
    decide (solidityRounded R cv contour < .finite 50)

/-- The body of the filter loop. -/
def filterBodyRounded (R : DoubleRounding K) (cv : OpenCV) (acc : Filtered) (contour : Contour) :
    Filtered :=
  if acceptsRounded R cv contour then
    ⟨acc.filteredContours ++ [contour], acc.irRects ++ [boundingRect contour]⟩
  else
    acc

/-- The filter loop. -/
def filterLoopRounded (R : DoubleRounding K) (cv : OpenCV) (contours : List Contour) : Filtered :=
  contours.foldl (filterBodyRounded R cv) ⟨[], []⟩

/-- `tan(46.6 * M_PI/180.0)/2.0`. The literal is rounded when the code is compiled. -/
def divisorRounded (R : DoubleRounding K) (m : CMath K) : ExactDouble K :=
  R.fl (m.tan (R.fl (R.fl (R.fl (.finite 46.6) * m.mPi) / .finite 180.0)) / .finite 2.0)

/-- `((processed.size().width*(10.0/r.width)))/(tan(46.6 * M_PI/180.0)/2.0)`. -/
def distanceRounded (R : DoubleRounding K) (m : CMath K) (r : Rect) : ExactDouble K :=
  R.fl (R.fl (.finite imageCols * R.fl (.finite 10.0 / .finite r.width)) / divisorRounded R m)

/-- `2 * (targetX / processed.size().width) - 1`. -/
def targetXRounded (R : DoubleRounding K) (r : Rect) : ExactDouble K :=
  R.fl (R.fl (.finite (2 : ℕ) * R.fl (.finite (centreColumn r) / .finite imageCols)) - .finite 1)

/-- `targetX*58.5 / 2.0`. -/
def azimuthRounded (R : DoubleRounding K) (r : Rect) : ExactDouble K :=
  R.fl (R.fl (targetXRounded R r * .finite 58.5) / .finite 2.0)

/-- The body of the geometry loop. -/
def geometryBodyRounded (R : DoubleRounding K) (m : CMath K) (acc : Targets K) (r : Rect) :
    Targets K :=
  ⟨acc.distances ++ [distanceRounded R m r], acc.azimuths ++ [azimuthRounded R r]⟩

/-- The geometry loop. -/
def geometryLoopRounded (R : DoubleRounding K) (m : CMath K) (irRects : List Rect) : Targets K :=
  irRects.foldl (geometryBodyRounded R m) ⟨[], []⟩

/-- What a list of contours is published as. -/
def targetsRounded (R : DoubleRounding K) (cv : OpenCV) (m : CMath K) (contours : List Contour) :
    Targets K :=
  geometryLoopRounded R m (filterLoopRounded R cv contours).irRects

end Code

/-! ## §2 — areas are computed exactly. -/

/-- The products behind an area are far below the digits of a double. -/
theorem products_le {p q : Point} (hp : 0 ≤ p.x ∧ p.x < imageCols ∧ 0 ≤ p.y ∧ p.y < imageRows)
    (hq : 0 ≤ q.x ∧ q.x < imageCols ∧ 0 ≤ q.y ∧ q.y < imageRows) :
    0 ≤ p.x * q.y ∧ p.x * q.y ≤ 2 ^ 20 := by
  obtain ⟨hx₀, hx, _, _⟩ := hp
  obtain ⟨_, _, hy₀, hy⟩ := hq
  refine ⟨mul_nonneg hx₀ hy₀, ?_⟩
  calc p.x * q.y ≤ 640 * 480 := mul_le_mul hx.le hy.le hy₀ (by norm_num)
    _ ≤ 2 ^ 20 := by norm_num

section Areas

variable [Field K] [LinearOrder K]

/-- The loop of `contourArea` makes no error: what it adds up are integers that a double holds. -/
theorem contourAreaLoopRounded_eq (R : DoubleRounding K) :
    ∀ {ps : Contour} {prev : Point} {a : ℤ}, InFrame (prev :: ps) →
      |a| + ps.length * 2 ^ 20 ≤ 2 ^ 53 →
      contourAreaLoopRounded R prev (.finite (a : K)) ps
        = .finite ((contourAreaLoop prev a ps : ℤ) : K) ∧
        |contourAreaLoop prev a ps| ≤ 2 ^ 53
  | [], prev, a, _, hroom => by
      refine ⟨rfl, ?_⟩
      show |a| ≤ 2 ^ 53
      simpa using hroom
  | p :: ps, prev, a, hin, hroom => by
      have hprev := hin prev List.mem_cons_self
      have hp := hin p (List.mem_cons_of_mem _ List.mem_cons_self)
      obtain ⟨h₀, h₁⟩ := products_le hprev hp
      obtain ⟨h₀', h₁'⟩ := products_le hp hprev
      rw [mul_comm] at h₀' h₁'
      rw [List.length_cons] at hroom
      push_cast at hroom
      have hstep : |a + (prev.x * p.y - prev.y * p.x)| ≤ |a| + 2 ^ 20 :=
        (abs_add_le _ _).trans (add_le_add_right (abs_le.mpr ⟨by omega, by omega⟩) _)
      have hlength : (0 : ℤ) ≤ ps.length * 2 ^ 20 := by positivity
      have hrest : InFrame (p :: ps) := fun q hq => hin q (List.mem_cons_of_mem _ hq)
      have hroom' : |a + (prev.x * p.y - prev.y * p.x)| + ps.length * 2 ^ 20 ≤ 2 ^ 53 := by linarith
      have hloop := contourAreaLoopRounded_eq R hrest hroom'
      rw [contourAreaLoopRounded, contourAreaLoop, R.fl_mul_int (by rw [abs_of_nonneg h₀]; omega),
        R.fl_mul_int (by rw [abs_of_nonneg h₀']; omega),
        R.fl_sub_int (abs_le.mpr ⟨by omega, by omega⟩),
        R.fl_add_int (hstep.trans (by linarith))]
      exact hloop

/-- **`contourArea` is computed exactly** inside the frame. -/
theorem contourAreaRounded_eq [IsStrictOrderedRing K] (R : DoubleRounding K) {c : Contour}
    (hin : InFrame c) (hlength : c.length < 2 ^ 31) :
    contourAreaRounded R c = .finite (((|Lib.twiceArea c| : ℤ) : K) / 2) := by
  cases c with
  | nil =>
      show ExactDouble.finite (0 : K) = _
      rw [show Lib.twiceArea ([] : Contour) = 0 from rfl, abs_zero, Int.cast_zero, zero_div]
  | cons p ps =>
      have hlast : (p :: ps).getLast (by simp) ∈ p :: ps := List.getLast_mem _
      have hroom : |(0 : ℤ)| + ((p :: ps).length : ℤ) * 2 ^ 20 ≤ 2 ^ 53 := by
        rw [abs_zero]
        omega
      have hframe : InFrame ((p :: ps).getLast (by simp) :: p :: ps) := fun q hq => by
        rcases List.mem_cons.mp hq with rfl | hq
        · exact hin _ hlast
        · exact hin q hq
      obtain ⟨hloop, hbound⟩ := contourAreaLoopRounded_eq R hframe hroom
      have harea : contourAreaLoop ((p :: ps).getLast (by simp)) 0 (p :: ps)
          = Lib.twiceArea (p :: ps) := by
        rw [contourAreaLoop_eq, zero_add, Lib.chainSum_getLast]
        rfl
      rw [harea] at hloop hbound
      rw [Int.cast_zero] at hloop
      have hhalf : R.round ((Lib.twiceArea (p :: ps) : ℤ) / 2)
          = ((Lib.twiceArea (p :: ps) : ℤ) : K) / 2 := by
        have hdyadic := R.round_dyadic (k := 1) hbound (by norm_num)
        rwa [pow_one] at hdyadic
      have htwo : (2.0 : K) = 2 := by norm_num
      rw [contourAreaRounded, hloop, htwo, ExactDouble.div_finite _ two_ne_zero, Rounding.fl_finite,
        hhalf, fabs, abs_div, abs_two, Int.cast_abs]

end Areas

/-! ## §3 — the verdict. -/

/-- The box of a contour inside the frame has its rows inside the frame. -/
theorem InFrame.boxRows {c : Contour} (hin : InFrame c) (hc : c ≠ []) :
    (boundingRect c).height ≤ imageRows := by
  have hbox := boundingRect_pixelBox hc
  obtain ⟨p, hp, htop⟩ := hbox.top.1
  obtain ⟨q, hq, hbottom⟩ := hbox.bottom.1
  have hpin := hin p hp
  have hqin := hin q hq
  omega

/-- The hull is listed with vertices of the contour, each once. -/
theorem HullAt.sublist {cv : OpenCV} {c : Contour} (h : HullAt cv c) :
    (∀ p ∈ cv.convexHull c, p ∈ c) ∧ (cv.convexHull c).length ≤ c.length := by
  have hcycle : ∀ H, Lib.HullCycle (points c) H → (∀ p ∈ H, p ∈ c) ∧ H.length ≤ c.length := by
    intro H hH
    have hmem : ∀ p ∈ H, p ∈ c := fun p hp =>
      (Lib.cycle_neighbours hH.edges hp).1.choose_spec.2.source_mem
    exact ⟨hmem, (hH.nodup.subperm hmem).length_le⟩
  rcases h with h | h
  · exact hcycle _ h
  · obtain ⟨hmem, hlength⟩ := hcycle _ h
    exact ⟨fun p hp => hmem p (List.mem_reverse.mpr hp), by rwa [List.length_reverse] at hlength⟩

/-- The area of a hull inside the frame. -/
theorem hullArea_le_frame {cv : OpenCV} {c : Contour} (hin : InFrame c) (hhull : HullAt cv c) :
    |Lib.twiceArea (cv.convexHull c)| ≤ 2 ^ 20 := by
  have hbox : ∀ p ∈ points c, 0 ≤ p.x ∧ p.x ≤ 639 ∧ 0 ≤ p.y ∧ p.y ≤ 479 := by
    intro p hp
    obtain ⟨hx₀, hx, hy₀, hy⟩ := hin p hp
    change p.x < 640 at hx
    change p.y < 480 at hy
    omega
  have harea := Lib.IsHull.abs_twiceArea_le hhull (by norm_num) (by norm_num) hbox
  exact harea.trans (by norm_num)

section Verdict

variable [Field K] [LinearOrder K] [IsStrictOrderedRing K]

/-- The aspect test is exact: a ratio above 1 is above by `1 / 480` at least, which no rounding
removes. -/
theorem lt_aspectRounded_iff (R : DoubleRounding K) {c : Contour} (hc : c ≠ []) (hin : InFrame c) :
    .finite 1 < aspectRounded R c ↔ (boundingRect c).height < (boundingRect c).width := by
  have hh := (boundingRect_pixelBox hc).height_pos
  have hrows : (boundingRect c).height ≤ 480 := hin.boxRows hc
  generalize hwidth : (boundingRect c).width = width at *
  generalize hheight : (boundingRect c).height = height at *
  have hpos : (0 : K) < height := by exact_mod_cast hh
  have hquot : aspectRounded R c = .finite (R.round (width / height)) := by
    rw [aspectRounded, hwidth, hheight, ExactDouble.div_finite _ hpos.ne', Rounding.fl_finite]
  rw [hquot, ExactDouble.finite_lt_finite]
  constructor
  · intro hlt
    by_contra! hle
    have hone : R.round 1 = 1 := by exact_mod_cast R.round_int (n := 1) (by norm_num)
    have hratio : (width / height : K) ≤ 1 := by
      rw [div_le_one hpos]
      exact_mod_cast hle
    exact absurd (R.round_le hone hratio) (not_le.mpr hlt)
  · intro hlt
    have hbound : R.round (513 / 512 : K) = 513 / 512 := by
      have hdyadic := R.round_dyadic (n := 513) (k := 9) (by norm_num) (by norm_num)
      norm_num at hdyadic ⊢
      exact hdyadic
    have hratio : (513 / 512 : K) ≤ width / height := by
      rw [div_le_div_iff₀ (by norm_num) hpos]
      have hint : 513 * height ≤ width * 512 := by omega
      exact_mod_cast hint
    have hround := R.le_round hbound hratio
    linarith

/-- The solidity test is exact: a solidity below 50 is below by far more than what is rounded
off. -/
theorem solidityRounded_lt_iff (R : DoubleRounding K) {cv : OpenCV} {c : Contour} (hin : InFrame c)
    (hlength : c.length < 2 ^ 31) (hhull : HullAt cv c) :
    solidityRounded R cv c < .finite 50
      ↔ 2 * |Lib.twiceArea c| < |Lib.twiceArea (cv.convexHull c)| := by
  obtain ⟨hmem, hshort⟩ := hhull.sublist
  have hhullArea :=
    contourAreaRounded_eq R (fun p hp => hin p (hmem p hp)) (hshort.trans_lt hlength)
  have hsmall := hullArea_le_frame hin hhull
  have harea₀ := abs_nonneg (Lib.twiceArea c)
  have hhull₀ := abs_nonneg (Lib.twiceArea (cv.convexHull c))
  rw [solidityRounded, contourAreaRounded_eq R hin hlength, hhullArea, ExactDouble.mul_finite,
    Rounding.fl_finite]
  generalize |Lib.twiceArea c| = area at *
  generalize |Lib.twiceArea (cv.convexHull c)| = hullArea at *
  have hhundred : (100 * (area / 2) : K) = ((50 * area : ℤ) : K) := by
    push_cast
    ring
  rw [hhundred]
  have harea : (0 : K) ≤ ((50 * area : ℤ) : K) := by exact_mod_cast (by omega : 0 ≤ 50 * area)
  have hround : 0 ≤ R.round ((50 * area : ℤ) : K) := R.le_round R.round_zero harea
  rcases hhull₀.eq_or_lt with rfl | hpos
  · -- without a hull area the quotient is NaN or infinite, rounded or not
    refine iff_of_false ?_ (by omega)
    rw [Int.cast_zero, zero_div]
    rcases hround.eq_or_lt with hzero | hpositive
    · rw [← hzero, ExactDouble.zero_div_zero, Rounding.fl_nan]
      exact ExactDouble.not_nan_lt _
    · rw [ExactDouble.div_zero_of_pos hpositive, Rounding.fl_inf]
      exact ExactDouble.not_posInf_lt_finite _
  · have hpos' : (0 : K) < hullArea := by exact_mod_cast hpos
    have hhalf : (0 : K) < hullArea / 2 := by linarith
    rw [ExactDouble.div_finite _ hhalf.ne', Rounding.fl_finite, ExactDouble.finite_lt_finite]
    constructor
    · intro hlt
      by_contra! hle
      -- at 50 or above, both roundings stay there
      have hnumerator : ((25 * hullArea : ℤ) : K) ≤ R.round ((50 * area : ℤ) : K) := by
        refine R.le_round (R.round_int (abs_le.mpr ⟨by omega, by omega⟩)) ?_
        exact_mod_cast (by omega : 25 * hullArea ≤ 50 * area)
      have hfifty : R.round (50 : K) = 50 := by exact_mod_cast R.round_int (n := 50) (by norm_num)
      have hquot : (50 : K) ≤ R.round ((50 * area : ℤ) : K) / (hullArea / 2) := by
        have htwentyfive : ((25 * hullArea : ℤ) : K) = 25 * hullArea := by push_cast; rfl
        rw [le_div_iff₀ hhalf]
        linarith
      exact absurd (R.le_round hfifty hquot) (not_le.mpr hlt)
    · intro hlt
      have hexact : R.round ((50 * area : ℤ) : K) = ((50 * area : ℤ) : K) :=
        R.round_int (abs_le.mpr ⟨by omega, by omega⟩)
      have hbound : R.round (1638399 / 32768 : K) = 1638399 / 32768 := by
        have hdyadic := R.round_dyadic (n := 1638399) (k := 15) (by norm_num) (by norm_num)
        norm_num at hdyadic ⊢
        exact hdyadic
      have hquot : ((50 * area : ℤ) : K) / (hullArea / 2) ≤ 1638399 / 32768 := by
        rw [div_le_div_iff₀ hhalf (by norm_num)]
        have hint : 50 * area * 65536 ≤ 1638399 * hullArea := by omega
        have hcast : ((50 * area * 65536 : ℤ) : K) ≤ ((1638399 * hullArea : ℤ) : K) := by
          exact_mod_cast hint
        push_cast at hcast ⊢
        linarith
      rw [hexact]
      have hrounded := R.round_le hbound hquot
      have hfifty : (1638399 / 32768 : K) < 50 := by norm_num
      exact hrounded.trans_lt hfifty

/-- **The verdict is the exact one** on every contour inside the frame. -/
theorem acceptsRounded_eq (R : DoubleRounding K) {cv : OpenCV} {c : Contour} (hin : InFrame c)
    (hlength : c.length < 2 ^ 31) (hhull : HullAt cv c) : acceptsRounded R cv c = accepts cv c := by
  by_cases hc : c = []
  · subst hc
    have haspect : aspectRounded R [] = .nan := by
      show R.fl (ExactDouble.finite ((0 : ℤ) : K) / ExactDouble.finite ((0 : ℤ) : K)) = _
      rw [Int.cast_zero, ExactDouble.zero_div_zero, Rounding.fl_nan]
    rw [accepts_nil]
    simp [acceptsRounded, haspect]
  · rw [Bool.eq_iff_iff, accepts_iff_twiceArea]
    simp only [acceptsRounded, Bool.and_eq_true, decide_eq_true_eq, lt_aspectRounded_iff R hc hin,
      solidityRounded_lt_iff R hin hlength hhull, and_assoc]

end Verdict

/-! ## §4 — the published numbers. -/

section Published

variable [Field K] [LinearOrder K] [IsStrictOrderedRing K] [FloorRing K]

omit [FloorRing K] in
/-- The five roundings on the way to an azimuth. -/
theorem azimuthRounded_eq (R : DoubleRounding K) (r : Rect) : azimuthRounded R r = .finite
    (R.round
      (R.round (R.round (R.round (2 * R.round (centreColumn r / 640)) - 1) * (117 / 2)) / 2)) := by
  have hcols : ((imageCols : ℕ) : K) = 640 := by norm_num
  have hint : ((2 : ℕ) : K) = 2 := by norm_num
  have htwo : (2.0 : K) = 2 := by norm_num
  have hfov : (58.5 : K) = 117 / 2 := by norm_num
  have hdivisor : (640 : K) ≠ 0 := by norm_num
  simp only [azimuthRounded, targetXRounded, hcols, hint, htwo, hfov,
    ExactDouble.div_finite _ hdivisor, ExactDouble.div_finite _ (two_ne_zero' K),
    ExactDouble.mul_finite, ExactDouble.sub_finite, Rounding.fl_finite]

/-- The numbers on the way to an azimuth are up to 256. -/
theorem azimuthRounded_near (R : DoubleRounding K) {r : Rect} (hleft : 0 ≤ centreColumn r)
    (hright : centreColumn r ≤ imageCols) :
    ∃ a, azimuthRounded R r = .finite a ∧ |a - azimuthAt (centreColumn r)| ≤ 1 / 2 ^ 43 := by
  have hleft' : (0 : K) ≤ centreColumn r := by exact_mod_cast hleft
  have hright' : (centreColumn r : K) ≤ 640 := by exact_mod_cast hright
  refine ⟨_, azimuthRounded_eq R r, ?_⟩
  unfold azimuthAt
  generalize (centreColumn r : K) = column at *
  set y₁ := R.round (column / 640) with hy₁
  set y₂ := R.round (2 * y₁) with hy₂
  set y₃ := R.round (y₂ - 1) with hy₃
  set y₄ := R.round (y₃ * (117 / 2)) with hy₄
  have h₁ :=
    R.round_near (k := 0) (x := column / 640) (by norm_num) (by norm_num) (by linarith)
      (by linarith)
  rw [← hy₁] at h₁
  norm_num at h₁
  have h₂ :=
    R.round_near (k := 2) (x := 2 * y₁) (by norm_num) (by norm_num) (by linarith) (by linarith)
  rw [← hy₂] at h₂
  norm_num at h₂
  have h₃ :=
    R.round_near (k := 2) (x := y₂ - 1) (by norm_num) (by norm_num) (by linarith) (by linarith)
  rw [← hy₃] at h₃
  norm_num at h₃
  have h₄ :=
    R.round_near (k := 8) (x := y₃ * (117 / 2)) (by norm_num) (by norm_num) (by linarith)
      (by linarith)
  rw [← hy₄] at h₄
  norm_num at h₄
  have h₅ :=
    R.round_near (k := 8) (x := y₄ / 2) (by norm_num) (by norm_num) (by linarith) (by linarith)
  norm_num at h₅ ⊢
  rw [abs_le]
  constructor <;> linarith

omit [FloorRing K] in
/-- Straight ahead nothing is rounded off. -/
theorem azimuthRounded_centre (R : DoubleRounding K) {r : Rect} (h : centreColumn r = 320) :
    azimuthRounded R r = .finite 0 := by
  have hhalf : R.round (((320 : ℤ) : K) / 640) = 1 / 2 := by
    have hdyadic := R.round_dyadic (n := 1) (k := 1) (by norm_num) (by norm_num)
    norm_num at hdyadic ⊢
    exact hdyadic
  have hone : R.round (1 : K) = 1 := by exact_mod_cast R.round_int (n := 1) (by norm_num)
  have hdouble : (2 : K) * (1 / 2) = 1 := by norm_num
  rw [azimuthRounded_eq, h, hhalf, hdouble, hone, sub_self, R.round_zero, zero_mul, R.round_zero,
    zero_div, R.round_zero]

/-- **A published azimuth** is within `2 ^ -43` degrees of the exact one, and on the same side. -/
theorem azimuthRounded_spec (R : DoubleRounding K) {r : Rect} (hleft : 0 ≤ centreColumn r)
    (hright : centreColumn r ≤ imageCols) :
    ∃ a, azimuthRounded R r = .finite a ∧ |a - azimuthAt (centreColumn r)| ≤ 1 / 2 ^ 43 ∧
      (0 < a ↔ 320 < centreColumn r) ∧ (a < 0 ↔ centreColumn r < 320) := by
  obtain ⟨a, ha, hnear⟩ := azimuthRounded_near R hleft hright
  refine ⟨a, ha, hnear, ?_⟩
  obtain ⟨hmin, hmax⟩ := abs_le.mp hnear
  unfold azimuthAt at hmin hmax
  norm_num at hmin hmax
  rcases lt_trichotomy (centreColumn r) 320 with hlt | heq | hgt
  · have hcolumn : (centreColumn r : K) ≤ 319 := by exact_mod_cast (by omega : centreColumn r ≤ 319)
    have hneg : a < 0 := by linarith
    exact ⟨iff_of_false (not_lt.mpr hneg.le) (by omega), iff_of_true hneg hlt⟩
  · have hzero : a = 0 := ExactDouble.finite.inj (ha.symm.trans (azimuthRounded_centre R heq))
    exact ⟨iff_of_false hzero.not_gt (by omega), iff_of_false hzero.not_lt (by omega)⟩
  · have hcolumn : (321 : K) ≤ centreColumn r := by exact_mod_cast (by omega : 321 ≤ centreColumn r)
    have hpos : 0 < a := by linarith
    exact ⟨iff_of_true hpos hgt, iff_of_false (not_lt.mpr hpos.le) (by omega)⟩

/-- The divisor of the distances is computed as `T`, between a half and one; half the tangent of
46.6 degrees is 0.53. -/
structure DivisorIs (R : DoubleRounding K) (m : CMath K) (T : K) : Prop where
  value : divisorRounded R m = .finite T
  low : 1 / 2 ≤ T
  high : T ≤ 1

/-- **A published distance** is within `2 ^ -41` of the quotient that it stands for. -/
theorem distanceRounded_spec (R : DoubleRounding K) {m : CMath K} {T : K} (hT : DivisorIs R m T)
    {r : Rect} (hw : 30 < r.width) :
    ∃ d, distanceRounded R m r = .finite d ∧ |d - 6400 / (T * r.width)| ≤ 1 / 2 ^ 41 := by
  have hwidth : (31 : K) ≤ r.width := by exact_mod_cast (by omega : 31 ≤ r.width)
  have hlow := hT.low
  have hpos : 0 < T := by linarith
  have hwpos : (0 : K) < r.width := by linarith
  rw [distanceRounded, hT.value, ExactDouble.div_finite _ hwpos.ne', Rounding.fl_finite,
    ExactDouble.mul_finite, Rounding.fl_finite, ExactDouble.div_finite _ hpos.ne',
    Rounding.fl_finite]
  refine ⟨_, rfl, ?_⟩
  have hten : (10.0 / r.width : K) = 10 / r.width := by norm_num
  have hcols : ((imageCols : ℕ) : K) = 640 := by norm_num
  have hexact : 6400 / (T * r.width) = 640 * (10 / r.width) / T := by
    field_simp
    norm_num
  rw [hten, hcols, hexact]
  have hquot₀ : (0 : K) ≤ 10 / r.width := by positivity
  have hquot : (10 / r.width : K) ≤ 10 / 31 :=
    div_le_div_of_nonneg_left (by norm_num) (by norm_num) hwidth
  generalize (10 / r.width : K) = quot at *
  set d₁ := R.round quot with hd₁
  set d₂ := R.round (640 * d₁) with hd₂
  have h₁ :=
    R.round_near (k := 0) (x := quot) (by norm_num) (by norm_num) (by linarith) (by linarith)
  rw [← hd₁] at h₁
  norm_num at h₁
  have h₂ :=
    R.round_near (k := 8) (x := 640 * d₁) (by norm_num) (by norm_num) (by linarith) (by linarith)
  rw [← hd₂] at h₂
  norm_num at h₂
  -- dividing by `T` at most doubles the error so far
  have hlow₂ : -1 ≤ d₂ := by linarith
  have hhigh₂ : d₂ ≤ 250 := by linarith
  have hquotLow : -2 ≤ d₂ / T := by rw [le_div_iff₀ hpos]; linarith
  have hquotHigh : d₂ / T ≤ 500 := by rw [div_le_iff₀ hpos]; linarith
  have h₃ :=
    R.round_near (k := 9) (x := d₂ / T) (by norm_num) (by norm_num) (by linarith) (by linarith)
  norm_num at h₃
  have herror : |d₂ / T - 640 * quot / T| ≤ 1 / 2 ^ 42 := by
    rw [← sub_div, abs_div, abs_of_pos hpos, div_le_iff₀ hpos, abs_le]
    norm_num
    constructor <;> linarith
  obtain ⟨hmin, hmax⟩ := abs_le.mp herror
  norm_num at hmin hmax ⊢
  rw [abs_le]
  constructor <;> linarith

/-- **The columns are read back** from the two rounded numbers. -/
theorem spanNearest_published (R : DoubleRounding K) {m : CMath K} {T : K} (hT : DivisorIs R m T)
    {r : Rect} (hw : 30 < r.width) (hmax : r.width ≤ imageCols) (hleft : 0 ≤ centreColumn r)
    (hright : centreColumn r ≤ imageCols) :
    spanNearest T (distanceRounded R m r) (azimuthRounded R r) = columnSpan r := by
  obtain ⟨a, ha, hnear, _⟩ := azimuthRounded_spec R hleft hright
  obtain ⟨d, hd, herror⟩ := distanceRounded_spec R hT hw
  have hlow := hT.low
  have hhigh := hT.high
  have hpos : 0 < T := by linarith
  have hwmin : (31 : K) ≤ r.width := by exact_mod_cast (by omega : 31 ≤ r.width)
  have hwmax : (r.width : K) ≤ 640 := by exact_mod_cast hmax
  have hcolumn : ⌊(a + 29.25) * (imageCols : ℕ) / 58.5 + 0.5⌋ = centreColumn r := by
    obtain ⟨hlow, hhigh⟩ := abs_le.mp hnear
    unfold azimuthAt at hlow hhigh
    rw [Int.floor_eq_iff]
    norm_num at hlow hhigh ⊢
    constructor <;> linarith
  have hproduct : 0 < T * r.width := mul_pos hpos (by linarith)
  obtain ⟨hmin, hmax'⟩ := abs_le.mp herror
  set exact := 6400 / (T * r.width) with hexact
  have hsixty : T * r.width * exact = 6400 := mul_div_cancel₀ _ hproduct.ne'
  have hten : 10 ≤ exact := by
    rw [hexact, le_div_iff₀ hproduct]
    have hle : T * r.width ≤ 1 * 640 := mul_le_mul hhigh hwmax (by linarith) (by norm_num)
    linarith
  have hdpos : 9 ≤ d := by norm_num at hmin; linarith
  have hTd : 0 < T * d := mul_pos hpos (by linarith)
  -- the width times the error is far below half the distance
  have hroom : T * (r.width * (1 / 2 ^ 41)) ≤ T * (d / 4) := by
    refine mul_le_mul_of_nonneg_left ?_ hpos.le
    norm_num
    linarith
  have hupper : T * r.width * d ≤ T * r.width * (exact + 1 / 2 ^ 41) :=
    mul_le_mul_of_nonneg_left (by linarith) hproduct.le
  have hlower : T * r.width * (exact - 1 / 2 ^ 41) ≤ T * r.width * d :=
    mul_le_mul_of_nonneg_left (by linarith) hproduct.le
  have hwidth : ⌊6400 / (T * d) + 0.5⌋ = r.width := by
    have hbelow : (r.width - 1 / 2 : K) ≤ 6400 / (T * d) := by
      rw [le_div_iff₀ hTd]
      linarith
    have habove : 6400 / (T * d) < (r.width + 1 / 2 : K) := by
      rw [div_lt_iff₀ hTd]
      linarith
    rw [Int.floor_eq_iff]
    constructor <;> linarith
  rw [ha, hd]
  show (_, _) = (r.x, r.width)
  rw [hcolumn, hwidth, centreColumn_eq (by omega), add_sub_cancel_right]

end Published

/-! ## §5 — both loops. -/

/-- A contour that `findContours` can list in a frame, with its hull: to OpenCV its length is an
`int`. -/
structure Listed (cv : OpenCV) (c : Contour) : Prop where
  inFrame : InFrame c
  length : c.length < 2 ^ 31
  hull : HullAt cv c

section Laws

variable [Field K] [LinearOrder K] [IsStrictOrderedRing K]

/-- The filter loop keeps what the exact one keeps. -/
theorem filterLoopRounded_eq (R : DoubleRounding K) {cv : OpenCV} {contours : List Contour}
    (h : ∀ c ∈ contours, Listed cv c) :
    filterLoopRounded R cv contours = filterLoop cv contours := by
  have hloop : ∀ acc, contours.foldl (filterBodyRounded R cv) acc
      = contours.foldl (filterBody cv) acc := by
    induction contours with
    | nil => exact fun _ => rfl
    | cons c cs ih =>
        intro acc
        have hc := h c List.mem_cons_self
        have hbody : filterBodyRounded R cv acc c = filterBody cv acc c := by
          rw [filterBodyRounded, filterBody, acceptsRounded_eq R hc.inFrame hc.length hc.hull]
        rw [List.foldl_cons, List.foldl_cons, hbody]
        exact ih (fun c hc => h c (List.mem_cons_of_mem _ hc)) _
  exact hloop _

omit [IsStrictOrderedRing K] in
theorem foldl_geometryBodyRounded (R : DoubleRounding K) (m : CMath K) (acc : Targets K)
    (rs : List Rect) :
    rs.foldl (geometryBodyRounded R m) acc =
      ⟨acc.distances ++ rs.map (distanceRounded R m),
        acc.azimuths ++ rs.map (azimuthRounded R)⟩ := by
  induction rs generalizing acc with
  | nil => simp
  | cons r rs ih =>
      rw [List.foldl_cons, ih]
      simp [geometryBodyRounded]

omit [IsStrictOrderedRing K] in
theorem geometryLoopRounded_eq (R : DoubleRounding K) (m : CMath K) (rs : List Rect) :
    geometryLoopRounded R m rs = ⟨rs.map (distanceRounded R m), rs.map (azimuthRounded R)⟩ := by
  rw [geometryLoopRounded, foldl_geometryBodyRounded]
  simp

/-- The rectangles of accepted contours inside the frame. -/
theorem irRects_inFrame (cv : OpenCV) {contours : List Contour} (h : ∀ c ∈ contours, InFrame c) :
    ∀ r ∈ (filterLoop cv contours).irRects, 30 < r.width ∧ r.width ≤ imageCols ∧
      0 ≤ centreColumn r ∧
      centreColumn r ≤ imageCols := by
  intro r hr
  rw [filterLoop_eq] at hr
  obtain ⟨c, hc, rfl⟩ := List.mem_map.mp hr
  obtain ⟨hc, hacc⟩ := List.mem_filter.mp hc
  obtain ⟨hw, hmax, hleft, hright⟩ := accepted_box hacc (h c hc)
  refine ⟨hw, hmax, by omega, hright.trans ?_⟩
  show (624 : ℤ) ≤ 640
  norm_num

/-- **The rounding law.** In any rounding mode, on every list of contours inside the frame: the
filter loop keeps what the exact one keeps, with the same rectangles. Of every kept rectangle, in
order, the published distance is within `2 ^ -41` of the exact quotient by the computed divisor, the
published azimuth is within `2 ^ -43` degrees of the exact one and on the same side of zero, and the
columns of the rectangle are read back from the two. -/
theorem rounding_law [FloorRing K] (R : DoubleRounding K) {cv : OpenCV} {contours : List Contour}
    (h : ∀ c ∈ contours, Listed cv c) {m : CMath K} {T : K} (hT : DivisorIs R m T) :
    filterLoopRounded R cv contours = filterLoop cv contours ∧
    List.Forall₂ (fun r d => ∃ v, d = .finite v ∧ |v - 6400 / (T * r.width)| ≤ 1 / 2 ^ 41)
      (filterLoop cv contours).irRects (targetsRounded R cv m contours).distances ∧
    List.Forall₂ (fun r a => ∃ v, a = .finite v ∧ |v - azimuthAt (centreColumn r)| ≤ 1 / 2 ^ 43 ∧
        (0 < v ↔ 320 < centreColumn r) ∧ (v < 0 ↔ centreColumn r < 320))
      (filterLoop cv contours).irRects (targetsRounded R cv m contours).azimuths ∧
    List.zipWith (spanNearest T) (targetsRounded R cv m contours).distances
      (targetsRounded R cv m contours).azimuths
      = (filterLoop cv contours).irRects.map columnSpan := by
  have hfilter := filterLoopRounded_eq R h
  have hin : ∀ c ∈ contours, InFrame c := fun c hc => (h c hc).inFrame
  have hrects := irRects_inFrame cv hin
  rw [targetsRounded, hfilter, geometryLoopRounded_eq]
  refine ⟨rfl, ?_, ?_, ?_⟩
  · rw [List.forall₂_map_right_iff, List.forall₂_same]
    intro r hr
    exact distanceRounded_spec R hT (hrects r hr).1
  · rw [List.forall₂_map_right_iff, List.forall₂_same]
    intro r hr
    obtain ⟨_, _, hleft, hright⟩ := hrects r hr
    exact azimuthRounded_spec R hleft hright
  · rw [List.zipWith_map, List.zipWith_self]
    refine List.map_congr_left fun r hr => ?_
    obtain ⟨hw, hmax, hleft, hright⟩ := hrects r hr
    exact spanNearest_published R hT hw hmax hleft hright

end Laws

/-! ## §6 — a library with correctly rounded functions. -/

/-- `π` and `tan` of the reals, rounded. -/
noncomputable def roundedMath (R : DoubleRounding ℝ) : CMath ℝ where
  mPi := .finite (R.round Real.pi)
  tan
    | .finite x => .finite (R.round (Real.tan x))
    | _ => .nan

/-- The argument of the tangent is between `π / 4` and `π / 3`, so the divisor is between a half and
one. -/
theorem roundedMath_divisor (R : DoubleRounding ℝ) : ∃ T, DivisorIs R (roundedMath R) T := by
  have hpiLow := Real.pi_gt_d2
  have hpiHigh := Real.pi_lt_d2
  have hdegrees :=
    R.round_between (x := 46.6) 93 94 1 (by norm_num) (by norm_num) (by norm_num) (by norm_num)
    (by norm_num)
  norm_num at hdegrees
  have hpi := R.round_between (x := Real.pi) 25 26 3 (by norm_num) (by norm_num) (by norm_num)
    (by norm_num; linarith) (by norm_num; linarith)
  norm_num at hpi
  have hvalue : divisorRounded R (roundedMath R) = .finite (R.round
      (R.round (Real.tan (R.round (R.round (R.round 46.6 * R.round Real.pi) / 180.0))) / 2.0)) := by
    have h180 : (180.0 : ℝ) ≠ 0 := by norm_num
    have htwo : (2.0 : ℝ) ≠ 0 := by norm_num
    simp only [divisorRounded, roundedMath, Rounding.fl_finite, ExactDouble.mul_finite,
      ExactDouble.div_finite _ h180, ExactDouble.div_finite _ htwo]
  norm_num at hvalue
  set degrees := R.round (233 / 5)
  set pi := R.round Real.pi
  have hproduct :=
    R.round_between (x := degrees * pi) 145 153 0 (by norm_num) (by norm_num) (by norm_num)
    (by norm_num; nlinarith) (by norm_num; nlinarith)
  norm_num at hproduct
  have hargument :=
    R.round_between (x := R.round (degrees * pi) / 180) 51 56 6 (by norm_num) (by norm_num)
    (by norm_num) (by norm_num; linarith) (by norm_num; linarith)
  norm_num at hargument
  set argument := R.round (R.round (degrees * pi) / 180)
  have htanLow : 1 < Real.tan argument := by
    rw [← Real.tan_pi_div_four]
    exact Real.tan_lt_tan_of_lt_of_lt_pi_div_two (by linarith) (by linarith) (by linarith)
  have htanHigh : Real.tan argument < 2 := by
    have hthird : Real.tan argument < Real.tan (Real.pi / 3) :=
      Real.tan_lt_tan_of_lt_of_lt_pi_div_two (by linarith) (by linarith) (by linarith)
    rw [Real.tan_pi_div_three] at hthird
    exact hthird.trans ((Real.sqrt_lt' two_pos).mpr (by norm_num))
  have htan :=
    R.round_between (x := Real.tan argument) 1 2 0 (by norm_num) (by norm_num) (by norm_num)
    (by norm_num; linarith) (by norm_num; linarith)
  norm_num at htan
  have hdivisor :=
    R.round_between (x := R.round (Real.tan argument) / 2) 1 2 1 (by norm_num) (by norm_num)
    (by norm_num) (by norm_num; linarith) (by norm_num; linarith)
  norm_num at hdivisor
  exact ⟨_, hvalue, hdivisor.1, hdivisor.2⟩

/-- The law in the mode that rounds down, at a U-shaped outline. -/
theorem rounding_law_outline : ∃ T : ℝ,
    List.zipWith (spanNearest T)
        (targetsRounded (Lib.towardNegative 52 970) boxHull
          (roundedMath (Lib.towardNegative 52 970))
          [uOutline 100 100 40 30 5]).distances
        (targetsRounded (Lib.towardNegative 52 970) boxHull
          (roundedMath (Lib.towardNegative 52 970))
          [uOutline 100 100 40 30 5]).azimuths
      = [(100, 41)] := by
  obtain ⟨T, hT⟩ := roundedMath_divisor (Lib.towardNegative 52 970)
  have hlisted : ∀ c ∈ [uOutline 100 100 40 30 5], Listed boxHull c := by
    intro c hc
    obtain rfl := List.mem_singleton.mp hc
    exact ⟨by decide, by decide, hullAt_boxHull (by decide)⟩
  have hkept : (filterLoop boxHull [uOutline 100 100 40 30 5]).irRects.map columnSpan
      = [(100, 41)] := by
    rw [filterLoop_eq, List.filter_cons_of_pos outline_accepted]
    decide
  exact ⟨T, (rounding_law (Lib.towardNegative 52 970) hlisted hT).2.2.2.trans hkept⟩

end NinjaVision
