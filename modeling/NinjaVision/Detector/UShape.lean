/-
# NinjaVision.Detector.UShape — what the detector does with a U, of any size.

The U of outer width `W`, height `H` and stroke `t` has the area `t * (W + 2 * H - 2 * t)`, and its
hull is its box, of area `W * H`. These are polygon areas: the box that `boundingRect` returns
counts pixels and is one wider and one higher. `u_law` puts the two together: which of these
outlines are accepted, and at which azimuth and distance they are published.

The outline may be listed from any vertex and in either direction, and it may stand upside down in
its box (`IsU`). None of this changes its box, its corners or the amount of its area (`IsU.shape`),
and the decision on a contour that reaches the corners of its box reads nothing else
(`accepts_iff_of_corners`). The strokes may touch (`2 * t = W`) or fill the box (`t = H`): the
outline then runs along itself, and is rejected.
-/
import NinjaVision.Detector.Pinhole
import NinjaVision.Detector.Symmetry

namespace NinjaVision

open Lib (ExactDouble)

/-! ## §1 — contours that reach the corners of their box. -/

/-- The corners are pixels of the box, so the area between them is that of its extents. -/
theorem twiceArea_cornersOf (r : Rect) :
    Lib.twiceArea (cornersOf r) = 2 * ((r.width - 1) * (r.height - 1)) := by
  simp only [cornersOf, Lib.twiceArea, Lib.cycleSum_cons, List.cons_append, List.nil_append,
    Lib.chainSum_cons, Lib.chainSum_nil, Lib.det]
  ring

/-- **The decision on a contour that reaches the corners of its box**: its hull has the area of the
box. -/
theorem accepts_iff_of_corners {cv : OpenCV} {c : Contour} (h : ReachesCorners c)
    (hhull : HullAt cv c) :
    accepts cv c = true ↔ (boundingRect c).height < (boundingRect c).width ∧
      30 < (boundingRect c).width ∧
      |Lib.twiceArea c| < ((boundingRect c).width - 1) * ((boundingRect c).height - 1) := by
  have hbox : 0 < ((boundingRect c).width - 1) * ((boundingRect c).height - 1) := by
    apply mul_pos
    · exact sub_pos.mpr h.1.1
    · exact sub_pos.mpr h.1.2
  have harea : |Lib.twiceArea (cv.convexHull c)|
      = 2 * (((boundingRect c).width - 1) * ((boundingRect c).height - 1)) := by
    unfold HullAt at hhull
    rw [hhull.abs_twiceArea_eq (isHull_corners h), twiceArea_cornersOf, abs_of_pos (by omega)]
  rw [accepts_iff_twiceArea, harea]
  refine and_congr_right fun _ => and_congr_right fun _ => ?_
  constructor
  · intro h; omega
  · intro h; omega

/-- A point set between two of its points, the one with the least and the one with the greatest
coordinates. -/
theorem PixelBox.of_corners {S : Set Point} {x₀ y₀ W H : ℤ} (hfirst : ⟨x₀, y₀⟩ ∈ S)
    (hlast : ⟨x₀ + W, y₀ + H⟩ ∈ S)
    (hbox : ∀ p ∈ S, x₀ ≤ p.x ∧ p.x ≤ x₀ + W ∧ y₀ ≤ p.y ∧ p.y ≤ y₀ + H) :
    PixelBox S ⟨x₀, y₀, W + 1, H + 1⟩ := by
  have hright : ∀ a b : ℤ, a + (b + 1) - 1 = a + b := fun a b => by ring
  refine ⟨⟨⟨_, hfirst, rfl⟩, ?_⟩, ?_, ⟨⟨_, hfirst, rfl⟩, ?_⟩, ?_⟩
  · rintro _ ⟨p, hp, rfl⟩
    exact (hbox p hp).1
  · rw [hright]
    refine ⟨⟨_, hlast, rfl⟩, ?_⟩
    rintro _ ⟨p, hp, rfl⟩
    exact (hbox p hp).2.1
  · rintro _ ⟨p, hp, rfl⟩
    exact (hbox p hp).2.2.1
  · rw [hright]
    refine ⟨⟨_, hlast, rfl⟩, ?_⟩
    rintro _ ⟨p, hp, rfl⟩
    exact (hbox p hp).2.2.2

/-! ## §2 — the outline. -/

/-- The contour reflected in a horizontal axis. -/
def upsideDown (m : ℤ) (c : Contour) : Contour := c.map (Lib.flipRows m)

/-- A listing of the U from any vertex, in either direction, upright or upside down in its box. -/
def IsU (x₀ y₀ W H t : ℤ) (c : Contour) : Prop :=
  SameCycle (uOutline x₀ y₀ W H t) c ∨ SameCycle (upsideDown (2 * y₀ + H) (uOutline x₀ y₀ W H t)) c

/-- What the decision reads of a U: its box, the corners it reaches, and its area. -/
structure UShape (x₀ y₀ W H t : ℤ) (c : Contour) : Prop where
  box : boundingRect c = ⟨x₀, y₀, W + 1, H + 1⟩
  corners : ∀ p ∈ cornersOf ⟨x₀, y₀, W + 1, H + 1⟩, p ∈ c
  area : |Lib.twiceArea c| = 2 * (t * (W + 2 * H - 2 * t))

theorem twiceArea_uOutline (x₀ y₀ W H t : ℤ) :
    Lib.twiceArea (uOutline x₀ y₀ W H t) = 2 * (t * (W + 2 * H - 2 * t)) := by
  simp only [uOutline, Lib.twiceArea, Lib.cycleSum_cons, List.cons_append, List.nil_append,
    Lib.chainSum_cons, Lib.chainSum_nil, Lib.det]
  ring

section Shape

variable {x₀ y₀ W H t : ℤ}

theorem corners_mem_uOutline : ∀ p ∈ cornersOf ⟨x₀, y₀, W + 1, H + 1⟩,
    p ∈ uOutline x₀ y₀ W H t := by
  have hright : ∀ a b : ℤ, a + (b + 1) - 1 = a + b := fun a b => by ring
  simp [cornersOf, uOutline, hright]

/-- No vertex of the U is outside of its box. -/
theorem mem_uOutline (ht : 1 ≤ t) (htH : t ≤ H) (htW : 2 * t ≤ W) :
    ∀ p ∈ uOutline x₀ y₀ W H t, x₀ ≤ p.x ∧ p.x ≤ x₀ + W ∧ y₀ ≤ p.y ∧ p.y ≤ y₀ + H := by
  simp only [uOutline, List.forall_mem_cons, List.not_mem_nil, false_imp_iff, implies_true,
    and_true]
  omega

theorem uOutline_box (ht : 1 ≤ t) (htH : t ≤ H) (htW : 2 * t ≤ W) :
    PixelBox (points (uOutline x₀ y₀ W H t)) ⟨x₀, y₀, W + 1, H + 1⟩ := by
  refine PixelBox.of_corners ?_ ?_ (mem_uOutline ht htH htW)
  · show _ ∈ uOutline x₀ y₀ W H t
    simp [uOutline]
  · show _ ∈ uOutline x₀ y₀ W H t
    simp [uOutline]

theorem uArea_nonneg (ht : 1 ≤ t) (htH : t ≤ H) (htW : 2 * t ≤ W) :
    0 ≤ 2 * (t * (W + 2 * H - 2 * t)) := by
  have : 0 ≤ t * (W + 2 * H - 2 * t) := by apply mul_nonneg <;> omega
  omega

theorem uShape_upright (ht : 1 ≤ t) (htH : t ≤ H) (htW : 2 * t ≤ W) :
    UShape x₀ y₀ W H t (uOutline x₀ y₀ W H t) where
  box := (boundingRect_pixelBox (List.cons_ne_nil _ _)).unique (uOutline_box ht htH htW)
  corners := corners_mem_uOutline
  area := by rw [twiceArea_uOutline, abs_of_nonneg (uArea_nonneg ht htH htW)]

/-- Turned over in its box, a U keeps box and corners, and its area changes sign. -/
theorem UShape.upsideDown {c : Contour} (h : UShape x₀ y₀ W H t c) :
    UShape x₀ y₀ W H t (upsideDown (2 * y₀ + H) c) where
  box := by
    have hc : c ≠ [] := List.ne_nil_of_mem (h.corners _ List.mem_cons_self)
    have hbox := (boundingRect_pixelBox hc).flipRows (2 * y₀ + H)
    rw [h.box] at hbox
    rw [NinjaVision.upsideDown, boundingRect_map hc hbox, Rect.mk.injEq]
    dsimp only
    omega
  corners := by
    intro p hp
    -- the turned corner is a corner again, and turning it once more gives `p`
    have hturned : Lib.flipRows (2 * y₀ + H) p ∈ cornersOf ⟨x₀, y₀, W + 1, H + 1⟩ := by
      simp only [cornersOf, List.mem_cons, List.not_mem_nil, or_false, Lib.flipRows,
        Lib.Point.ext_iff] at hp ⊢
      omega
    refine List.mem_map.mpr ⟨_, h.corners _ hturned, ?_⟩
    simp [Lib.flipRows]
  area := by
    rw [NinjaVision.upsideDown, Lib.twiceArea_map (Lib.flipRows_rigid _), abs_mul, h.area, abs_neg,
      abs_one, one_mul]

/-- Start vertex and direction of the list do not matter. -/
theorem UShape.sameCycle {c c' : Contour} (h : UShape x₀ y₀ W H t c) (hcycle : SameCycle c c') :
    UShape x₀ y₀ W H t c' where
  box := (boundingRect_congr hcycle.points_eq).symm.trans h.box
  corners p hp := by
    have hmem : p ∈ points c := h.corners p hp
    rwa [hcycle.points_eq] at hmem
  area := by
    rw [← h.area]
    rcases hcycle with hrot | hrot
    · rw [Lib.twiceArea_rotated hrot]
    · rw [← Lib.twiceArea_rotated hrot, Lib.twiceArea_reverse, abs_neg]

/-- **Every listing of a U has its shape.** -/
theorem IsU.shape {c : Contour} (h : IsU x₀ y₀ W H t c) (ht : 1 ≤ t) (htH : t ≤ H)
    (htW : 2 * t ≤ W) : UShape x₀ y₀ W H t c := by
  have hup : UShape x₀ y₀ W H t (uOutline x₀ y₀ W H t) := uShape_upright ht htH htW
  rcases h with h | h
  · exact hup.sameCycle h
  · exact hup.upsideDown.sameCycle h

/-! ## §3 — the law of the U. -/

/-- The hull of the shape is its box. -/
theorem UShape.reachesCorners {c : Contour} (h : UShape x₀ y₀ W H t c) (hW : 1 ≤ W) (hH : 1 ≤ H) :
    ReachesCorners c := by
  unfold ReachesCorners
  rw [h.box]
  exact ⟨⟨Int.lt_add_one_of_le hW, Int.lt_add_one_of_le hH⟩, h.corners⟩

/-- The decision on the shape. -/
theorem UShape.accepts_iff {cv : OpenCV} {c : Contour} (h : UShape x₀ y₀ W H t c) (hW : 1 ≤ W)
    (hH : 1 ≤ H) (hhull : HullAt cv c) :
    accepts cv c = true ↔ H < W ∧ 30 ≤ W ∧ 2 * t * (W + 2 * H - 2 * t) < W * H := by
  rw [accepts_iff_of_corners (h.reachesCorners hW hH) hhull, h.area, h.box, ← mul_assoc]
  -- one pixel more than the extent, in the height, the width and both areas
  simp only [add_sub_cancel_right]
  omega

/-- A stroke that fills the box leaves an outline of the area of the box. -/
theorem not_thin_of_filled (hfilled : t = H ∨ 2 * t = W) (ht : 1 ≤ t) (htH : t ≤ H)
    (htW : 2 * t ≤ W) : ¬ 2 * t * (W + 2 * H - 2 * t) < W * H := by
  have hbox : 0 ≤ W * H := by apply mul_nonneg <;> omega
  have harea : 2 * t * (W + 2 * H - 2 * t) = 2 * (W * H) := by
    rcases hfilled with rfl | rfl
    · ring
    · ring
  omega

/-- **The law of the U**, for every size, place and listing. It is accepted exactly when it is wider
than high, at least 30 columns from edge to edge, and twice its area is below that of its box. An
accepted one is published at its place in the list, with the azimuth of the column
`x₀ + (W + 1) / 2` and the distance of the width `W + 1`. A U whose stroke fills its box is
rejected. -/
theorem u_law (ht : 1 ≤ t) (htH : t ≤ H) (htW : 2 * t ≤ W) {cv : OpenCV} {c : Contour}
    (hc : IsU x₀ y₀ W H t c) (hhull : HullAt cv c) :
    (accepts cv c = true ↔ H < W ∧ 30 ≤ W ∧ 2 * t * (W + 2 * H - 2 * t) < W * H) ∧
    (accepts cv c = true → ∀ pre post, targetsOf cv realMath (pre ++ c :: post) =
      targetsOf cv realMath pre ++
      ⟨[.finite (640 * (10 / ((W + 1 : ℤ) : ℝ)) / (Real.tan (Lib.radians 46.6) / 2))],
        [.finite (azimuthAt (x₀ + (W + 1) / 2))]⟩ ++
      targetsOf cv realMath post) ∧
    (t = H ∨ 2 * t = W → accepts cv c = false) := by
  have hshape := hc.shape ht htH htW
  have hdecision := hshape.accepts_iff (by omega) (by omega) hhull
  refine ⟨hdecision, ?_, ?_⟩
  · intro hacc pre post
    have hwidth : 0 < W + 1 := by omega
    rw [targetsOf_accepted hacc, hshape.box, distance_eq_half_tan hwidth, azimuth_eq,
      centreColumn_eq hwidth.le]
  · intro hfilled
    rw [Bool.eq_false_iff, ne_eq, hdecision]
    exact fun h => not_thin_of_filled hfilled ht htH htW h.2.2

end Shape

/-- The law at a U listed backwards from its fourth vertex and upside down, which is accepted, and
at one whose stroke is as high as its box, which is not. -/
theorem u_law_outline :
    accepts boxHull ((upsideDown 230 (uOutline 100 100 40 30 5)).reverse.rotate 3) = true ∧
    accepts boxHull (uOutline 0 0 40 20 20) = false := by
  have hhull : HullAt boxHull ((upsideDown 230 (uOutline 100 100 40 30 5)).reverse.rotate 3) :=
    hullAt_boxHull (by decide)
  have hfilled : HullAt boxHull (uOutline 0 0 40 20 20) := hullAt_boxHull (by decide)
  have hlisted :
      IsU 100 100 40 30 5 ((upsideDown 230 (uOutline 100 100 40 30 5)).reverse.rotate 3) :=
    Or.inr (Or.inr ⟨3, rfl⟩)
  have hself : IsU 0 0 40 20 20 (uOutline 0 0 40 20 20) := Or.inl (Or.inl (List.IsRotated.refl _))
  refine ⟨?_, ?_⟩
  · exact (u_law (by decide) (by decide) (by decide) hlisted hhull).1.mpr (by decide)
  · exact (u_law (by decide) (by decide) (by decide) hself hfilled).2.2 (Or.inl rfl)

end NinjaVision
