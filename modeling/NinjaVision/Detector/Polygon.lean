/-
# NinjaVision.Detector.Polygon — the detector reads the polygon, not its listing.

`findContours` may list a contour with or without the points along its straight runs, depending on
the approximation it is called with, and from any vertex in either direction; `convexHull` may
return any listing of the hull. `SamePolygon` relates two listings that become the same cycle when
points along straight runs are left out. Dropping such a point changes no box, no area and no hull,
so `polygon_law`: two such lists of contours are published as the same two vectors, be it by two
implementations of `convexHull`.

The hull of a contour lies inside its box and has no more area (`hullArea_le_box`). So there is a
bound that needs no hull: `fill_law` — an accepted contour covers less than half of its box, and at
least two rows; for a contour that reaches the corners of its box this is the whole solidity test.

Of where a contour stands, the columns alone are published, and the verdict does not read the place
at all. So each contour may stand in other rows or upside down, and nothing of it is seen in the
vectors (`rows_law`).
-/
import NinjaVision.Detector.UShape
import NinjaVision.Lib.HullBounds

namespace NinjaVision

open Lib (ThinCycle)

/-! ## §1 — boxes, areas and hulls of thinned contours. -/

/-- The span of a set is that of a subset, when no point of the set is beyond all points of the
subset. -/
theorem Span.thin {coord : Point → ℤ} {S T : Set Point} (hsub : T ⊆ S)
    (hbetween : ∀ p ∈ S, ∃ x ∈ T, ∃ y ∈ T, (coord x - coord p) * (coord y - coord p) ≤ 0) {a n : ℤ}
    (h : Span (coord '' S) a n) : Span (coord '' T) a n := by
  obtain ⟨⟨hleast, hmin⟩, hgreatest, hmax⟩ := h
  have hbounds : ∀ x ∈ T, a ≤ coord x ∧ coord x ≤ a + n - 1 := fun x hx =>
    ⟨hmin ⟨x, hsub hx, rfl⟩, hmax ⟨x, hsub hx, rfl⟩⟩
  -- an extreme value is between two others only if it is one of them
  have hattained : ∀ p ∈ S, (coord p = a ∨ coord p = a + n - 1) → coord p ∈ coord '' T := by
    intro p hp hextreme
    obtain ⟨x, hx, y, hy, hprod⟩ := hbetween p hp
    have hx' := hbounds x hx
    have hy' := hbounds y hy
    have hnonneg : 0 ≤ (coord x - coord p) * (coord y - coord p) := by
      rcases hextreme with he | he
      · apply mul_nonneg <;> omega
      · apply mul_nonneg_of_nonpos_of_nonpos <;> omega
    rcases mul_eq_zero.mp (le_antisymm hprod hnonneg) with hzero | hzero
    · exact ⟨x, hx, sub_eq_zero.mp hzero⟩
    · exact ⟨y, hy, sub_eq_zero.mp hzero⟩
  obtain ⟨p, hp, rfl⟩ := hleast
  obtain ⟨q, hq, hqe⟩ := hgreatest
  refine ⟨⟨hattained p hp (Or.inl rfl), ?_⟩, hqe ▸ hattained q hq (Or.inr hqe), ?_⟩
  · rintro _ ⟨x, hx, rfl⟩
    exact (hbounds x hx).1
  · rintro _ ⟨x, hx, rfl⟩
    exact (hbounds x hx).2

/-- **A thinned contour has the box of the contour.** -/
theorem boundingRect_thin {c k : Contour} (h : ThinCycle c k) :
    boundingRect k = boundingRect c := by
  obtain ⟨hkept, hbetween⟩ := h.between
  by_cases hc : c = []
  · subst hc
    have hk : k = [] :=
      List.eq_nil_iff_forall_not_mem.mpr fun p hp => absurd (hkept p hp) List.not_mem_nil
    rw [hk]
  · have hk : k ≠ [] := by
      obtain ⟨p, hp⟩ := List.exists_mem_of_ne_nil c hc
      obtain ⟨x, hx, _⟩ := hbetween p hp
      exact List.ne_nil_of_mem hx
    obtain ⟨hcolumns, hrows⟩ := pixelBox_iff.mp (boundingRect_pixelBox hc)
    refine (boundingRect_pixelBox hk).unique
      (pixelBox_iff.mpr ⟨hcolumns.thin hkept ?_, hrows.thin hkept ?_⟩)
    · intro p hp
      obtain ⟨x, hx, y, hy, hseg⟩ := hbetween p hp
      exact ⟨x, hx, y, hy, hseg.between.1⟩
    · intro p hp
      obtain ⟨x, hx, y, hy, hseg⟩ := hbetween p hp
      exact ⟨x, hx, y, hy, hseg.between.2⟩

theorem contourArea_thin {c k : Contour} (h : ThinCycle c k) : contourArea k = contourArea c :=
  contourArea_congr (by rw [h.twiceArea_eq])

/-! ## §2 — one polygon, two listings. -/

/-- Two contours list the same closed polygon: without some points along straight runs they are one
cycle, up to start vertex and direction. -/
def SamePolygon (c c' : Contour) : Prop := ∃ k k', ThinCycle c k ∧ ThinCycle c' k' ∧ SameCycle k k'

theorem SamePolygon.boundingRect_eq {c c' : Contour} (h : SamePolygon c c') :
    boundingRect c' = boundingRect c := by
  obtain ⟨k, k', hk, hk', hcycle⟩ := h
  rw [← boundingRect_thin hk, ← boundingRect_thin hk', boundingRect_congr hcycle.points_eq]

theorem SamePolygon.contourArea_eq {c c' : Contour} (h : SamePolygon c c') :
    contourArea c' = contourArea c := by
  obtain ⟨k, k', hk, hk', hcycle⟩ := h
  rw [← contourArea_thin hk, ← contourArea_thin hk', hcycle.contourArea_eq]

/-- Two listings of a polygon have hulls of the same area, from whatever implementation. -/
theorem SamePolygon.hullArea_eq {cv cv' : OpenCV} {c c' : Contour} (h : SamePolygon c c')
    (hc : HullAt cv c) (hc' : HullAt cv' c') :
    contourArea (cv'.convexHull c') = contourArea (cv.convexHull c) := by
  obtain ⟨k, k', hk, hk', hcycle⟩ := h
  have hhull : Lib.IsHull (points k) (cv.convexHull c) := Lib.IsHull.thin hc hk
  have hhull' : Lib.IsHull (points k') (cv'.convexHull c') := Lib.IsHull.thin hc' hk'
  rw [hcycle.points_eq] at hhull
  exact contourArea_congr (hhull'.abs_twiceArea_eq hhull)

/-- Two listings of a polygon get the same verdict. -/
theorem SamePolygon.accepts_eq {cv cv' : OpenCV} {c c' : Contour} (h : SamePolygon c c')
    (hc : HullAt cv c) (hc' : HullAt cv' c') : accepts cv' c' = accepts cv c := by
  apply accepts_congr
  · rw [h.boundingRect_eq]
  · rw [h.boundingRect_eq]
  · exact h.contourArea_eq
  · exact h.hullArea_eq hc hc'

/-- Contours listed by two libraries: the same polygon, and a hull of it from each. -/
structure Relisted (cv cv' : OpenCV) (c c' : Contour) : Prop where
  polygon : SamePolygon c c'
  hull : HullAt cv c
  hull' : HullAt cv' c'

/-- **The polygon law.** Two lists of contours that list the same polygons, in the same order, are
treated alike: the same contours are kept, and the published vectors are the same. -/
theorem polygon_law {K : Type*} [Field K] [LinearOrder K] {cv cv' : OpenCV}
    {contours contours' : List Contour} (h : List.Forall₂ (Relisted cv cv') contours contours')
    (m : CMath K) :
    List.Forall₂ SamePolygon (filterLoop cv contours).filteredContours
        (filterLoop cv' contours').filteredContours ∧
      (filterLoop cv' contours').irRects = (filterLoop cv contours).irRects ∧
      targetsOf cv' m contours' = targetsOf cv m contours := by
  have hfiltered : List.Forall₂ SamePolygon (contours.filter (accepts cv))
      (contours'.filter (accepts cv')) := by
    induction h with
    | nil => exact .nil
    | @cons c c' cs cs' hc _ ih =>
        have hverdict := hc.polygon.accepts_eq hc.hull hc.hull'
        cases hacc : accepts cv c with
        | true =>
            rw [List.filter_cons_of_pos hacc, List.filter_cons_of_pos (hverdict.trans hacc)]
            exact .cons hc.polygon ih
        | false =>
            rw [List.filter_cons_of_neg (by simp [hacc]),
              List.filter_cons_of_neg (by simp [hverdict, hacc])]
            exact ih
  have hrects : (contours'.filter (accepts cv')).map boundingRect
      = (contours.filter (accepts cv)).map boundingRect := by
    generalize contours.filter (accepts cv) = kept at hfiltered ⊢
    generalize contours'.filter (accepts cv') = kept' at hfiltered ⊢
    induction hfiltered with
    | nil => rfl
    | cons hc _ ih => rw [List.map_cons, List.map_cons, hc.boundingRect_eq, ih]
  rw [targetsOf, targetsOf, filterLoop_eq, filterLoop_eq, hrects]
  exact ⟨hfiltered, rfl, rfl⟩

/-- The law at a U, listed with the middle of its bar and from there. -/
theorem polygon_law_outline :
    targetsOf boxHull realMath
      [[⟨120, 130⟩, ⟨100, 130⟩, ⟨100, 100⟩, ⟨105, 100⟩, ⟨105, 125⟩, ⟨135, 125⟩, ⟨135, 100⟩,
        ⟨140, 100⟩, ⟨140, 130⟩]]
      = targetsOf boxHull realMath [uOutline 100 100 40 30 5] := by
  have hthin : ThinCycle
      [⟨120, 130⟩, ⟨100, 130⟩, ⟨100, 100⟩, ⟨105, 100⟩, ⟨105, 125⟩, ⟨135, 125⟩, ⟨135, 100⟩,
        ⟨140, 100⟩, ⟨140, 130⟩] (uOutline 100 100 40 30 5) := by
    refine Or.inr ⟨⟨100, 130⟩,
      [⟨100, 100⟩, ⟨105, 100⟩, ⟨105, 125⟩, ⟨135, 125⟩, ⟨135, 100⟩, ⟨140, 100⟩, ⟨140, 130⟩,
        ⟨120, 130⟩],
      [⟨100, 100⟩, ⟨105, 100⟩, ⟨105, 125⟩, ⟨135, 125⟩, ⟨135, 100⟩, ⟨140, 100⟩, ⟨140, 130⟩],
      ⟨1, rfl⟩, ⟨7, rfl⟩, ?_⟩
    -- on the way back the walk passes the middle of the bar
    have hback : Lib.Thin (⟨140, 130⟩ : Point) ([⟨120, 130⟩] ++ [⟨100, 130⟩]) [⟨100, 130⟩] :=
      .keep (by decide) (.nil _)
    exact hback.cons.cons.cons.cons.cons.cons.cons
  have hrelisted : Relisted boxHull boxHull _ _ :=
    ⟨⟨_, _, ThinCycle.refl _, hthin, Or.inl (.refl _)⟩, hullAt_boxHull (by decide),
      hullAt_boxHull (by decide)⟩
  exact (polygon_law (.cons hrelisted .nil) realMath).2.2

/-! ## §3 — how much of its box an accepted contour covers. -/

/-- **The hull of a contour has no more area than the box of its points.** -/
theorem hullArea_le_box {cv : OpenCV} {c : Contour} (hc : c ≠ []) (hhull : HullAt cv c) :
    |Lib.twiceArea (cv.convexHull c)|
      ≤ 2 * (((boundingRect c).width - 1) * ((boundingRect c).height - 1)) := by
  have hbox := boundingRect_pixelBox hc
  have hw := hbox.width_pos
  have hh := hbox.height_pos
  have hinside : ∀ p ∈ points c, (boundingRect c).x ≤ p.x ∧
      p.x ≤ (boundingRect c).x + (boundingRect c).width - 1 ∧
      (boundingRect c).y ≤ p.y ∧ p.y ≤ (boundingRect c).y + (boundingRect c).height - 1 := by
    intro p hp
    exact ⟨hbox.left.2 ⟨p, hp, rfl⟩, hbox.right.2 ⟨p, hp, rfl⟩, hbox.top.2 ⟨p, hp, rfl⟩,
      hbox.bottom.2 ⟨p, hp, rfl⟩⟩
  have harea := Lib.IsHull.abs_twiceArea_le hhull (by omega) (by omega) hinside
  calc |Lib.twiceArea (cv.convexHull c)|
      ≤ _ := harea
    _ = 2 * (((boundingRect c).width - 1) * ((boundingRect c).height - 1)) := by ring

/-- Twice the area of an accepted contour is below the area of its box. -/
theorem accepts_fill {cv : OpenCV} {c : Contour} (hhull : HullAt cv c)
    (hacc : accepts cv c = true) :
    |Lib.twiceArea c| < ((boundingRect c).width - 1) * ((boundingRect c).height - 1) := by
  have hbox := hullArea_le_box (accepts_ne_nil hacc) hhull
  have hthin := ((accepts_iff_twiceArea cv c).mp hacc).2.2
  omega

/-- **The fill law.** An accepted contour covers less than half of its box, which has at least two
rows; so a contour that covers half or more of its box leaves no trace wherever it stands, convex or
not. A contour that reaches the corners of its box is accepted exactly when it covers less than half
and its box is wide enough. -/
theorem fill_law {K : Type*} [Field K] [LinearOrder K] {cv : OpenCV} {c : Contour}
    (hhull : HullAt cv c) :
    (accepts cv c = true → 2 ≤ (boundingRect c).height ∧
      2 * contourArea c < ((boundingRect c).width - 1) * ((boundingRect c).height - 1)) ∧
    (((boundingRect c).width - 1) * ((boundingRect c).height - 1) ≤ 2 * contourArea c →
      ∀ (m : CMath K) (pre post : List Contour),
        targetsOf cv m (pre ++ c :: post) = targetsOf cv m (pre ++ post)) ∧
    (ReachesCorners c → (accepts cv c = true ↔ (boundingRect c).height < (boundingRect c).width ∧
      30 < (boundingRect c).width ∧
      2 * contourArea c < ((boundingRect c).width - 1) * ((boundingRect c).height - 1))) := by
  have harea : 2 * contourArea c = ((|Lib.twiceArea c| : ℤ) : ℚ) := by
    rw [contourArea_eq, Int.cast_abs]
    ring
  have hcast : 2 * contourArea c < ((boundingRect c).width - 1) * ((boundingRect c).height - 1) ↔
      |Lib.twiceArea c| < ((boundingRect c).width - 1) * ((boundingRect c).height - 1) := by
    rw [harea]
    exact_mod_cast Iff.rfl
  refine ⟨?_, ?_, ?_⟩
  · intro hacc
    have hfill := accepts_fill hhull hacc
    have hw := accepts_width hacc
    refine ⟨?_, hcast.mpr hfill⟩
    -- a box of one row has no area to cover less than half of
    have hroom : 0 < (boundingRect c).height - 1 :=
      pos_of_mul_pos_right ((abs_nonneg _).trans_lt hfill) (by omega)
    omega
  · intro hfull m pre post
    apply targetsOf_rejected
    rw [Bool.eq_false_iff]
    intro hacc
    exact absurd (hcast.mpr (accepts_fill hhull hacc)) (not_lt.mpr hfull)
  · intro hcorners
    rw [accepts_iff_of_corners hcorners hhull, hcast]

/-- The law at a U that covers less than half of its box and at one that covers more. -/
theorem fill_law_outline :
    2 * contourArea (uOutline 100 100 40 30 5) <
      ((boundingRect (uOutline 100 100 40 30 5)).width - 1) *
        ((boundingRect (uOutline 100 100 40 30 5)).height - 1) ∧
    targetsOf boxHull realMath [uOutline 0 0 40 30 10] = targetsOf boxHull realMath [] := by
  have hthin : HullAt boxHull (uOutline 100 100 40 30 5) := hullAt_boxHull (by decide)
  have hthick : HullAt boxHull (uOutline 0 0 40 30 10) := hullAt_boxHull (by decide)
  refine ⟨((fill_law (K := ℝ) hthin).1 outline_accepted).2, (fill_law hthick).2.1 ?_ realMath [] []⟩
  have harea : Lib.twiceArea (uOutline 0 0 40 30 10) = 1600 := by decide
  have hbox : boundingRect (uOutline 0 0 40 30 10) = ⟨0, 0, 41, 31⟩ := by decide
  rw [contourArea_eq, harea, hbox]
  norm_num

/-! ## §4 — where in the rows a contour stands. -/

/-- Two contours that are published alike: the same verdict, and boxes in the same columns. -/
structure PublishedAlike (cv cv' : OpenCV) (c c' : Contour) : Prop where
  verdict : accepts cv' c' = accepts cv c
  firstColumn : (boundingRect c').x = (boundingRect c).x
  width : (boundingRect c').width = (boundingRect c).width

/-- The azimuth reads the columns of the rectangle only. -/
theorem azimuth_congr {K : Type*} [Field K] [LinearOrder K] {r r' : Rect} (hx : r.x = r'.x)
    (hw : r.width = r'.width) : (azimuth r : Lib.ExactDouble K) = azimuth r' := by
  unfold azimuth targetX centreColumn Rect.tl
  rw [hx, hw]

theorem targetsOf_publishedAlike {K : Type*} [Field K] [LinearOrder K] {cv cv' : OpenCV}
    {contours contours' : List Contour}
    (h : List.Forall₂ (PublishedAlike cv cv') contours contours') (m : CMath K) :
    targetsOf cv' m contours' = targetsOf cv m contours := by
  rw [targetsOf_eq, targetsOf_eq]
  induction h with
  | nil => rfl
  | @cons c c' cs cs' hc _ ih =>
      obtain ⟨hdistances, hazimuths⟩ := Targets.mk.inj ih
      cases hacc : accepts cv c with
      | true =>
          have hdistance := distance_congr m hc.width
          have hazimuth : (azimuth (boundingRect c') : Lib.ExactDouble K)
              = azimuth (boundingRect c) :=
            azimuth_congr hc.firstColumn hc.width
          rw [List.filter_cons_of_pos hacc, List.filter_cons_of_pos (hc.verdict.trans hacc)]
          simp only [List.map_cons, hdistances, hazimuths, hdistance, hazimuth]
      | false =>
          have hacc' : ¬ accepts cv' c' = true := by rw [hc.verdict, hacc]; exact Bool.false_ne_true
          have hacc : ¬ accepts cv c = true := by rw [hacc]; exact Bool.false_ne_true
          rw [List.filter_cons_of_neg hacc, List.filter_cons_of_neg hacc', hdistances, hazimuths]

/-- A rigid map that leaves columns and height of every box. -/
def KeepsColumns (f : Point → Point) : Prop :=
  ∀ S r, PixelBox S r → ∃ y, PixelBox (f '' S) ⟨r.x, y, r.width, r.height⟩

/-- A contour that is moved within its columns is published alike. -/
theorem publishedAlike_map {cv cv' : OpenCV} {c : Contour} {f : Point → Point} {σ : ℤ}
    (hf : Lib.Rigid f σ) (hcolumns : KeepsColumns f) (hc : HullAt cv c)
    (hc' : HullAt cv' (c.map f)) : PublishedAlike cv cv' c (c.map f) := by
  have hrect : ∃ y, boundingRect (c.map f) =
      ⟨(boundingRect c).x, y, (boundingRect c).width, (boundingRect c).height⟩ := by
    by_cases hne : c = []
    · subst hne
      exact ⟨0, rfl⟩
    · obtain ⟨y, hbox⟩ := hcolumns _ _ (boundingRect_pixelBox hne)
      exact ⟨y, boundingRect_map hne hbox⟩
  have hhull : contourArea (cv'.convexHull (c.map f)) = contourArea (cv.convexHull c) := by
    unfold HullAt at hc'
    rw [points_map] at hc'
    rw [contourArea_congr (hc'.abs_twiceArea_eq (Lib.IsHull.map hf hc)), contourArea_map hf]
  obtain ⟨y, hrect⟩ := hrect
  refine ⟨accepts_congr ?_ ?_ (contourArea_map hf c) hhull, ?_, ?_⟩
  all_goals rw [hrect]

/-- The contour was moved up or down, or turned upside down. -/
def RowsMoved (c c' : Contour) : Prop := (∃ dy, c' = shift 0 dy c) ∨ ∃ m, c' = upsideDown m c

/-- **The rows law.** Each contour of a list may be moved up or down, or turned upside down, on its
own: the list is published as the same two vectors. -/
theorem rows_law {K : Type*} [Field K] [LinearOrder K] {cv cv' : OpenCV}
    {contours contours' : List Contour}
    (h : List.Forall₂ (fun c c' => RowsMoved c c' ∧ HullAt cv c ∧ HullAt cv' c') contours contours')
    (m : CMath K) : targetsOf cv' m contours' = targetsOf cv m contours := by
  have hshift : ∀ dy, KeepsColumns (Lib.translate 0 dy) := by
    intro dy S r hbox
    have hmoved := hbox.translate 0 dy
    rw [add_zero] at hmoved
    exact ⟨_, hmoved⟩
  have hflip : ∀ n, KeepsColumns (Lib.flipRows n) := fun n _ _ hbox => ⟨_, hbox.flipRows n⟩
  apply targetsOf_publishedAlike
  refine h.imp fun c c' hc => ?_
  obtain ⟨⟨dy, rfl⟩ | ⟨n, rfl⟩, hhull, hhull'⟩ := hc
  · exact publishedAlike_map (Lib.translate_rigid 0 dy) (hshift dy) hhull hhull'
  · exact publishedAlike_map (Lib.flipRows_rigid n) (hflip n) hhull hhull'

/-- The law at two U-shaped outlines, one turned upside down and one moved up. -/
theorem rows_law_outline :
    targetsOf boxHull realMath [upsideDown 230 (uOutline 100 100 40 30 5),
      shift 0 (-50) (uOutline 300 107 60 30 5)]
        = targetsOf boxHull realMath [uOutline 100 100 40 30 5, uOutline 300 107 60 30 5] := by
  have hturned : RowsMoved (uOutline 100 100 40 30 5) (upsideDown 230 (uOutline 100 100 40 30 5)) :=
    Or.inr ⟨230, rfl⟩
  have hmoved : RowsMoved (uOutline 300 107 60 30 5) (shift 0 (-50) (uOutline 300 107 60 30 5)) :=
    Or.inl ⟨-50, rfl⟩
  refine rows_law (.cons ⟨hturned, ?_, ?_⟩ (.cons ⟨hmoved, ?_, ?_⟩ .nil)) realMath
  all_goals exact hullAt_boxHull (by decide)

end NinjaVision
