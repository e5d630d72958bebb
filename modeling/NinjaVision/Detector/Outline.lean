/-
# NinjaVision.Detector.Outline — outlines that reach the corners of their box.

The targets of the detector are U-shaped: two uprights and a bar. `uOutline` is the polygon of such
a shape. Its hull is the box around it, and the same is true of every contour that has the four
corners of its bounding box among its vertices (`isHull_corners`). For these contours `boxHull`
computes what OpenCV's `convexHull` computes, by listing the four corners.
-/
import NinjaVision.Detector.Contour

namespace NinjaVision

/-- The four extreme pixels of a rectangle, around it. -/
def cornersOf (r : Rect) : Contour :=
  [⟨r.x, r.y⟩, ⟨r.x + r.width - 1, r.y⟩, ⟨r.x + r.width - 1, r.y + r.height - 1⟩,
    ⟨r.x, r.y + r.height - 1⟩]

/-- An OpenCV whose hull is the box. It finds no contours. -/
def boxHull : OpenCV := ⟨fun _ => [], fun c => cornersOf (boundingRect c)⟩

/-- The box of the contour has an area, and its corners are vertices of the contour. -/
def ReachesCorners (c : Contour) : Prop :=
  (1 < (boundingRect c).width ∧ 1 < (boundingRect c).height) ∧
    ∀ p ∈ cornersOf (boundingRect c), p ∈ c

instance (c : Contour) : Decidable (ReachesCorners c) := inferInstanceAs (Decidable ((_ ∧ _) ∧ _))

/-- **The hull of a contour that reaches the corners of its box** is the cycle of these corners. -/
theorem isHull_corners {c : Contour} (h : ReachesCorners c) :
    Lib.IsHull (points c) (cornersOf (boundingRect c)) := by
  obtain ⟨⟨hw, hh⟩, hcorners⟩ := h
  have hc : c ≠ [] := List.ne_nil_of_mem (hcorners _ List.mem_cons_self)
  have hbox := boundingRect_pixelBox hc
  simp only [cornersOf, List.forall_mem_cons] at hcorners
  obtain ⟨h₀₀, h₁₀, h₁₁, h₀₁, _⟩ := hcorners
  refine Or.inl (Lib.hullCycle_corners (by omega) (by omega) h₀₀ h₁₀ h₁₁ h₀₁ fun p hp => ?_)
  exact ⟨hbox.left.2 ⟨p, hp, rfl⟩, hbox.right.2 ⟨p, hp, rfl⟩, hbox.top.2 ⟨p, hp, rfl⟩,
    hbox.bottom.2 ⟨p, hp, rfl⟩⟩

/-- On such a contour `boxHull` behaves as `convexHull` is assumed to. -/
theorem hullAt_boxHull {c : Contour} (h : ReachesCorners c) : HullAt boxHull c := isHull_corners h

/-- A U of outer width `W`, height `H` and stroke `t`, from its top left corner. -/
def uOutline (x₀ y₀ W H t : ℤ) : Contour :=
  [⟨x₀, y₀⟩, ⟨x₀ + t, y₀⟩, ⟨x₀ + t, y₀ + H - t⟩, ⟨x₀ + W - t, y₀ + H - t⟩, ⟨x₀ + W - t, y₀⟩,
    ⟨x₀ + W, y₀⟩, ⟨x₀ + W, y₀ + H⟩, ⟨x₀, y₀ + H⟩]

end NinjaVision
