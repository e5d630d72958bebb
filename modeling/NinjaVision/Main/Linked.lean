/-
# NinjaVision.Main.Linked — the process does not show which OpenCV it is linked with.

Of `convexHull` the documentation says what it lists, the hull vertices in cyclic order, and of
`findContours` which polygons; where a list starts, its direction, and points along straight runs
are left to the library. There is a `convexHull` that is right on every contour (`exists_hullAt`),
so `HullAt` asks for nothing impossible. And what is left open is not seen: `opencv_law`, a process
linked with any OpenCV that lists the same polygons and right hulls of them does what it does with
that one, step by step, and leaves the same table.
-/
import NinjaVision.Detector.Polygon
import NinjaVision.Lib.HullExists
import NinjaVision.Main.Loop

namespace NinjaVision

variable {K : Type*}

/-- For any `findContours` there is a `convexHull` that is right on every contour. -/
theorem exists_hullAt (findContours : Image UInt8 → List Contour) :
    ∃ cv : OpenCV, cv.findContours = findContours ∧ ∀ c, HullAt cv c := by
  have hfinite : ∀ c : Contour, (points c).Finite := fun c => List.finite_toSet c
  choose hull hhull using fun c : Contour => Lib.exists_hullCycle (hfinite c)
  exact ⟨⟨findContours, hull⟩, rfl, fun c => Or.inl (hhull c)⟩

/-- The library lists the same polygons on every mask, and right hulls of what it lists. -/
def ListsPolygons (findContours : Image UInt8 → List Contour) (cv : OpenCV) : Prop :=
  ∀ mask, List.Forall₂ (fun c c' => SamePolygon c c' ∧ HullAt cv c')
    (findContours mask) (cv.findContours mask)

/-- A contour that another library lists is published alike. -/
theorem Relisted.publishedAlike {cv cv' : OpenCV} {c c' : Contour} (h : Relisted cv cv' c c') :
    PublishedAlike cv cv' c c' where
  verdict := h.polygon.accepts_eq h.hull h.hull'
  firstColumn := by rw [h.polygon.boundingRect_eq]
  width := by rw [h.polygon.boundingRect_eq]

section Runs

variable [Field K] [LinearOrder K]

/-- Every frame is computed to the same two vectors. -/
theorem processFrame_relisted {right cv : OpenCV} (hright : ∀ c, HullAt right c)
    (hlists : ListsPolygons right.findContours cv) (lib : Libraries K) (videoMat : Image Bgr) :
    processFrame { lib with cv := cv } videoMat
      = processFrame { lib with cv := right } videoMat := by
  rw [processFrame_eq_targetsOf, processFrame_eq_targetsOf]
  apply targetsOf_publishedAlike
  refine (hlists _).imp fun c c' hc => ?_
  exact Relisted.publishedAlike ⟨hc.1, hright c, hc.2⟩

/-- Processes that compute the same of every frame are the same machine. -/
theorem process_congr {lib : Libraries K} {cv cv' : OpenCV}
    (hframe : ∀ videoMat, processFrame { lib with cv := cv' } videoMat
      = processFrame { lib with cv := cv } videoMat) :
    process { lib with cv := cv' } = process { lib with cv := cv } := by
  have hstep : Vision.step { lib with cv := cv' } = Vision.step { lib with cv := cv } := by
    funext s e
    cases e with
    | driver d => rfl
    | main =>
        show s.main { lib with cv := cv' } = s.main { lib with cv := cv }
        unfold Vision.main
        simp only [hframe]
  unfold process
  rw [hstep]

/-- **The OpenCV law.** For any `findContours` there is an OpenCV whose hulls are right on every
contour, and linked with any that lists the same polygons and right hulls of them, the process
behaves as with that one: from every state and for every order of steps it does the same, comes to
the same state, and leaves the same table. -/
theorem opencv_law (lib : Libraries K) (findContours : Image UInt8 → List Contour) :
    ∃ right : OpenCV, right.findContours = findContours ∧ (∀ c, HullAt right c) ∧
      ∀ cv, ListsPolygons findContours cv →
        ∀ (t₀ : NetworkTable K) (s : Vision K) (events : List Event),
        (process { lib with cv := cv }).trace s events
          = (process { lib with cv := right }).trace s events ∧
        (process { lib with cv := cv }).run s events
          = (process { lib with cv := right }).run s events ∧
        tableAfter { lib with cv := cv } t₀ s events
          = tableAfter { lib with cv := right } t₀ s events := by
  obtain ⟨right, rfl, hright⟩ := exists_hullAt findContours
  refine ⟨right, rfl, hright, fun cv hlists t₀ s events => ?_⟩
  have hprocess : process { lib with cv := cv } = process { lib with cv := right } :=
    process_congr (processFrame_relisted hright hlists lib)
  refine ⟨?_, ?_, ?_⟩
  · rw [hprocess]
  · rw [hprocess]
  · rw [tableAfter, tableAfter, hprocess]

end Runs

end NinjaVision
