/-
# NinjaVision.Main.Frame — what `main` makes of one frame.

From a fresh `videoMat` the loop body computes a gray image, a mask, the contours of the mask, and
from those, in the filter and geometry loops, the two vectors it publishes. `processFrame` is that
sequence. `reference` is the same result said once, from the IR bytes: the passing contours of the
mask of bytes of at least 160, each with its distance and its azimuth.

They agree on every frame (`processFrame_gray`), because the round trip of a byte through three
equal channels and back is the identity: the fixed-point weights of `BGR2GRAY` add up to `2 ^ 14`.
-/
import NinjaVision.Detector.Geometry

namespace NinjaVision

open Lib (ExactDouble)

variable {K : Type*}

/-! ## §1 — the loop body. -/

/-- What `main` is linked with: OpenCV, `<cmath>`, and the sequence that `rand()` runs through in a
process that never calls `srand`. -/
structure Libraries (K : Type*) where
  cv : OpenCV
  cmath : CMath K
  randMax : ℕ
  rand : ℕ → Fin (randMax + 1)

/-- `cvtColor(src, dst, CV_BGR2GRAY)`: the weighted sum in 14-bit fixed point, rounded. -/
def cvtColorBgr2Gray (src : Image Bgr) : Image UInt8 := fun p =>
  UInt8.ofNat
    (((src p).b.toNat * 1868 + (src p).g.toNat * 9617 + (src p).r.toNat * 4899 + 8192) >>> 14)

/-- `inRange(src, lower, upper, dst)`. -/
def inRange (src : Image UInt8) (lower upper : UInt8) : Image UInt8 := fun p =>
  if lower ≤ src p ∧ src p ≤ upper then 255 else 0

/-- The loop body from `cvtColor` to the end of the geometry loop. -/
def processFrame [Field K] [LinearOrder K] (lib : Libraries K) (videoMat : Image Bgr) : Targets K :=
  let gray := cvtColorBgr2Gray videoMat
  let processed := inRange gray 160 255
  -- `tmp` is a clone: `findContours` may write its argument
  let contours := lib.cv.findContours processed
  let filtered := filterLoop lib.cv contours
  geometryLoop lib.cmath filtered.irRects

/-- The frame is published as the contours of its mask are. -/
theorem processFrame_eq_targetsOf [Field K] [LinearOrder K] (lib : Libraries K)
    (videoMat : Image Bgr) :
    processFrame lib videoMat =
      targetsOf lib.cv lib.cmath
        (lib.cv.findContours (inRange (cvtColorBgr2Gray videoMat) 160 255)) := rfl

/-! ## §2 — the reference. -/

/-- 255 exactly where the IR byte is at least 160. -/
def irMask (ir : Image UInt8) : Image UInt8 := fun p => if 160 ≤ ir p then 255 else 0

/-- The contours of the frame's mask that pass the filter, in `findContours` order. -/
def passing (cv : OpenCV) (ir : Image UInt8) : List Contour :=
  (cv.findContours (irMask ir)).filter (accepts cv)

/-- What a frame is to be published as. -/
def reference [Field K] [LinearOrder K] (lib : Libraries K) (ir : Image UInt8) : Targets K where
  distances := (passing lib.cv ir).map fun c => distance lib.cmath (boundingRect c)
  azimuths := (passing lib.cv ir).map fun c => azimuth (boundingRect c)

/-- A byte in three equal channels is that byte in gray. -/
theorem gray_round_trip (ir : Image UInt8) : cvtColorBgr2Gray (cvtColorGray2Bgr ir) = ir := by
  funext p
  have hweights : ((ir p).toNat * 1868 + (ir p).toNat * 9617 + (ir p).toNat * 4899 + 8192) >>> 14
      = (ir p).toNat := by
    rw [Nat.shiftRight_eq_div_pow]
    omega
  show UInt8.ofNat (_ >>> 14) = ir p
  simp only [cvtColorGray2Bgr]
  rw [hweights, UInt8.ofNat_toNat]

/-- No byte is above 255. -/
theorem inRange_gray (ir : Image UInt8) : inRange ir 160 255 = irMask ir := by
  funext p
  have htop : ir p ≤ 255 := by
    have := (ir p).toNat_lt
    rw [UInt8.le_iff_toNat_le]
    show (ir p).toNat ≤ 255
    omega
  unfold inRange irMask
  simp [htop]

/-- **The loop body computes the reference** of the frame that was polled. -/
theorem processFrame_gray [Field K] [LinearOrder K] (lib : Libraries K) (ir : Image UInt8) :
    processFrame lib (cvtColorGray2Bgr ir) = reference lib ir := by
  rw [processFrame_eq_targetsOf, gray_round_trip, inRange_gray, targetsOf_eq]
  rfl

/-! ## §3 — a frame with one target, and a black one. -/

/-- The IR frame of a bright U on a dark ground, its two inner corners cut at 45 degrees. -/
def uFrame : Image UInt8 := fun p =>
  if 100 ≤ p.1.val ∧ p.1.val ≤ 130 ∧ 100 ≤ p.2.val ∧ p.2.val ≤ 140 ∧
      ¬ (p.1.val < 125 ∧ 105 < p.2.val ∧ p.2.val < 135 ∧
        p.1.val < p.2.val + 15 ∧ p.1.val + p.2.val < 255) then 255 else 0

def blackFrame : Image UInt8 := fun _ => 0

/-- The contour of `uFrame`, from its first pixel down the left side. Around a cut corner the border
runs through neighbouring pixels, so these are its vertices and nothing is left for the chain
approximation. -/
def uBorder : Contour :=
  [⟨100, 100⟩, ⟨100, 130⟩, ⟨140, 130⟩, ⟨140, 100⟩, ⟨135, 100⟩, ⟨135, 120⟩, ⟨130, 125⟩, ⟨110, 125⟩,
    ⟨105, 120⟩, ⟨105, 100⟩]

/-- An OpenCV that finds the contour of the U in its mask, and no contours in another mask. -/
def uFinder : OpenCV where
  findContours mask := if mask = irMask uFrame then [uBorder] else []
  convexHull := boxHull.convexHull

theorem passing_uFrame : passing uFinder uFrame = [uBorder] := by
  have hbox : accepts uFinder uBorder = accepts boxHull uBorder := accepts_congr rfl rfl rfl rfl
  have hacc : accepts uFinder uBorder = true :=
    hbox.trans ((accepts_iff_twiceArea ..).mpr (by decide))
  have hfound : uFinder.findContours (irMask uFrame) = [uBorder] := by
    simp only [uFinder, if_true]
  rw [passing, hfound, List.filter_cons_of_pos hacc, List.filter_nil]

theorem passing_blackFrame : passing uFinder blackFrame = [] := by
  have hne : irMask blackFrame ≠ irMask uFrame := by
    intro h
    have hpixel : irMask blackFrame (100, 100) = irMask uFrame (100, 100) := congrFun h _
    exact absurd hpixel (by decide +kernel)
  have hfound : uFinder.findContours (irMask blackFrame) = [] := by
    simp only [uFinder, hne, if_false]
  rw [passing, hfound, List.filter_nil]

end NinjaVision
