/-
# NinjaVision.Device.CvFreenect — the Kinect device class `cvFreenectDevice`.

The class hands frames from libfreenect's thread to the polling thread over two channels, IR video
and depth. Each channel is a `Mat` header whose `data` pointer the callback replaces, and a flag
that says whether the frame behind the pointer was polled yet. The two channels run the same code on
different fields and pixel types, so the code is written once over `Chan`; `videoCallback`,
`depthCallback`, `getVideo` and `getDepth` are that code at their channel.

A call of one of the four methods is one atomic step: its body runs under the mutex of its channel,
and shares no field with the other channel. The frame buffers belong to libfreenect, which is not
part of this repository. They are the store `Buffers`; `DriverStep.write` is libfreenect filling one
pixel of one buffer, on its own thread and under no mutex of the device.

`m_buffer_depth`, `m_buffer_video`, `m_gamma` and `ownMat` are initialised by the constructor and
read by no method; they are left out.
-/
import NinjaVision.Lib.Machine
import Mathlib.Logic.Function.Basic

namespace NinjaVision

/-! ## §1 — images and channels. -/

/-- Rows and columns of every frame: `Size(640,480)`. -/
abbrev imageRows : ℕ := 480
abbrev imageCols : ℕ := 640

/-- A pixel position: row and column. -/
abbrev Pixel := Fin imageRows × Fin imageCols

/-- A 640 x 480 image with samples in `α`. -/
abbrev Image (α : Type) := Pixel → α

/-- A three-channel sample, in OpenCV's order. -/
structure Bgr where
  b : UInt8
  g : UInt8
  r : UInt8
  deriving DecidableEq, Repr

/-- An address of a frame buffer. -/
abbrev Addr := ℕ

/-- The two channels of the device. -/
inductive Chan where
  | video
  | depth
  deriving DecidableEq, Repr

/-- What one pixel of a channel's frame buffer holds: `CV_8UC1` and `CV_16UC1`. -/
abbrev Chan.Sample : Chan → Type
  | .video => UInt8
  | .depth => UInt16

/-- What one pixel of the caller's `Mat` holds after a successful poll. -/
abbrev Chan.Output : Chan → Type
  | .video => Bgr
  | .depth => UInt16

/-- `cvtColor(src, dst, CV_GRAY2BGR)`: the byte goes into all three channels. -/
def cvtColorGray2Bgr (src : Image UInt8) : Image Bgr := fun p => ⟨src p, src p, src p⟩

/-- How a poll fills the caller's `Mat` from the frame: `getVideo` converts, `getDepth` copies. -/
def Chan.copyOut : (c : Chan) → Image c.Sample → Image c.Output
  | .video, src => cvtColorGray2Bgr src
  | .depth, src => src

/-- The frame buffers, by channel and address. -/
abbrev Buffers := (c : Chan) → Addr → Image c.Sample

/-! ## §2 — the class. -/

/-- The fields of one channel: the `data` pointer of `videoMat` or `depthMat`, and
`m_new_video_frame` or `m_new_depth_frame`. -/
structure Channel where
  data : Addr
  newFrame : Bool
  deriving DecidableEq, Repr

/-- A `cvFreenectDevice`: the fields of its two channels. -/
abbrev Device := Chan → Channel

/-- The constructor: both flags are false, both `Mat`s still point at the buffers they allocated. -/
def cvFreenectDevice (own : Chan → Addr) : Device := fun c => ⟨own c, false⟩

/-- The body of both callbacks: store the driver's pointer and raise the flag. -/
def callback (c : Chan) (buffer : Addr) (d : Device) : Device := Function.update d c ⟨buffer, true⟩

/-- The body of both polls: with the flag up, copy the frame out, lower the flag and return true;
otherwise touch nothing and return false. The result is the return value, the caller's `Mat` and the
device. -/
def poll (c : Chan) (buffers : Buffers) (output : Image c.Output) (d : Device) :
    Bool × Image c.Output × Device :=
  if (d c).newFrame then
    (true, c.copyOut (buffers c (d c).data), Function.update d c { d c with newFrame := false })
  else
    (false, output, d)

def videoCallback (video : Addr) (d : Device) : Device := callback .video video d

def depthCallback (depth : Addr) (d : Device) : Device := callback .depth depth d

def getVideo (buffers : Buffers) (output : Image Bgr) (d : Device) : Bool × Image Bgr × Device :=
  poll .video buffers output d

def getDepth (buffers : Buffers) (output : Image UInt16) (d : Device) :
    Bool × Image UInt16 × Device :=
  poll .depth buffers output d

@[simp] theorem callback_self (c : Chan) (buffer : Addr) (d : Device) :
    callback c buffer d c = ⟨buffer, true⟩ := Function.update_self ..

theorem callback_other {c c' : Chan} (h : c' ≠ c) (buffer : Addr) (d : Device) :
    callback c buffer d c' = d c' := Function.update_of_ne h ..

theorem poll_fresh {c : Chan} {d : Device} (h : (d c).newFrame = true) (buffers : Buffers)
    (output : Image c.Output) :
    poll c buffers output d =
      (true, c.copyOut (buffers c (d c).data),
        Function.update d c { d c with newFrame := false }) :=
  if_pos h

theorem poll_stale {c : Chan} {d : Device} (h : (d c).newFrame = false) (buffers : Buffers)
    (output : Image c.Output) : poll c buffers output d = (false, output, d) :=
  if_neg (by rw [h]; exact Bool.false_ne_true)

/-- The return value of a poll is the flag. -/
theorem poll_took (c : Chan) (buffers : Buffers) (output : Image c.Output) (d : Device) :
    (poll c buffers output d).1 = (d c).newFrame := by
  cases h : (d c).newFrame with
  | true => rw [poll_fresh h]
  | false => rw [poll_stale h]

/-- A poll leaves its own channel with the same pointer and the flag down. -/
theorem poll_self (c : Chan) (buffers : Buffers) (output : Image c.Output) (d : Device) :
    (poll c buffers output d).2.2 c = ⟨(d c).data, false⟩ := by
  cases h : (d c).newFrame with
  | true => rw [poll_fresh h]; simp
  | false =>
      rw [poll_stale h]
      show d c = ⟨(d c).data, false⟩
      rw [← h]

theorem poll_other {c c' : Chan} (h : c' ≠ c) (buffers : Buffers) (output : Image c.Output)
    (d : Device) : (poll c buffers output d).2.2 c' = d c' := by
  cases hf : (d c).newFrame with
  | true => rw [poll_fresh hf]; simp [h]
  | false => rw [poll_stale hf]

/-! ## §3 — the device between its two threads. -/

/-- What libfreenect's thread does: fill one pixel of a buffer, or call a callback with its
address. -/
inductive DriverStep where
  | write (c : Chan) (buffer : Addr) (p : Pixel) (v : c.Sample)
  | callback (c : Chan) (buffer : Addr)

/-- One step of either thread; a poll comes with the contents of the caller's `Mat`. -/
inductive Call where
  | driver (d : DriverStep)
  | get (c : Chan) (output : Image c.Output)

/-- What a step returns: nothing, or the result of a poll and the caller's `Mat` after it. -/
inductive Answer where
  | done
  | got (c : Chan) (took : Bool) (output : Image c.Output)

/-- The frame buffers and the device. -/
structure World where
  buffers : Buffers
  device : Device

/-- Writing one pixel of one buffer. -/
def Buffers.write (s : Buffers) (c : Chan) (buffer : Addr) (p : Pixel) (v : c.Sample) : Buffers :=
  Function.update s c (Function.update (s c) buffer (Function.update (s c buffer) p v))

@[simp] theorem Buffers.write_self (s : Buffers) (c : Chan) (a : Addr) (p : Pixel) (v : c.Sample) :
    s.write c a p v c a p = v := by
  simp [Buffers.write]

theorem Buffers.write_chan {c c' : Chan} (h : c' ≠ c) (s : Buffers) (a : Addr) (p : Pixel)
    (v : c.Sample) : s.write c a p v c' = s c' := Function.update_of_ne h ..

theorem Buffers.write_other (s : Buffers) (c : Chan) {a a' : Addr} {p p' : Pixel} (v : c.Sample)
    (h : ¬ (a' = a ∧ p' = p)) : s.write c a p v c a' p' = s c a' p' := by
  by_cases ha : a' = a
  · subst ha
    have hp : p' ≠ p := fun hp => h ⟨rfl, hp⟩
    simp [Buffers.write, hp]
  · simp [Buffers.write, ha]

/-- One step of libfreenect. -/
def World.driver (w : World) : DriverStep → World
  | .write c buffer p v => { w with buffers := w.buffers.write c buffer p v }
  | .callback .video buffer => { w with device := videoCallback buffer w.device }
  | .callback .depth buffer => { w with device := depthCallback buffer w.device }

/-- One step of either thread. -/
def World.step (w : World) : Call → World × Answer
  | .driver d => (w.driver d, .done)
  | .get .video output =>
      let r := getVideo w.buffers output w.device
      ({ w with device := r.2.2 }, .got .video r.1 r.2.1)
  | .get .depth output =>
      let r := getDepth w.buffers output w.device
      ({ w with device := r.2.2 }, .got .depth r.1 r.2.1)

/-- The device as a machine that answers calls. -/
def hub : Lib.Machine World Call Answer := ⟨World.step⟩

/-- A freshly constructed device over arbitrary buffer contents. -/
def boot (own : Chan → Addr) (buffers : Buffers) : World := ⟨buffers, cvFreenectDevice own⟩

theorem driver_callback (w : World) (c : Chan) (buffer : Addr) :
    w.driver (.callback c buffer) = { w with device := callback c buffer w.device } := by
  cases c <;> rfl

@[simp] theorem hub_step_driver (w : World) (d : DriverStep) :
    hub.step w (.driver d) = (w.driver d, .done) := rfl

@[simp] theorem hub_step_get (w : World) (c : Chan) (output : Image c.Output) :
    hub.step w (.get c output) =
      ({ w with device := (poll c w.buffers output w.device).2.2 },
        .got c (poll c w.buffers output w.device).1 (poll c w.buffers output w.device).2.1) := by
  cases c <;> rfl

end NinjaVision
