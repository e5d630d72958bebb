/-
# NinjaVision.Main.Loop — the process: `main`'s loop next to libfreenect's thread.

A process is the frame buffers and the device, `main`'s `videoMat`, the number of times it called
`rand()`, and where `main` stands: at the loop head, or before one of the three Puts of an
iteration. One step is a step of libfreenect or the next step of `main`, in any order: a poll
together with the work on the frame it gave, or one Put. The vectors of an iteration are local to
it, so they are carried by the positions between the poll and the last Put and by nothing else.

A step answers with what it did (`Act`): a stale poll, a fresh poll with the frame it consumed, or a
Put with its arguments. `main` ignores what a Put returns, so the process runs without the table;
the table after a run is that of the Puts of the run (`tableAfter`). Between any two steps another
client can read it.

`run_law` is the one fact about runs everything else is read from: the Puts made, followed by those
still due in the current iteration, are those of the consumed frames, three for each, in order.
-/
import NinjaVision.Main.Frame
import NinjaVision.Table.NetworkTable

namespace NinjaVision

open Lib (ExactDouble)

variable {K : Type*}

/-! ## §1 — the process. -/

/-- Where `main` stands: at `while (true)`, or before a Put of the iteration that computed `t`. -/
inductive Position (K : Type*) where
  | loopHead
  | putWatchdog (t : Targets K)
  | putDistances (t : Targets K)
  | putAzimuths (t : Targets K)

/-- The state of the process. -/
structure Vision (K : Type*) where
  world : World
  videoMat : Image Bgr
  randCalls : ℕ
  position : Position K

/-- A process that just started: a black `videoMat`, a fresh device, no call of `rand()` yet. -/
def started (own : Chan → Addr) (buffers : Buffers) : Vision K :=
  ⟨boot own buffers, fun _ => ⟨0, 0, 0⟩, 0, .loopHead⟩

/-- Whose step it is. -/
inductive Event where
  | driver (d : DriverStep)
  | main

/-- What a step did; a fresh poll comes with the IR frame it copied. -/
inductive Act (K : Type*) where
  | idle
  | stale
  | fresh (ir : Image UInt8)
  | put (p : Put K)

/-- The frame behind the device's `videoMat` header. -/
def World.videoFrame (w : World) : Image UInt8 := w.buffers .video (w.device .video).data

/-- The frame a step consumed. -/
def Act.frames : Act K → List (Image UInt8)
  | .fresh ir => [ir]
  | _ => []

/-- The Put a step made. -/
def Act.puts : Act K → List (Put K)
  | .put p => [p]
  | _ => []

/-- The frames consumed in a history, in order. -/
def frames (h : List (Event × Act K)) : List (Image UInt8) := h.flatMap fun e => e.2.frames

/-- The Puts made in a history, in order. -/
def puts (h : List (Event × Act K)) : List (Put K) := h.flatMap fun e => e.2.puts

theorem frames_cons (e : Event × Act K) (h : List (Event × Act K)) :
    frames (e :: h) = e.2.frames ++ frames h :=
  List.flatMap_cons

theorem frames_concat (h : List (Event × Act K)) (e : Event × Act K) :
    frames (h ++ [e]) = frames h ++ e.2.frames := by
  simp [frames]

theorem puts_concat (h : List (Event × Act K)) (e : Event × Act K) :
    puts (h ++ [e]) = puts h ++ e.2.puts := by
  simp [puts]

/-- The number of frames consumed by the process: one more than the calls of `rand()` while the
watchdog of the latest is due. -/
def consumedFrames (s : Vision K) : ℕ :=
  match s.position with
  | .putWatchdog _ => s.randCalls + 1
  | _ => s.randCalls

/-- The number of Puts of the current iteration that were made. -/
def Position.done : Position K → ℕ
  | .loopHead => 3
  | .putWatchdog _ => 0
  | .putDistances _ => 1
  | .putAzimuths _ => 2

/-! ## §2 — one step, and the table. -/

variable [Field K]

/-- The Puts still due in the current iteration. -/
def due (lib : Libraries K) (s : Vision K) : List (Put K) :=
  match s.position with
  | .loopHead => []
  | .putWatchdog t =>
      [putNumber "watchdog" (.finite (lib.rand s.randCalls : ℕ)),
        putNumberArray "distances" t.distances, putNumberArray "azimuths" t.azimuths]
  | .putDistances t =>
      [putNumberArray "distances" t.distances, putNumberArray "azimuths" t.azimuths]
  | .putAzimuths t => [putNumberArray "azimuths" t.azimuths]

theorem due_length (lib : Libraries K) (s : Vision K) :
    (due lib s).length = 3 - s.position.done := by
  unfold due Position.done
  cases s.position <;> rfl

variable [LinearOrder K]

/-- The next step of `main`. -/
def Vision.main (lib : Libraries K) (s : Vision K) : Vision K × Act K :=
  match s.position with
  | .loopHead =>
      let r := getVideo s.world.buffers s.videoMat s.world.device
      let s' := { s with videoMat := r.2.1, world := { s.world with device := r.2.2 } }
      -- `if(!device.getVideo(videoMat)) continue;`
      if !r.1 then (s', .stale)
      else ({ s' with position := .putWatchdog (processFrame lib r.2.1) },
        .fresh s.world.videoFrame)
  | .putWatchdog t =>
      ({ s with randCalls := s.randCalls + 1, position := .putDistances t },
        .put (putNumber "watchdog" (.finite (lib.rand s.randCalls : ℕ))))
  | .putDistances t =>
      ({ s with position := .putAzimuths t }, .put (putNumberArray "distances" t.distances))
  | .putAzimuths t =>
      ({ s with position := .loopHead }, .put (putNumberArray "azimuths" t.azimuths))

/-- One step of the process. -/
def Vision.step (lib : Libraries K) (s : Vision K) : Event → Vision K × Act K
  | .driver d => ({ s with world := s.world.driver d }, .idle)
  | .main => s.main lib

/-- The process as a machine. -/
def process (lib : Libraries K) : Lib.Machine (Vision K) Event (Act K) := ⟨Vision.step lib⟩

/-- The table after a run of a process, over the entries it had before. -/
def tableAfter (lib : Libraries K) (t₀ : NetworkTable K) (s₀ : Vision K) (events : List Event) :
    NetworkTable K := t₀.putAll Value.type (puts ((process lib).trace s₀ events))

/-! ## §3 — the Puts of the consumed frames. -/

/-- The three Puts of the frame number `n` of a process. -/
def framePuts (lib : Libraries K) (n : ℕ) (ir : Image UInt8) : List (Put K) :=
  [putNumber "watchdog" (.finite (lib.rand n : ℕ)),
    putNumberArray "distances" (reference lib ir).distances,
    putNumberArray "azimuths" (reference lib ir).azimuths]

/-- The Puts of consecutive frames, from number `n`. -/
def published (lib : Libraries K) : ℕ → List (Image UInt8) → List (Put K)
  | _, [] => []
  | n, ir :: irs => framePuts lib n ir ++ published lib (n + 1) irs

theorem published_append (lib : Libraries K) (n : ℕ) (irs irs' : List (Image UInt8)) :
    published lib n (irs ++ irs') = published lib n irs ++ published lib (n + irs.length) irs' := by
  induction irs generalizing n with
  | nil => rfl
  | cons ir irs ih =>
      have hn : n + 1 + irs.length = n + (ir :: irs).length := by
        rw [List.length_cons]
        omega
      rw [List.cons_append, published, published, ih, hn, List.append_assoc]

theorem published_concat (lib : Libraries K) (n : ℕ) (irs : List (Image UInt8)) (ir : Image UInt8) :
    published lib n (irs ++ [ir]) = published lib n irs ++ framePuts lib (n + irs.length) ir := by
  rw [published_append, published, published, List.append_nil]

/-! ## §4 — the step law. -/

/-- A poll of `main` with the flag down changes nothing. -/
theorem main_stale (lib : Libraries K) {s : Vision K} (hpos : s.position = .loopHead)
    (hflag : (s.world.device .video).newFrame = false) : s.main lib = (s, .stale) := by
  obtain ⟨world, videoMat, randCalls, position⟩ := s
  obtain rfl : position = .loopHead := hpos
  have hpoll := poll_stale (d := world.device) hflag world.buffers videoMat
  simp only [Vision.main, getVideo, hpoll, Bool.not_false, if_true]

/-- A poll of `main` with the flag up copies the frame, lowers the flag, and leaves the reference of
the frame before the first Put. -/
theorem main_fresh (lib : Libraries K) {s : Vision K} (hpos : s.position = .loopHead)
    (hflag : (s.world.device .video).newFrame = true) :
    s.main lib =
      ({ world := ⟨s.world.buffers,
          Function.update s.world.device .video { s.world.device .video with newFrame := false }⟩
         videoMat := cvtColorGray2Bgr s.world.videoFrame
         randCalls := s.randCalls
         position := .putWatchdog (reference lib s.world.videoFrame) },
  .fresh s.world.videoFrame) := by
  have hpoll := poll_fresh hflag s.world.buffers s.videoMat
  simp only [Vision.main, getVideo, hpos, hpoll, Bool.not_true, Bool.false_eq_true, if_false,
    Chan.copyOut, processFrame_gray]
  rfl

theorem main_putWatchdog (lib : Libraries K) {s : Vision K} {t : Targets K}
    (hpos : s.position = .putWatchdog t) :
    s.main lib = ({ s with randCalls := s.randCalls + 1, position := .putDistances t },
      .put (putNumber "watchdog" (.finite (lib.rand s.randCalls : ℕ)))) := by
  rw [Vision.main, hpos]

theorem main_putDistances (lib : Libraries K) {s : Vision K} {t : Targets K}
    (hpos : s.position = .putDistances t) :
    s.main lib
      = ({ s with position := .putAzimuths t }, .put (putNumberArray "distances" t.distances)) := by
  rw [Vision.main, hpos]

theorem main_putAzimuths (lib : Libraries K) {s : Vision K} {t : Targets K}
    (hpos : s.position = .putAzimuths t) :
    s.main lib
      = ({ s with position := .loopHead }, .put (putNumberArray "azimuths" t.azimuths)) := by
  rw [Vision.main, hpos]

/-- **The step law**: what a step puts, and what is due after it, is what was due before it and the
Puts of the frame it consumed, if any. -/
theorem step_law (lib : Libraries K) (s : Vision K) (e : Event) :
    ((process lib).step s e).2.puts ++ due lib ((process lib).step s e).1
        = due lib s ++ published lib (consumedFrames s) ((process lib).step s e).2.frames ∧
      consumedFrames ((process lib).step s e).1
        = consumedFrames s + ((process lib).step s e).2.frames.length := by
  cases e with
  | driver d =>
      refine ⟨?_, rfl⟩
      show due lib s = due lib s ++ []
      rw [List.append_nil]
  | main =>
      show (s.main lib).2.puts ++ due lib (s.main lib).1
        = _ ++ published lib _ (s.main lib).2.frames ∧
        consumedFrames (s.main lib).1 = _ + (s.main lib).2.frames.length
      cases hpos : s.position with
      | loopHead =>
          have hdue : due lib s = [] := by unfold due; rw [hpos]
          have hcount : consumedFrames s = s.randCalls := by unfold consumedFrames; rw [hpos]
          cases hflag : (s.world.device .video).newFrame with
          | false =>
              rw [main_stale lib hpos hflag]
              refine ⟨?_, rfl⟩
              show due lib s = due lib s ++ []
              rw [List.append_nil]
          | true =>
              rw [main_fresh lib hpos hflag, hdue, hcount]
              exact ⟨rfl, rfl⟩
      -- a Put moves from the front of what is due to what was made
      | putWatchdog t =>
          rw [main_putWatchdog lib hpos]
          simp [hpos, due, consumedFrames, Act.puts, Act.frames, published]
      | putDistances t =>
          rw [main_putDistances lib hpos]
          simp [hpos, due, consumedFrames, Act.puts, Act.frames, published]
      | putAzimuths t =>
          rw [main_putAzimuths lib hpos]
          simp [hpos, due, consumedFrames, Act.puts, Act.frames, published]

/-! ## §5 — whole runs. -/

/-- **The run law.** From any loop head and for any order of steps, the Puts made and those still
due are together the Puts of the consumed frames, in order. -/
theorem run_law (lib : Libraries K) {s₀ : Vision K} (hpos : s₀.position = .loopHead)
    (events : List Event) :
    puts ((process lib).trace s₀ events) ++ due lib ((process lib).run s₀ events)
        = published lib s₀.randCalls (frames ((process lib).trace s₀ events)) ∧
      consumedFrames ((process lib).run s₀ events)
        = s₀.randCalls + (frames ((process lib).trace s₀ events)).length := by
  refine (process lib).history_invariant
    (fun s h => puts h ++ due lib s = published lib s₀.randCalls (frames h) ∧
      consumedFrames s = s₀.randCalls + (frames h).length) ?_ ?_ events
  · have hdue : due lib s₀ = [] := by unfold due; rw [hpos]
    have hcount : consumedFrames s₀ = s₀.randCalls := by unfold consumedFrames; rw [hpos]
    exact ⟨hdue, hcount⟩
  · rintro s h e ⟨hputs, hcount⟩
    obtain ⟨hstep, hstepCount⟩ := step_law lib s e
    refine ⟨?_, ?_⟩
    · rw [puts_concat, frames_concat, List.append_assoc, hstep, ← List.append_assoc, hputs, hcount,
        ← published_append]
    · rw [frames_concat, List.length_append, hstepCount, hcount, add_assoc]

/-- The Puts made up to a point inside an iteration: all those of the earlier frames, and the first
ones of the latest frame. -/
theorem puts_eq (lib : Libraries K) {s₀ : Vision K} (hpos : s₀.position = .loopHead)
    {events : List Event} {irs : List (Image UInt8)} {ir : Image UInt8}
    (hframes : frames ((process lib).trace s₀ events) = irs ++ [ir]) :
    puts ((process lib).trace s₀ events) = published lib s₀.randCalls irs ++
      (framePuts lib (s₀.randCalls + irs.length) ir).take
        ((process lib).run s₀ events).position.done := by
  have hlaw := (run_law lib hpos events).1
  rw [hframes, published_concat] at hlaw
  set k := ((process lib).run s₀ events).position.done with hk
  -- what is due is as long as the end of the frame's Puts that is not made, so the two lists split
  -- alike
  have hlen : (due lib ((process lib).run s₀ events)).length
      = ((framePuts lib (s₀.randCalls + irs.length) ir).drop k).length := by
    rw [due_length, List.length_drop]
    rfl
  rw [← List.take_append_drop k (framePuts lib (s₀.randCalls + irs.length) ir),
    ← List.append_assoc] at hlaw
  exact (List.append_inj' hlaw hlen).1

/-- At a loop head all Puts of all consumed frames were made. -/
theorem puts_at_loopHead (lib : Libraries K) {s₀ : Vision K} (hpos : s₀.position = .loopHead)
    {events : List Event} (hend : ((process lib).run s₀ events).position = .loopHead) :
    puts ((process lib).trace s₀ events)
      = published lib s₀.randCalls (frames ((process lib).trace s₀ events)) := by
  have hlaw := (run_law lib hpos events).1
  have hdue : due lib ((process lib).run s₀ events) = [] := by unfold due; rw [hend]
  rwa [hdue, List.append_nil] at hlaw

end NinjaVision
