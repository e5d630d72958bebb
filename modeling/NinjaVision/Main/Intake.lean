/-
# NinjaVision.Main.Intake — `main` is the polling thread of the device.

The results about the device are about runs of its calls, from both threads. Here the process is
shown to be such a run: the steps of libfreenect are its own, and `main` polls the video channel
whenever it stands at the loop head (`deviceCalls`). The world of the process is the world of that
run of the device, and the frames that `main` consumes are what the successful polls of the run
copied out (`process_refines_hub`).

So what holds of every run of the device holds of the frames behind the published entries.
`frames_intact_iff` is snapshot integrity for them: `main` works on the frames that were handed over
exactly when libfreenect's writes leave every pending frame as it was.
-/
import NinjaVision.Device.Snapshot
import NinjaVision.Main.Loop

namespace NinjaVision

variable {K : Type*} [Field K] [LinearOrder K]

/-! ## §1 — the process is a run of the device. -/

/-- The calls one step of the process makes on the device. -/
def stepCalls (s : Vision K) : Event → List Call
  | .driver d => [.driver d]
  | .main =>
      match s.position with
      | .loopHead => [.get .video s.videoMat]
      | _ => []

omit [Field K] [LinearOrder K] in
/-- At the loop head `main` polls. -/
theorem stepCalls_poll {s : Vision K} (hpos : s.position = .loopHead) :
    stepCalls s .main = [.get .video s.videoMat] := by
  rw [stepCalls, hpos]

/-- The calls a run of the process makes on the device. -/
def deviceCalls (lib : Libraries K) : Vision K → List Event → List Call
  | _, [] => []
  | s, e :: events => stepCalls s e ++ deviceCalls lib ((process lib).step s e).1 events

/-- What a successful poll of the video channel copied out. -/
def polledFrame : Call × Answer → Option (Image Bgr)
  | (_, .got .video true output) => some output
  | _ => none

/-- The frames copied out in a history of the device, in order. -/
def polledFrames (h : List (Call × Answer)) : List (Image Bgr) := h.filterMap polledFrame

theorem polledFrames_append (h₁ h₂ : List (Call × Answer)) :
    polledFrames (h₁ ++ h₂) = polledFrames h₁ ++ polledFrames h₂ :=
  List.filterMap_append

/-- One step of the process is the device's run of its calls, and consumes what they copy out. -/
theorem step_refines_hub (lib : Libraries K) (s : Vision K) (e : Event) :
    ((process lib).step s e).1.world = hub.run s.world (stepCalls s e) ∧
      polledFrames (hub.trace s.world (stepCalls s e))
        = ((process lib).step s e).2.frames.map cvtColorGray2Bgr := by
  cases e with
  | driver d => exact ⟨rfl, rfl⟩
  | main =>
      show (s.main lib).1.world = hub.run s.world (stepCalls s .main) ∧
        polledFrames (hub.trace s.world (stepCalls s .main))
          = (s.main lib).2.frames.map cvtColorGray2Bgr
      cases hpos : s.position with
      | loopHead =>
          rw [stepCalls_poll hpos, Lib.Machine.run_cons, Lib.Machine.run_nil,
            Lib.Machine.trace_cons, Lib.Machine.trace_nil, hub_step_get]
          cases hflag : (s.world.device .video).newFrame with
          | false =>
              rw [main_stale lib hpos hflag, poll_stale hflag]
              exact ⟨rfl, rfl⟩
          | true =>
              rw [main_fresh lib hpos hflag, poll_fresh hflag]
              exact ⟨rfl, rfl⟩
      -- between the loop head and the last Put `main` does not touch the device
      | putWatchdog t =>
          rw [main_putWatchdog lib hpos, stepCalls, hpos]
          exact ⟨rfl, rfl⟩
      | putDistances t =>
          rw [main_putDistances lib hpos, stepCalls, hpos]
          exact ⟨rfl, rfl⟩
      | putAzimuths t =>
          rw [main_putAzimuths lib hpos, stepCalls, hpos]
          exact ⟨rfl, rfl⟩

/-- **The process is a run of the device**: same world, and the consumed frames are the polled
ones. -/
theorem process_refines_hub (lib : Libraries K) (s : Vision K) (events : List Event) :
    ((process lib).run s events).world = hub.run s.world (deviceCalls lib s events) ∧
      polledFrames (hub.trace s.world (deviceCalls lib s events))
        = (frames ((process lib).trace s events)).map cvtColorGray2Bgr := by
  induction events generalizing s with
  | nil => exact ⟨rfl, rfl⟩
  | cons e events ih =>
      obtain ⟨hworld, hframes⟩ := step_refines_hub lib s e
      obtain ⟨ihWorld, ihFrames⟩ := ih ((process lib).step s e).1
      rw [hworld] at ihWorld ihFrames
      rw [Lib.Machine.run_cons, Lib.Machine.trace_cons, deviceCalls, Lib.Machine.run_append,
        Lib.Machine.trace_append]
      refine ⟨ihWorld, ?_⟩
      -- the step's calls come first in both histories, the rest of the run is the induction
      -- hypothesis
      rw [polledFrames_append, frames_cons, List.map_append, hframes, ihFrames]

/-! ## §2 — which step made a call. -/

omit [Field K] [LinearOrder K] in
/-- A step makes one call at most. -/
theorem stepCalls_cases (s : Vision K) (e : Event) :
    stepCalls s e = [] ∨ ∃ call, stepCalls s e = [call] := by
  cases e with
  | driver d => exact Or.inr ⟨_, rfl⟩
  | main =>
      cases hpos : s.position with
      | loopHead => exact Or.inr ⟨_, stepCalls_poll hpos⟩
      | _ => exact Or.inl (by rw [stepCalls, hpos])

omit [Field K] [LinearOrder K] in
theorem stepCalls_callback {s : Vision K} {e : Event} {c : Chan} {a : Addr}
    (h : stepCalls s e = [.driver (.callback c a)]) : e = .driver (.callback c a) := by
  cases e with
  | driver d =>
      rw [stepCalls, List.singleton_inj, Call.driver.injEq] at h
      rw [h]
  | main =>
      rw [stepCalls] at h
      split at h <;> cases h

omit [Field K] [LinearOrder K] in
/-- Only `main` at the loop head polls, and it polls the video channel. -/
theorem stepCalls_get {s : Vision K} {e : Event} {output : Image Bgr}
    (h : stepCalls s e = [.get .video output]) : e = .main ∧ s.position = .loopHead := by
  cases e with
  | driver d => cases h
  | main =>
      refine ⟨rfl, ?_⟩
      rw [stepCalls] at h
      split at h
      · next hpos => exact hpos
      · cases h

theorem deviceCalls_append (lib : Libraries K) (s : Vision K) (events events' : List Event) :
    deviceCalls lib s (events ++ events')
      = deviceCalls lib s events ++ deviceCalls lib ((process lib).run s events) events' := by
  induction events generalizing s with
  | nil => rfl
  | cons e events ih =>
      rw [List.cons_append, deviceCalls, deviceCalls, ih, List.append_assoc]
      rfl

/-- A callback is among the calls of a run exactly when it is among its events. -/
theorem callback_mem_deviceCalls (lib : Libraries K) (s : Vision K) (events : List Event) (c : Chan)
    (a : Addr) : Call.driver (.callback c a) ∈ deviceCalls lib s events ↔
      Event.driver (.callback c a) ∈ events := by
  induction events generalizing s with
  | nil => exact iff_of_false List.not_mem_nil List.not_mem_nil
  | cons e events ih =>
      rw [deviceCalls, List.mem_append, ih, List.mem_cons]
      refine or_congr_left ⟨fun h => ?_, fun h => ?_⟩
      · rcases stepCalls_cases s e with hnone | ⟨call, hone⟩
        · rw [hnone] at h
          exact absurd h List.not_mem_nil
        · rw [hone, List.mem_singleton] at h
          rw [← h] at hone
          exact (stepCalls_callback hone).symm
      · rw [← h]
        exact List.mem_singleton_self _

/-- **Each call of a run was made by one step.** -/
theorem deviceCalls_split (lib : Libraries K) {s : Vision K} {events : List Event} {pre : List Call}
    {call : Call} {post : List Call} (h : deviceCalls lib s events = pre ++ call :: post) :
    ∃ before e after, events = before ++ e :: after ∧ deviceCalls lib s before = pre ∧
      stepCalls ((process lib).run s before) e = [call] ∧
      deviceCalls lib ((process lib).run s (before ++ [e])) after = post := by
  induction events generalizing s pre with
  | nil => exact absurd h (by simp [deviceCalls])
  | cons e events ih =>
      rw [deviceCalls] at h
      -- the call was made by the first step, or by one of the rest
      rcases stepCalls_cases s e with hnone | ⟨first, hone⟩
      · rw [hnone, List.nil_append] at h
        obtain ⟨before, e', after, rfl, hbefore, hcall, hafter⟩ := ih h
        refine ⟨e :: before, e', after, rfl, ?_, hcall, hafter⟩
        rw [deviceCalls, hnone, List.nil_append, hbefore]
      · rw [hone, List.singleton_append] at h
        cases pre with
        | nil =>
            obtain ⟨rfl, hpost⟩ := List.cons.inj h
            exact ⟨[], e, events, rfl, rfl, hone, hpost⟩
        | cons call' pre =>
            obtain ⟨rfl, htail⟩ := List.cons.inj h
            obtain ⟨before, e', after, rfl, hbefore, hcall, hafter⟩ := ih htail
            refine ⟨e :: before, e', after, rfl, ?_, hcall, hafter⟩
            rw [deviceCalls, hone, hbefore, List.singleton_append]

/-! ## §3 — the consumed frames are those that were handed over. -/

/-- Every frame that `main` consumes in the run is what the buffer of the most recent callback held
at that callback. -/
def FramesIntact (lib : Libraries K) (s₀ : Vision K) (events : List Event) : Prop :=
  ∀ pre a mid post ir, events = pre ++ .driver (.callback .video a) :: (mid ++ .main :: post) →
    (∀ b, Event.driver (.callback .video b) ∉ mid) →
    ((process lib).step
      ((process lib).run s₀ (pre ++ .driver (.callback .video a) :: mid)) .main).2 = .fresh ir →
    ir = ((process lib).run s₀ pre).world.buffers .video a

/-- What a fresh poll consumes. -/
theorem fresh_inv (lib : Libraries K) {s : Vision K} {ir : Image UInt8}
    (h : ((process lib).step s .main).2 = .fresh ir) :
    s.position = .loopHead ∧ (s.world.device .video).newFrame = true ∧ ir = s.world.videoFrame := by
  change (s.main lib).2 = .fresh ir at h
  cases hpos : s.position with
  | loopHead =>
      cases hflag : (s.world.device .video).newFrame with
      | false =>
          rw [main_stale lib hpos hflag] at h
          cases h
      | true =>
          rw [main_fresh lib hpos hflag] at h
          exact ⟨rfl, rfl, (Act.fresh.inj h).symm⟩
  | putWatchdog t =>
      rw [main_putWatchdog lib hpos] at h
      cases h
  | putDistances t =>
      rw [main_putDistances lib hpos] at h
      cases h
  | putAzimuths t =>
      rw [main_putAzimuths lib hpos] at h
      cases h

/-- The world of the process from a callback on, as a world of the device. -/
theorem world_callback (lib : Libraries K) (s₀ : Vision K) (pre : List Event) (a : Addr)
    (mid : List Event) :
    ((process lib).run s₀ (pre ++ .driver (.callback .video a) :: mid)).world
      = hub.run s₀.world (deviceCalls lib s₀ pre ++ .driver (.callback .video a) ::
          deviceCalls lib ((process lib).run s₀ (pre ++ [.driver (.callback .video a)])) mid) := by
  rw [(process_refines_hub lib s₀ _).1, deviceCalls_append, deviceCalls, Lib.Machine.run_concat]
  rfl

/-- The calls of a run with a callback and a later poll. -/
theorem deviceCalls_window (lib : Libraries K) (s₀ : Vision K) (pre : List Event) (a : Addr)
    (mid post : List Event)
    (hpos : ((process lib).run s₀ (pre ++ .driver (.callback .video a) :: mid)).position
      = .loopHead) :
    ∃ output rest,
      deviceCalls lib s₀ (pre ++ .driver (.callback .video a) :: (mid ++ .main :: post))
        = deviceCalls lib s₀ pre ++ .driver (.callback .video a) ::
          (deviceCalls lib ((process lib).run s₀ (pre ++ [.driver (.callback .video a)])) mid
            ++ .get .video output :: rest) := by
  have hsplit : pre ++ .driver (.callback .video a) :: (mid ++ .main :: post)
      = pre ++ .driver (.callback .video a) :: mid ++ .main :: post := by simp
  rw [hsplit, deviceCalls_append, deviceCalls_append, deviceCalls, deviceCalls, stepCalls_poll hpos,
    Lib.Machine.run_concat, List.append_assoc]
  exact ⟨_, _, rfl⟩

/-- With every consumed frame intact, no poll finds a pixel that was left changed. -/
theorem FramesIntact.undisturbed {lib : Libraries K} {s₀ : Vision K} {events : List Event}
    (hintact : FramesIntact lib s₀ events) :
    Undisturbed .video s₀.world (deviceCalls lib s₀ events) := by
  intro pre a mid output post hcalls hcb hget p
  obtain ⟨before, e, after, rfl, rfl, he, hafter⟩ := deviceCalls_split lib hcalls
  obtain rfl := stepCalls_callback he
  obtain ⟨between, e', rest, rfl, rfl, he', -⟩ := deviceCalls_split lib hafter
  obtain ⟨rfl, hpos⟩ := stepCalls_get he'
  rw [← Lib.Machine.run_append, List.append_assoc, List.singleton_append] at hpos
  -- the poll finds the frame of the callback
  have hworld := world_callback lib s₀ before a between
  have hdevice := device_pending hcb hget s₀.world (deviceCalls lib s₀ before) a
  rw [← hworld] at hdevice
  have hflag := congrArg Channel.newFrame hdevice
  have hfresh := congrArg Prod.snd (main_fresh lib hpos hflag)
  have hcb' : ∀ b, Event.driver (.callback .video b) ∉ between := fun b hb =>
    hcb b ((callback_mem_deviceCalls lib _ between _ b).mpr hb)
  have hsame := hintact before a between rest _ (by simp) hcb' hfresh
  rw [World.videoFrame, hdevice, hworld, (process_refines_hub lib s₀ before).1] at hsame
  exact (window_unchanged_iff .video s₀.world _ a _ p).mp (congrFun hsame p)

/-- With no pixel left changed, a fresh poll consumes what was handed over. -/
theorem framesIntact_of_undisturbed {lib : Libraries K} {s₀ : Vision K} {events : List Event}
    (hund : Undisturbed .video s₀.world (deviceCalls lib s₀ events)) :
    FramesIntact lib s₀ events := by
  rintro pre a mid post ir rfl hcb hfresh
  obtain ⟨hpos, hflag, rfl⟩ := fresh_inv lib hfresh
  have hworld := world_callback lib s₀ pre a mid
  set s := (process lib).run s₀ (pre ++ .driver (.callback .video a) :: mid) with hs
  set window := deviceCalls lib ((process lib).run s₀ (pre ++ [.driver (.callback .video a)])) mid
    with hwindow
  have hcb' : ∀ b, Call.driver (.callback .video b) ∉ window := fun b hb =>
    hcb b ((callback_mem_deviceCalls lib _ mid _ b).mp hb)
  -- the poll succeeds, so it is the first one since the callback
  have htook : ∃ w' output, hub.step s.world (.get .video s.videoMat)
      = (w', .got .video true output) := by
    rw [hub_step_get, poll_fresh hflag]
    exact ⟨_, _, rfl⟩
  obtain ⟨w', output, htook⟩ := htook
  rw [hworld] at htook
  have hget := no_poll_between hcb' htook
  have hdevice := device_pending hcb' hget s₀.world (deviceCalls lib s₀ pre) a
  rw [← hworld] at hdevice
  obtain ⟨output', rest, hcalls⟩ := deviceCalls_window lib s₀ pre a mid post hpos
  funext p
  have hsame := (window_unchanged_iff .video s₀.world _ a window p).mpr
    (hund _ a window output' rest hcalls hcb' hget p)
  rw [← hworld, ← (process_refines_hub lib s₀ pre).1] at hsame
  rw [World.videoFrame, hdevice]
  exact hsame

/-- **`main` works on the frames that were handed over** exactly when its run is undisturbed. -/
theorem frames_intact_iff (lib : Libraries K) (s₀ : Vision K) (events : List Event) :
    FramesIntact lib s₀ events ↔ Undisturbed .video s₀.world (deviceCalls lib s₀ events) :=
  ⟨FramesIntact.undisturbed, framesIntact_of_undisturbed⟩

end NinjaVision
