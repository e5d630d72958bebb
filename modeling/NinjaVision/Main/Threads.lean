/-
# NinjaVision.Main.Threads — the process, a statement of one of its two threads at a time.

`Main.Loop` takes a callback or a poll of the device as one step of the process. Here libfreenect's
thread and `main` are two threads of `Device.Locking`: each waits for the mutex, runs the statements
of the method, and returns, with the statements of the other and libfreenect's writes in between.
What `main` does with the result of a poll, and its three Puts, are as in `Main.Loop`.

`refines_process` maps every run to a run of `Main.Loop` with the same visible acts: polls with what
they found, Puts with their arguments. `same_behaviours` is that the two have the same visible
histories altogether, so the one-step model neither misses nor adds one. Laws about all runs of
`Main.Loop` therefore hold between statements too (`entries_between_statements`).
-/
import NinjaVision.Device.Locking
import NinjaVision.Main.Publication

namespace NinjaVision

open Lib.Critical (Sim Window Atomic)

variable {K : Type*}

/-! ## §1 — the two threads. -/

/-- The threads of the process. -/
inductive ThreadId where
  | freenect
  | main
  deriving DecidableEq, Repr

/-- The process between two statements. -/
structure Concurrent (K : Type*) where
  device : Threads ThreadId
  videoMat : Image Bgr
  randCalls : ℕ
  position : Position K

/-- A process that just started, with no thread in a method. -/
def startedThreads (own : Chan → Addr) (buffers : Buffers) : Concurrent K :=
  ⟨bootThreads own buffers, fun _ => ⟨0, 0, 0⟩, 0, .loopHead⟩

/-- Whose step it is: libfreenect writes a pixel or calls a callback, its thread takes a step in the
callback it is in, or `main` takes its next step. -/
inductive Statement where
  | driver (d : DriverStep)
  | freenect
  | main

/-- What libfreenect begins, as a step of the threads. -/
def DriverStep.begins : DriverStep → ThreadStep ThreadId
  | .write c buffer p v => .write ⟨c, buffer, p⟩ v
  | .callback c buffer => .call .freenect (.callback c buffer)

/-- The next step of `main` in `device.getVideo(videoMat)`. -/
def Concurrent.polling (s : Concurrent K) : ThreadStep ThreadId :=
  match s.device.thread .main with
  | .idle => .call .main (.get .video s.videoMat)
  | _ => .run .main

section Step

variable [Field K] [LinearOrder K]

/-- What `main` does when `getVideo` returns; until then it stays at the loop head. -/
def Concurrent.polled (lib : Libraries K) (s : Concurrent K) (device : Threads ThreadId) :
    Option (Method × Answer) → Concurrent K × Act K
  | some (_, .got .video took output) =>
      let s' := { s with device := device, videoMat := output }
      -- `if(!device.getVideo(videoMat)) continue;`
      if !took then (s', .stale)
      else ({ s' with position := .putWatchdog (processFrame lib output) },
        .fresh fun p => (output p).b)
  | _ => ({ s with device := device }, .idle)

/-- The next step of `main`. -/
def Concurrent.main (scan : Scan) (lib : Libraries K) (s : Concurrent K) : Concurrent K × Act K :=
  match s.position with
  | .loopHead =>
      let r := (threads scan).step s.device s.polling
      s.polled lib r.1 r.2
  | .putWatchdog t =>
      ({ s with randCalls := s.randCalls + 1, position := .putDistances t },
        .put (putNumber "watchdog" (.finite (lib.rand s.randCalls : ℕ))))
  | .putDistances t =>
      ({ s with position := .putAzimuths t }, .put (putNumberArray "distances" t.distances))
  | .putAzimuths t =>
      ({ s with position := .loopHead }, .put (putNumberArray "azimuths" t.azimuths))

/-- One step of the process. -/
def Concurrent.step (scan : Scan) (lib : Libraries K) (s : Concurrent K) :
    Statement → Concurrent K × Act K
  | .driver d => ({ s with device := ((threads scan).step s.device d.begins).1 }, .idle)
  | .freenect => ({ s with device := ((threads scan).step s.device (.run .freenect)).1 }, .idle)
  | .main => s.main scan lib

/-- The process between statements as a machine. -/
def statements (scan : Scan) (lib : Libraries K) : Lib.Machine (Concurrent K) Statement (Act K) :=
  ⟨Concurrent.step scan lib⟩

end Step

/-! ## §2 — what can be seen of a run. -/

/-- Polls that returned, and Puts. -/
def Act.visible : Act K → Bool
  | .idle => false
  | _ => true

/-- The visible acts of a history, in order. -/
def visible {ι : Type*} (h : List (ι × Act K)) : List (Act K) := (h.map Prod.snd).filter Act.visible

theorem visible_cons {ι : Type*} (e : ι × Act K) (h : List (ι × Act K)) :
    visible (e :: h) = [e.2].filter Act.visible ++ visible h := by
  rw [visible, List.map_cons, List.filter_cons]
  cases hv : Act.visible e.2 with
  | true => rw [List.filter_cons_of_pos hv]; rfl
  | false => rw [List.filter_cons_of_neg (by rw [hv]; exact Bool.false_ne_true)]; rfl

theorem visible_append {ι : Type*} (h h' : List (ι × Act K)) :
    visible (h ++ h') = visible h ++ visible h' := by
  rw [visible, List.map_append, List.filter_append]
  rfl

/-- The frames consumed and the Puts made are among the visible acts. -/
theorem visible_flatMap {ι β : Type*} {f : Act K → List β} (hidle : f .idle = [])
    (h : List (ι × Act K)) : (visible h).flatMap f = h.flatMap fun e => f e.2 := by
  induction h with
  | nil => rfl
  | cons e h ih =>
      rw [visible_cons, List.flatMap_append, ih, List.flatMap_cons]
      rcases e with ⟨i, _ | _ | ir | p⟩
      · rw [hidle]; rfl
      all_goals
        rw [List.filter_cons_of_pos rfl, List.filter_nil, List.flatMap_singleton]

/-! ## §3 — the run of the process behind a run of the threads. -/

/-- The event of the process that a call of the device is part of: `main` makes all polls. -/
def Call.event : Call → Event
  | .driver d => .driver d
  | .get _ _ => .main

/-- What a statement is for the threads of the device: nothing, if it is a Put. -/
def Concurrent.action (s : Concurrent K) : Statement → Option (ThreadStep ThreadId)
  | .driver d => some d.begins
  | .freenect => some (.run .freenect)
  | .main =>
      match s.position with
      | .loopHead => some s.polling
      | _ => none

/-- What a statement does to the windows of the channels, and the events of the process it comes
to. -/
def Concurrent.linearize (scan : Scan) (s : Concurrent K) (g : Chan → Window Cell.Sample)
    (e : Statement) : (Chan → Window Cell.Sample) × List Event :=
  match s.action e with
  | some act =>
      let r := (deviceSystem scan).linearize s.device g act
      (r.1, (r.2.map callOf).map Call.event)
  | none => (g, [.main])

section Refinement

variable [Field K] [LinearOrder K]

/-- The events of the process behind a run of the threads. -/
def eventsFrom (scan : Scan) (lib : Libraries K) :
    Concurrent K → (Chan → Window Cell.Sample) → List Statement → List Event
  | _, _, [] => []
  | s, g, e :: steps =>
      (s.linearize scan g e).2
        ++ eventsFrom scan lib ((statements scan lib).step s e).1 (s.linearize scan g e).1 steps

/-- The events of the process behind a run from the start. -/
def eventsOf (scan : Scan) (lib : Libraries K) (own : Chan → Addr) (buffers : Buffers)
    (steps : List Statement) : List Event :=
  eventsFrom scan lib (startedThreads own buffers) (fun _ => .shut) steps

/-- The windows of the channels after a run. -/
def windowsFrom (scan : Scan) (lib : Libraries K) :
    Concurrent K → (Chan → Window Cell.Sample) → List Statement → (Chan → Window Cell.Sample)
  | _, g, [] => g
  | s, g, e :: steps =>
      windowsFrom scan lib ((statements scan lib).step s e).1 (s.linearize scan g e).1 steps

theorem eventsFrom_append (scan : Scan) (lib : Libraries K) (s : Concurrent K)
    (g : Chan → Window Cell.Sample) (steps steps' : List Statement) :
    eventsFrom scan lib s g (steps ++ steps') = eventsFrom scan lib s g steps ++
      eventsFrom scan lib ((statements scan lib).run s steps) (windowsFrom scan lib s g steps)
        steps' := by
  induction steps generalizing s g with
  | nil => rfl
  | cons e steps ih =>
      rw [List.cons_append, eventsFrom, eventsFrom, ih, List.append_assoc]
      rfl

/-- The process `v` of `Main.Loop` has got as far as the threads in `s`, with the windows `g`. -/
structure Together (scan : Scan) (s : Concurrent K) (v : Vision K) (g : Chan → Window Cell.Sample) :
    Prop where
  sim : Sim (deviceSystem scan) s.device (storeOf v.world) g
  locked : (deviceSystem scan).Locked s.device
  videoMat : v.videoMat = s.videoMat
  randCalls : v.randCalls = s.randCalls
  position : v.position = s.position
  freenect : ∀ m, (s.device.thread .freenect).called = some m → ∃ c buffer, m = .callback c buffer
  main : ∀ m, (s.device.thread .main).called = some m → m = .get .video s.videoMat ∧
    s.position = .loopHead

omit [Field K] [LinearOrder K] in
theorem together_started (scan : Scan) (own : Chan → Addr) (buffers : Buffers) :
    Together (K := K) scan (startedThreads own buffers) (started own buffers) (fun _ => .shut) where
  sim := Lib.Critical.sim_started _ _
  locked := Lib.Critical.locked_started _ _
  videoMat := rfl
  randCalls := rfl
  position := rfl
  freenect _ hm := by cases hm
  main _ hm := by cases hm

/-- Steps of libfreenect in a row: the process sees none of them. -/
theorem run_drivers (lib : Libraries K) (v : Vision K) {calls : List Call}
    (hcalls : ∀ call ∈ calls, ∃ d, call = .driver d) :
    (process lib).run v (calls.map Call.event) = { v with world := hub.run v.world calls } ∧
      visible ((process lib).trace v (calls.map Call.event)) = [] := by
  induction calls generalizing v with
  | nil => exact ⟨rfl, rfl⟩
  | cons call calls ih =>
      obtain ⟨d, rfl⟩ := hcalls call List.mem_cons_self
      obtain ⟨hrun, hvisible⟩ := ih { v with world := v.world.driver d }
        fun call hcall => hcalls call (List.mem_cons_of_mem _ hcall)
      exact ⟨hrun, hvisible⟩

/-- `main` at the loop head does with the answer of the device what `Main.Loop` says. -/
theorem main_of_answer (lib : Libraries K) {v : Vision K} (hpos : v.position = .loopHead)
    {w : World} {took : Bool} {output : Image Bgr}
    (h : hub.step v.world (.get .video v.videoMat) = (w, .got .video took output)) :
    v.main lib = ({ v with
        world := w
        videoMat := output
        position := if took then .putWatchdog (processFrame lib output) else .loopHead },
      if took then .fresh fun p => (output p).b else .stale) := by
  rw [hub_step_get] at h
  obtain ⟨world, videoMat, randCalls, position⟩ := v
  obtain rfl : position = .loopHead := hpos
  cases hflag : (world.device .video).newFrame with
  | false =>
      rw [main_stale lib rfl hflag]
      rw [poll_stale hflag] at h
      simp only [Prod.mk.injEq, Answer.got.injEq, heq_eq_eq, true_and] at h
      obtain ⟨rfl, rfl, rfl⟩ := h
      rfl
  | true =>
      rw [main_fresh lib rfl hflag]
      rw [poll_fresh hflag] at h
      simp only [Prod.mk.injEq, Answer.got.injEq, heq_eq_eq, true_and] at h
      obtain ⟨rfl, rfl, rfl⟩ := h
      have hframe := processFrame_gray lib (World.videoFrame ⟨world.buffers, world.device⟩)
      rw [← hframe]
      rfl

/-- A step of `main` at the loop head. -/
theorem main_loopHead (scan : Scan) (lib : Libraries K) {s : Concurrent K}
    (hpos : s.position = .loopHead) :
    s.main scan lib = s.polled lib ((threads scan).step s.device s.polling).1
      ((threads scan).step s.device s.polling).2 := by
  rw [Concurrent.main, hpos]

/-- When `getVideo` returns to the loop head, `main` does what `Main.Loop` says. -/
theorem polled_of_answer (lib : Libraries K) {s : Concurrent K} (hpos : s.position = .loopHead)
    (device : Threads ThreadId) (m : Method) (took : Bool) (output : Image Bgr) :
    s.polled lib device (some (m, .got .video took output)) = ({ s with
        device := device
        videoMat := output
        position := if took then .putWatchdog (processFrame lib output) else .loopHead },
      if took then .fresh fun p => (output p).b else .stale) := by
  obtain ⟨device', videoMat, randCalls, position⟩ := s
  obtain rfl : position = .loopHead := hpos
  cases took with
  | false => rfl
  | true => rfl

/-! ## §4 — one statement. -/

section OneStatement

variable {scan : Scan} {s : Concurrent K} {v : Vision K} {g : Chan → Window Cell.Sample}

/-- A step of the device that comes to steps of libfreenect only. -/
theorem Together.drivers (h : Together scan s v g) (lib : Libraries K) (act : ThreadStep ThreadId)
    (hcalls : ∀ x ∈ ((deviceSystem scan).linearize s.device g act).2, ∃ d, callOf x = .driver d)
    (hfreenect : ∀ m, act = .call .freenect m → ∃ c buffer, m = .callback c buffer)
    (hmain : ∀ m, act = .call .main m → m = .get .video s.videoMat ∧ s.position = .loopHead) :
    Together scan { s with device := ((threads scan).step s.device act).1 }
        ((process lib).run v
          ((((deviceSystem scan).linearize s.device g act).2.map callOf).map Call.event))
        ((deviceSystem scan).linearize s.device g act).1 ∧
      visible ((process lib).trace v
        ((((deviceSystem scan).linearize s.device g act).2.map callOf).map Call.event)) = [] := by
  obtain ⟨hsim, -⟩ := Lib.Critical.sim_step h.sim h.locked act
  have hdrivers : ∀ call ∈ ((deviceSystem scan).linearize s.device g act).2.map callOf,
      ∃ d, call = .driver d := by
    intro call hcall
    obtain ⟨x, hx, rfl⟩ := List.mem_map.mp hcall
    exact hcalls x hx
  obtain ⟨hrun, hvisible⟩ := run_drivers lib v hdrivers
  obtain ⟨hworld, -⟩ :=
    run_callOf scan (storeOf v.world) ((deviceSystem scan).linearize s.device g act).2
  rw [worldOf_storeOf] at hworld
  refine ⟨?_, hvisible⟩
  rw [hrun, hworld]
  refine ⟨hsim, Lib.Critical.locked_step h.locked act, h.videoMat, h.randCalls, h.position,
    fun m hm => ?_, fun m hm => ?_⟩
  · rcases Lib.Critical.called_step (deviceSystem scan) s.device act hm with hold | hnew
    · exact h.freenect m hold
    · exact hfreenect m hnew
  · rcases Lib.Critical.called_step (deviceSystem scan) s.device act hm with hold | hnew
    · exact h.main m hold
    · exact hmain m hnew

omit [Field K] [LinearOrder K] in
/-- What libfreenect's own steps linearize. -/
theorem Together.calls_freenect (h : Together scan s v g) {act : ThreadStep ThreadId}
    (hact : ∀ t, act = .run t → t = .freenect) {x : Atomic Method Cell.Sample}
    (hx : x ∈ ((deviceSystem scan).linearize s.device g act).2) : ∃ d, callOf x = .driver d := by
  rcases Lib.Critical.mem_linearize (deviceSystem scan) s.device g hx with
      ⟨w, rfl⟩ | ⟨t, m, a, heq, ht, rfl⟩
  · exact ⟨_, rfl⟩
  · obtain rfl := hact t heq
    obtain ⟨c, buffer, rfl⟩ := h.freenect m (by rw [ht]; rfl)
    exact ⟨_, rfl⟩

omit [Field K] [LinearOrder K] in
/-- What a step linearizes that returns from no method. -/
theorem calls_not_returning {act : ThreadStep ThreadId}
    (hnone : ((threads scan).step s.device act).2 = none) {x : Atomic Method Cell.Sample}
    (hx : x ∈ ((deviceSystem scan).linearize s.device g act).2) : ∃ d, callOf x = .driver d := by
  rcases Lib.Critical.mem_linearize (deviceSystem scan) s.device g hx with
      ⟨w, rfl⟩ | ⟨t, m, a, heq, ht, rfl⟩
  · exact ⟨_, rfl⟩
  · have hsome := (Lib.Critical.step_returns_iff (deviceSystem scan) s.device act).mpr ⟨t, heq, ht⟩
    exact absurd (hsome.symm.trans hnone) (Option.some_ne_none _)

/-- A poll that returns to `main` is the poll of `Main.Loop`, before the writes it had delayed. -/
theorem Together.returned (h : Together scan s v g) (lib : Libraries K) {m : Method} {a : Answer}
    (hout : ((threads scan).step s.device s.polling).2 = some (m, a)) :
    Together scan (s.polled lib ((threads scan).step s.device s.polling).1 (some (m, a))).1
        ((process lib).run v
          ((((deviceSystem scan).linearize s.device g s.polling).2.map callOf).map Call.event))
        ((deviceSystem scan).linearize s.device g s.polling).1 ∧
      visible ((process lib).trace v
          ((((deviceSystem scan).linearize s.device g s.polling).2.map callOf).map Call.event))
        = [(s.polled lib ((threads scan).step s.device s.polling).1 (some (m, a))).2].filter
          Act.visible := by
  obtain ⟨t, hact, ht⟩ :=
    (Lib.Critical.step_returns_iff (deviceSystem scan) s.device s.polling).mp hout
  -- the polling thread is `main`, so it returns from `getVideo(videoMat)`
  obtain rfl : t = .main := by
    unfold Concurrent.polling at hact
    split at hact
    · cases hact
    · exact (Lib.Critical.Action.run.inj hact).symm
  obtain ⟨rfl, hpos⟩ := h.main m (by rw [ht]; rfl)
  obtain ⟨hsim, hreturns⟩ := Lib.Critical.sim_step h.sim h.locked s.polling
  have hlinear : ((deviceSystem scan).linearize s.device g s.polling).2
      = .method (.get .video s.videoMat) :: (g .video).delayed.map .ofWrite := by
    rw [hact]
    simp only [Lib.Critical.System.linearize, ht]
    rfl
  rw [hlinear] at hsim hreturns ⊢
  have hresults := hreturns.trans (congrArg Option.toList hout)
  rw [Lib.Machine.trace_cons] at hresults
  obtain ⟨hworld, hanswer⟩ := step_callOf scan (storeOf v.world) (.method (.get .video s.videoMat))
  rw [worldOf_storeOf] at hworld hanswer
  obtain ⟨w, took, output, hstep⟩ : ∃ w took output,
      hub.step v.world (.get .video s.videoMat) = (w, .got .video took output) :=
    ⟨_, _, _, hub_step_get ..⟩
  obtain rfl : a = .got .video took output := by
    have hfirst := congrArg List.head? hresults
    rw [← hanswer, callOf, hstep] at hfirst
    exact (congrArg Prod.snd (Option.some.inj hfirst)).symm
  have hmain := main_of_answer lib (h.position.trans hpos) (h.videoMat ▸ hstep)
  -- after it come the writes that hit pixels it had copied
  have hwrites :
      ∀ call ∈ ((g .video).delayed.map (Atomic.ofWrite : _ → Atomic Method Cell.Sample)).map callOf,
      ∃ d, call = .driver d := by
    intro call hcall
    obtain ⟨x, hx, rfl⟩ := List.mem_map.mp hcall
    obtain ⟨w, -, rfl⟩ := List.mem_map.mp hx
    exact ⟨_, rfl⟩
  obtain ⟨hrun, hvisible⟩ := run_drivers lib (v.main lib).1 hwrites
  obtain ⟨hrest, -⟩ := run_callOf scan ((deviceSystem scan).atomic.step (storeOf v.world)
    (.method (.get .video s.videoMat))).1 ((g .video).delayed.map .ofWrite)
  have hw : hub.run w
      (((g .video).delayed.map (Atomic.ofWrite : _ → Atomic Method Cell.Sample)).map callOf)
      = worldOf ((deviceSystem scan).atomic.run (storeOf v.world)
        (.method (.get .video s.videoMat) :: (g .video).delayed.map .ofWrite)) := by
    rw [callOf, hstep] at hworld
    rw [show w = _ from hworld]
    exact hrest
  have hidle : ((threads scan).step s.device s.polling).1.thread .main = .idle := by
    rw [hact]
    show ((deviceSystem scan).threads.step s.device _).1.thread .main = _
    rw [Lib.Critical.step_return (deviceSystem scan) ht]
    exact Lib.Critical.State.enter_self s.device .main _
  rw [polled_of_answer lib hpos]
  refine ⟨?_, ?_⟩
  · show Together scan _ ((process lib).run (v.main lib).1 _) _
    rw [hrun, hmain, hw]
    refine ⟨hsim, Lib.Critical.locked_step h.locked _, rfl, h.randCalls, rfl, fun m hm => ?_,
      fun m hm => ?_⟩
    · rcases Lib.Critical.called_step (deviceSystem scan) s.device _ hm with hold | hnew
      · exact h.freenect m hold
      · rw [hact] at hnew
        cases hnew
    · have hnone := congrArg Lib.Critical.Local.called hidle
      exact absurd (hm.symm.trans hnone) (Option.some_ne_none m)
  · show visible ((_, (v.main lib).2) :: (process lib).trace (v.main lib).1 _) = _
    rw [visible_cons, hvisible, List.append_nil, hmain]

/-- A Put is the same step for both: outside of its poll `main` is in no method of the device. -/
theorem Together.put (h : Together scan s v g) (lib : Libraries K) (hpos : s.position ≠ .loopHead)
    {n n' : ℕ} (hn : n' = n) {p : Position K} {put : Put K}
    (hs : s.main scan lib = ({ s with randCalls := n, position := p }, .put put))
    (hv : v.main lib = ({ v with randCalls := n', position := p }, .put put)) :
    Together scan (s.main scan lib).1 ((process lib).run v (s.linearize scan g .main).2)
        (s.linearize scan g .main).1 ∧
      visible ((process lib).trace v (s.linearize scan g .main).2)
        = [(s.main scan lib).2].filter Act.visible := by
  have hlinear : s.linearize scan g .main = (g, [.main]) := by
    unfold Concurrent.linearize Concurrent.action
    cases hcase : s.position with
    | loopHead => exact absurd hcase hpos
    | _ => rfl
  rw [hlinear, hs]
  show Together scan _ (v.main lib).1 _ ∧ visible [(Event.main, (v.main lib).2)] = _
  rw [hv]
  refine ⟨?_, rfl⟩
  exact ⟨h.sim, h.locked, h.videoMat, hn, rfl, h.freenect, fun m hm => absurd (h.main m hm).2 hpos⟩

/-- **One statement** is the events it comes to, with the same visible act. -/
theorem together_step (h : Together scan s v g) (lib : Libraries K) (e : Statement) :
    Together scan ((statements scan lib).step s e).1 ((process lib).run v (s.linearize scan g e).2)
        (s.linearize scan g e).1 ∧
      visible ((process lib).trace v (s.linearize scan g e).2)
        = [((statements scan lib).step s e).2].filter Act.visible := by
  cases e with
  | driver d =>
      have hnotrun : ∀ t, d.begins = .run t → t = .freenect := by
        intro t ht
        cases d <;> cases ht
      refine h.drivers lib d.begins (fun x hx => h.calls_freenect hnotrun hx) (fun m hm => ?_)
        (fun m hm => ?_)
      · cases d with
        | write c buffer p v => cases hm
        | callback c buffer =>
            cases hm
            exact ⟨c, buffer, rfl⟩
      · cases d <;> cases hm
  | freenect =>
      have hrun : ∀ t, (.run .freenect : ThreadStep ThreadId) = .run t → t = .freenect := by
        rintro t ⟨⟩
        rfl
      exact h.drivers lib (.run .freenect) (fun x hx => h.calls_freenect hrun hx)
        (fun m hm => by cases hm)
        (fun m hm => by cases hm)
  | main =>
      show Together scan (s.main scan lib).1 _ _ ∧ _ = [(s.main scan lib).2].filter Act.visible
      cases hpos : s.position with
      | loopHead =>
          have hlinear : s.linearize scan g .main
              = (((deviceSystem scan).linearize s.device g s.polling).1,
                (((deviceSystem scan).linearize s.device g s.polling).2.map callOf).map
                  Call.event) := by
            simp only [Concurrent.linearize, Concurrent.action, hpos]
          rw [hlinear, main_loopHead scan lib hpos]
          cases hout : ((threads scan).step s.device s.polling).2 with
          | none =>
              refine h.drivers lib s.polling (fun x hx => calls_not_returning hout hx)
                (fun m hm => ?_) (fun m hm => ?_)
              · unfold Concurrent.polling at hm
                split at hm <;> cases hm
              · unfold Concurrent.polling at hm
                split at hm
                · cases hm
                  exact ⟨rfl, hpos⟩
                · cases hm
          | some r => exact h.returned lib hout
      | putWatchdog t =>
          have hnot : s.position ≠ .loopHead := by rw [hpos]; nofun
          have hput := main_putWatchdog lib (h.position.trans hpos)
          rw [h.randCalls] at hput
          exact h.put lib hnot rfl (by rw [Concurrent.main, hpos]) hput
      | putDistances t =>
          have hnot : s.position ≠ .loopHead := by rw [hpos]; nofun
          have hput := main_putDistances lib (h.position.trans hpos)
          exact h.put lib hnot h.randCalls (by rw [Concurrent.main, hpos]) hput
      | putAzimuths t =>
          have hnot : s.position ≠ .loopHead := by rw [hpos]; nofun
          have hput := main_putAzimuths lib (h.position.trans hpos)
          exact h.put lib hnot h.randCalls (by rw [Concurrent.main, hpos]) hput

end OneStatement

/-! ## §5 — whole runs. -/

/-- **A run of the threads** and the run of the process behind it stay together. -/
theorem together_run (scan : Scan) (lib : Libraries K) {s : Concurrent K} {v : Vision K}
    {g : Chan → Window Cell.Sample} (h : Together scan s v g) (steps : List Statement) :
    Together scan ((statements scan lib).run s steps)
      ((process lib).run v (eventsFrom scan lib s g steps))
        (windowsFrom scan lib s g steps) ∧
      visible ((process lib).trace v (eventsFrom scan lib s g steps))
        = visible ((statements scan lib).trace s steps) := by
  induction steps generalizing s v g with
  | nil => exact ⟨h, rfl⟩
  | cons e steps ih =>
      obtain ⟨hstep, hact⟩ := together_step h lib e
      obtain ⟨hrun, hacts⟩ := ih hstep
      rw [eventsFrom, Lib.Machine.run_append, Lib.Machine.trace_append, visible_append, hact, hacts,
        Lib.Machine.trace_cons, visible_cons]
      exact ⟨hrun, rfl⟩

/-- The run behind a run of the threads, from the start. -/
theorem together_eventsOf (scan : Scan) (lib : Libraries K) (own : Chan → Addr) (buffers : Buffers)
    (steps : List Statement) :
    (∃ g, Together scan ((statements scan lib).run (startedThreads own buffers) steps)
      ((process lib).run (started own buffers) (eventsOf scan lib own buffers steps)) g) ∧
    visible ((process lib).trace (started own buffers) (eventsOf scan lib own buffers steps))
      = visible ((statements scan lib).trace (startedThreads own buffers) steps) := by
  obtain ⟨htogether, hvisible⟩ := together_run scan lib (together_started scan own buffers) steps
  exact ⟨⟨_, htogether⟩, hvisible⟩

/-- **The process between statements is the process of `Main.Loop`.** Every run of the two threads
has a run of the one-step process behind it: the same polls return with the same frames and the same
Puts are made, in the same order; `main` stands at the same place with the same `videoMat`; and the
channels, where no mutex is held, are the same. What is behind a run so far does not change with
what follows. -/
theorem refines_process (scan : Scan) (lib : Libraries K) (own : Chan → Addr) (buffers : Buffers)
    (steps : List Statement) :
    visible ((statements scan lib).trace (startedThreads own buffers) steps)
      = visible ((process lib).trace (started own buffers) (eventsOf scan lib own buffers steps)) ∧
    (((statements scan lib).run (startedThreads own buffers) steps).position
        = ((process lib).run (started own buffers) (eventsOf scan lib own buffers steps)).position ∧
      ((statements scan lib).run (startedThreads own buffers) steps).videoMat
        = ((process lib).run (started own buffers)
          (eventsOf scan lib own buffers steps)).videoMat) ∧
    (∀ c, ((statements scan lib).run (startedThreads own buffers) steps).device.lock c = none →
      ((statements scan lib).run (startedThreads own buffers) steps).device.store.objects c
        = ((process lib).run (started own buffers)
          (eventsOf scan lib own buffers steps)).world.device c ∧
      ∀ a p,
        ((statements scan lib).run (startedThreads own buffers) steps).device.store.memory ⟨c, a, p⟩
          = ((process lib).run (started own buffers)
            (eventsOf scan lib own buffers steps)).world.buffers c a p) ∧
    ∀ steps',
      eventsOf scan lib own buffers steps <+: eventsOf scan lib own buffers (steps ++ steps') := by
  obtain ⟨⟨g, htogether⟩, hvisible⟩ := together_eventsOf scan lib own buffers steps
  refine ⟨hvisible.symm, ⟨htogether.position.symm, htogether.videoMat.symm⟩, fun c hfree => ?_,
    fun steps' => ?_⟩
  · obtain ⟨hobjects, hshut⟩ := htogether.sim.free c hfree
    refine ⟨hobjects.symm, fun a p => ?_⟩
    rw [← htogether.sim.memory ⟨c, a, p⟩, show (deviceSystem scan).home ⟨c, a, p⟩ = c from rfl,
      hshut]
    rfl
  · rw [eventsOf, eventsOf, eventsFrom_append]
    exact List.prefix_append ..

/-! ## §6 — nothing is lost. -/

/-- Both processes are between two calls, in the same state. -/
structure Resting (s : Concurrent K) (v : Vision K) : Prop where
  quiet : Lib.Critical.Quiet s.device (storeOf v.world)
  videoMat : s.videoMat = v.videoMat
  randCalls : s.randCalls = v.randCalls
  position : s.position = v.position

/-- libfreenect's thread in a callback. -/
theorem run_freenect (scan : Scan) (lib : Libraries K) (s : Concurrent K) (n : ℕ) :
    (statements scan lib).run s (List.replicate n .freenect)
        = { s with device := (threads scan).run s.device (List.replicate n (.run .freenect)) } ∧
      visible ((statements scan lib).trace s (List.replicate n .freenect)) = [] := by
  induction n generalizing s with
  | zero => exact ⟨rfl, rfl⟩
  | succ n ih => exact ih { s with device := ((threads scan).step s.device (.run .freenect)).1 }

/-- `main` in a poll that has not returned yet. -/
theorem run_polling (scan : Scan) (lib : Libraries K) {s : Concurrent K}
    (hpos : s.position = .loopHead) {n : ℕ}
    (hbusy : ∀ k ≤ n, ((threads scan).run s.device (List.replicate k (.run .main))).thread .main
      ≠ .idle) :
    (statements scan lib).run s (List.replicate n .main)
        = { s with device := (threads scan).run s.device (List.replicate n (.run .main)) } ∧
      visible ((statements scan lib).trace s (List.replicate n .main)) = [] := by
  induction n generalizing s with
  | zero => exact ⟨rfl, rfl⟩
  | succ n ih =>
      have hpolling : s.polling = .run .main := by
        have hnow : s.device.thread .main ≠ .idle := hbusy 0 (Nat.zero_le _)
        unfold Concurrent.polling
        split
        · contradiction
        · rfl
      have hlater : ∀ k ≤ n, ((threads scan).run ((threads scan).step s.device (.run .main)).1
          (List.replicate k (.run .main))).thread .main ≠ .idle := fun k hk =>
        hbusy (k + 1) (by omega)
      have hnone : ((threads scan).step s.device (.run .main)).2 = none := by
        -- a step that returns leaves the thread idle
        rw [Option.eq_none_iff_forall_ne_some]
        rintro ⟨m, a⟩ hout
        obtain ⟨t, ht, hin⟩ :=
          (Lib.Critical.step_returns_iff (deviceSystem scan) s.device _).mp hout
        obtain rfl := Lib.Critical.Action.run.inj ht
        have hidle := Lib.Critical.step_return (deviceSystem scan) hin
        refine hlater 0 (Nat.zero_le _) ?_
        show ((deviceSystem scan).threads.step s.device _).1.thread .main = .idle
        rw [hidle]
        exact Lib.Critical.State.enter_self s.device .main _
      have hstep : (statements scan lib).step s .main
          = ({ s with device := ((threads scan).step s.device (.run .main)).1 }, .idle) := by
        show s.main scan lib = _
        rw [main_loopHead scan lib hpos, hpolling, hnone]
        rfl
      obtain ⟨hrun, hvisible⟩ :=
        ih (s := { s with device := ((threads scan).step s.device (.run .main)).1 }) hpos hlater
      rw [List.replicate_succ, Lib.Machine.run_cons, Lib.Machine.trace_cons, visible_cons, hstep]
      exact ⟨hrun, hvisible⟩

omit [Field K] [LinearOrder K] in
/-- A call of the device, alone, leads to the store of the one-step device. -/
theorem Resting.call (scan : Scan) {s : Concurrent K} {v : Vision K} (h : Resting s v)
    (t : ThreadId) (m : Method) :
    ∃ n a,
      (∀ k ≤ n, ((threads scan).run s.device (.call t m :: List.replicate k (.run t))).thread t
        ≠ .idle) ∧
      ((threads scan).run s.device (.call t m :: List.replicate n (.run t))).thread t
        = .inside m (.ret a) ∧
      Lib.Critical.Quiet
        ((threads scan).step ((threads scan).run s.device (.call t m :: List.replicate n (.run t)))
          (.run t)).1 (storeOf (hub.step v.world (callOf (.method m))).1) ∧
      (callOf (.method m : Atomic Method Cell.Sample)).method.map
        (fun m' => (m', (hub.step v.world (callOf (.method m))).2)) = some (m, a) := by
  obtain ⟨n, a, hbusy, hin, hquiet, hwhole⟩ :=
    Lib.Critical.call_alone (deviceSystem scan) h.quiet t m
  obtain ⟨hworld, hanswer⟩ := step_callOf scan (storeOf v.world) (.method m)
  rw [worldOf_storeOf] at hworld hanswer
  refine ⟨n, a, hbusy, hin, ?_, ?_⟩
  · rw [hworld, storeOf_worldOf]
    exact hquiet
  · exact hanswer.trans hwhole

/-- A poll, statement by statement and with nothing in between. -/
theorem resting_poll (scan : Scan) (lib : Libraries K) {s : Concurrent K} {v : Vision K}
    (h : Resting s v) (hpos : v.position = .loopHead) :
    ∃ steps, Resting ((statements scan lib).run s steps) (v.main lib).1 ∧
      visible ((statements scan lib).trace s steps) = [(v.main lib).2].filter Act.visible := by
  have hpos' : s.position = .loopHead := h.position.trans hpos
  obtain ⟨n, a, hbusy, hin, hquiet, hanswer⟩ := h.call scan .main (.get .video s.videoMat)
  -- the call, ...
  have hidle : s.polling = .call .main (.get .video s.videoMat) := by
    rw [Concurrent.polling, h.quiet.thread]
  have hcall : (statements scan lib).step s .main
      = ({ s with device :=
        ((threads scan).step s.device (.call .main (.get .video s.videoMat))).1 }, .idle) := by
    have hnone : ((threads scan).step s.device (.call .main (.get .video s.videoMat))).2
        = none := by
      show ((deviceSystem scan).step s.device _).2 = none
      simp only [Lib.Critical.System.step, h.quiet.thread]
    show s.main scan lib = _
    rw [main_loopHead scan lib hpos', hidle, hnone]
    rfl
  -- the statements of the method, ...
  obtain ⟨hrun, hsilent⟩ := run_polling scan lib
    (s := { s with device :=
      ((threads scan).step s.device (.call .main (.get .video s.videoMat))).1 }) hpos' hbusy
  set device := (threads scan).run s.device
    (.call .main (.get .video s.videoMat) :: List.replicate n (.run .main))
  set s' : Concurrent K := { s with device := device }
  replace hrun : (statements scan lib).run _ (List.replicate n .main) = s' := hrun
  -- and its return
  have hpos₁ : s'.position = .loopHead := hpos'
  have hreturning : s'.polling = .run .main := by
    have hin' : s'.device.thread .main = .inside (.get .video s.videoMat) (.ret a) := hin
    rw [Concurrent.polling, hin']
  have hreturn : (statements scan lib).step s' .main
      = s'.polled lib ((threads scan).step s'.device (.run .main)).1
        (some (.get .video s.videoMat, a)) := by
    have hout :=
      (Lib.Critical.step_returns_iff (deviceSystem scan) s'.device _).mpr ⟨.main, rfl, hin⟩
    show s'.main scan lib = _
    rw [main_loopHead scan lib hpos₁, hreturning]
    exact congrArg _ hout
  obtain ⟨w, took, output, hstep⟩ : ∃ w took output,
      hub.step v.world (.get .video s.videoMat) = (w, .got .video took output) :=
    ⟨_, _, _, hub_step_get ..⟩
  obtain rfl : a = .got .video took output := by
    rw [callOf, hstep] at hanswer
    exact (congrArg Prod.snd (Option.some.inj hanswer)).symm
  rw [callOf, hstep] at hquiet
  rw [polled_of_answer lib hpos₁] at hreturn
  rw [main_of_answer lib hpos (h.videoMat ▸ hstep)]
  refine ⟨.main :: (List.replicate n .main ++ [.main]), ?_, ?_⟩
  · rw [Lib.Machine.run_cons, hcall, Lib.Machine.run_concat, hrun]
    show Resting ((statements scan lib).step s' .main).1 _
    rw [hreturn]
    exact ⟨hquiet, rfl, h.randCalls, rfl⟩
  · rw [Lib.Machine.trace_cons, visible_cons, hcall, Lib.Machine.trace_concat, visible_append,
      hsilent, hrun]
    show visible [(Statement.main, ((statements scan lib).step s' .main).2)] = _
    rw [hreturn]
    rfl

/-- A step of the one-step process, statement by statement and with nothing in between. -/
theorem resting_step (scan : Scan) (lib : Libraries K) {s : Concurrent K} {v : Vision K}
    (h : Resting s v) (e : Event) :
    ∃ steps, Resting ((statements scan lib).run s steps) ((process lib).step v e).1 ∧
      visible ((statements scan lib).trace s steps)
        = [((process lib).step v e).2].filter Act.visible := by
  cases e with
  | driver d =>
      cases d with
      | write c buffer p x =>
          obtain ⟨hworld, -⟩ := step_callOf scan (storeOf v.world) (.write ⟨c, buffer, p⟩ x)
          refine ⟨[.driver (.write c buffer p x)],
            ⟨⟨?_, h.quiet.lock, h.quiet.thread⟩, h.videoMat, h.randCalls,
              h.position⟩, rfl⟩
          show s.device.store.write (⟨c, buffer, p⟩ : Cell) x
            = storeOf (hub.step v.world (callOf (.write ⟨c, buffer, p⟩ x))).1
          rw [h.quiet.store]
          exact (congrArg storeOf hworld).symm
      | callback c buffer =>
          obtain ⟨n, a, -, -, hquiet, -⟩ := h.call scan .freenect (.callback c buffer)
          obtain ⟨hrun, hsilent⟩ := run_freenect scan lib
            { s with device :=
              ((threads scan).step s.device (.call .freenect (.callback c buffer))).1 } (n + 1)
          refine ⟨.driver (.callback c buffer) :: List.replicate (n + 1) .freenect, ?_, hsilent⟩
          set device := (threads scan).run s.device
            (.call .freenect (.callback c buffer) :: List.replicate n (.run .freenect))
          have hlast : (threads scan).run
              ((threads scan).step s.device (.call .freenect (.callback c buffer))).1
              (List.replicate (n + 1) (.run .freenect))
                = ((threads scan).step device (.run .freenect)).1 := by
            rw [List.replicate_succ', Lib.Machine.run_concat]
            rfl
          have hrest : (statements scan lib).run s
              (.driver (.callback c buffer) :: List.replicate (n + 1) .freenect)
              = { s with device := ((threads scan).step device (.run .freenect)).1 } :=
            hrun.trans (by rw [hlast])
          rw [hrest]
          exact ⟨hquiet, h.videoMat, h.randCalls, h.position⟩
  | main =>
      show ∃ steps, Resting _ (v.main lib).1 ∧ visible _ = [(v.main lib).2].filter Act.visible
      cases hpos : v.position with
      | loopHead => exact resting_poll scan lib h hpos
      | putWatchdog t =>
          refine ⟨[.main], ?_⟩
          show Resting (s.main scan lib).1 _ ∧ visible [(Statement.main, (s.main scan lib).2)] = _
          rw [main_putWatchdog lib hpos, Concurrent.main, h.position, hpos, h.randCalls]
          exact ⟨⟨h.quiet, h.videoMat, rfl, rfl⟩, rfl⟩
      | putDistances t =>
          refine ⟨[.main], ?_⟩
          show Resting (s.main scan lib).1 _ ∧ visible [(Statement.main, (s.main scan lib).2)] = _
          rw [main_putDistances lib hpos, Concurrent.main, h.position, hpos]
          exact ⟨⟨h.quiet, h.videoMat, h.randCalls, rfl⟩, rfl⟩
      | putAzimuths t =>
          refine ⟨[.main], ?_⟩
          show Resting (s.main scan lib).1 _ ∧ visible [(Statement.main, (s.main scan lib).2)] = _
          rw [main_putAzimuths lib hpos, Concurrent.main, h.position, hpos]
          exact ⟨⟨h.quiet, h.videoMat, h.randCalls, rfl⟩, rfl⟩

theorem resting_run (scan : Scan) (lib : Libraries K) {s : Concurrent K} {v : Vision K}
    (h : Resting s v) (events : List Event) :
    ∃ steps, Resting ((statements scan lib).run s steps) ((process lib).run v events) ∧
      visible ((statements scan lib).trace s steps) = visible ((process lib).trace v events) := by
  induction events generalizing s v with
  | nil => exact ⟨[], h, rfl⟩
  | cons e events ih =>
      obtain ⟨steps, hstep, hact⟩ := resting_step scan lib h e
      obtain ⟨steps', hrun, hacts⟩ := ih hstep
      refine ⟨steps ++ steps', ?_, ?_⟩
      · rw [Lib.Machine.run_append]
        exact hrun
      · rw [Lib.Machine.trace_append, visible_append, hact, hacts, Lib.Machine.trace_cons,
          visible_cons]

/-- **The same visible behaviours.** A sequence of polls and Puts is a behaviour of the two threads,
for whatever order of copying pixels, exactly if it is one of the process with a poll as one
step. -/
theorem same_behaviours (scan : Scan) (lib : Libraries K) (own : Chan → Addr) (buffers : Buffers)
    (acts : List (Act K)) :
    (∃ steps, visible ((statements scan lib).trace (startedThreads own buffers) steps) = acts) ↔
      ∃ events, visible ((process lib).trace (started own buffers) events) = acts := by
  constructor
  · rintro ⟨steps, rfl⟩
    exact ⟨_, (together_eventsOf scan lib own buffers steps).2⟩
  · rintro ⟨events, rfl⟩
    have hstart : Resting (K := K) (startedThreads own buffers) (started own buffers) :=
      ⟨Lib.Critical.quiet_started _, rfl, rfl, rfl⟩
    obtain ⟨steps, -, hvisible⟩ := resting_run scan lib hstart events
    exact ⟨steps, hvisible⟩

/-! ## §7 — the entries between statements. -/

/-- The Puts made in a run of the threads, in order. -/
def putsBetween (scan : Scan) (lib : Libraries K) (own : Chan → Addr) (buffers : Buffers)
    (steps : List Statement) : List (Put K) :=
  ((statements scan lib).trace (startedThreads own buffers) steps).flatMap fun e => e.2.puts

/-- The frames that `main` consumed in a run of the threads, in order. -/
def framesBetween (scan : Scan) (lib : Libraries K) (own : Chan → Addr) (buffers : Buffers)
    (steps : List Statement) : List (Image UInt8) :=
  ((statements scan lib).trace (startedThreads own buffers) steps).flatMap fun e => e.2.frames

/-- The table after a run of the threads, over the entries it had before. -/
def tableBetween (scan : Scan) (lib : Libraries K) (t₀ : NetworkTable K) (own : Chan → Addr)
    (buffers : Buffers) (steps : List Statement) : NetworkTable K :=
  t₀.putAll Value.type (putsBetween scan lib own buffers steps)

/-- Where `main` stands, as a state of the one-step process. -/
def Concurrent.vision (s : Concurrent K) : Vision K :=
  ⟨worldOf s.device.store, s.videoMat, s.randCalls, s.position⟩

omit [LinearOrder K] in
theorem due_congr (lib : Libraries K) {v v' : Vision K} (hcalls : v.randCalls = v'.randCalls)
    (hpos : v.position = v'.position) : due lib v = due lib v' := by
  unfold due
  rw [hpos, hcalls]

omit [Field K] [LinearOrder K] in
theorem completedIterations_congr {v v' : Vision K} (hcalls : v.randCalls = v'.randCalls)
    (hpos : v.position = v'.position) : completedIterations v = completedIterations v' := by
  unfold completedIterations consumedFrames
  rw [hpos, hcalls]

/-- Puts and frames of a run of the threads are those of the run behind it. -/
theorem puts_eventsOf (scan : Scan) (lib : Libraries K) (own : Chan → Addr) (buffers : Buffers)
    (steps : List Statement) :
    puts ((process lib).trace (started own buffers) (eventsOf scan lib own buffers steps))
        = putsBetween scan lib own buffers steps ∧
      frames ((process lib).trace (started own buffers) (eventsOf scan lib own buffers steps))
        = framesBetween scan lib own buffers steps := by
  have hvisible := (together_eventsOf scan lib own buffers steps).2
  constructor
  · rw [puts, putsBetween, ← visible_flatMap (f := Act.puts) rfl,
      ← visible_flatMap (f := Act.puts) rfl, hvisible]
  · rw [frames, framesBetween, ← visible_flatMap (f := Act.frames) rfl,
      ← visible_flatMap (f := Act.frames) rfl, hvisible]

/-- **The table between any two statements.** Over a table whose entries have the types of the Puts,
at every state of every run of the two threads: the Puts made and those due are those of the frames
that `main` consumed, three for each; and after a completed iteration every entry is of the frame
that the position of `main` says, "azimuths" of the last completed one and the other two at most one
frame ahead. -/
theorem entries_between_statements (scan : Scan) (lib : Libraries K) {t₀ : NetworkTable K}
    (h : Writable t₀) (own : Chan → Addr) (buffers : Buffers) (steps : List Statement) :
    putsBetween scan lib own buffers steps
        ++ due lib ((statements scan lib).run (startedThreads own buffers) steps).vision
      = published lib 0 (framesBetween scan lib own buffers steps) ∧
    ∀ a,
      completedIterations ((statements scan lib).run (startedThreads own buffers) steps).vision
        = a + 1 →
      Sourced lib (framesBetween scan lib own buffers steps)
        (a + ((statements scan lib).run (startedThreads own buffers) steps).position.watchdogAhead)
        (a
          + ((statements scan lib).run (startedThreads own buffers) steps).position.distancesAhead)
        a (tableBetween scan lib t₀ own buffers steps) := by
  obtain ⟨⟨g, htogether⟩, -⟩ := together_eventsOf scan lib own buffers steps
  obtain ⟨hputs, hframes⟩ := puts_eventsOf scan lib own buffers steps
  have hstart : (started own buffers : Vision K).position = .loopHead := rfl
  refine ⟨?_, fun a ha => ?_⟩
  · have hlaw := (run_law lib hstart (eventsOf scan lib own buffers steps)).1
    have hdue :
        due lib ((process lib).run (started own buffers) (eventsOf scan lib own buffers steps))
          = due lib ((statements scan lib).run (startedThreads own buffers) steps).vision :=
      due_congr lib htogether.randCalls htogether.position
    rw [hputs, hframes, hdue] at hlaw
    exact hlaw
  · have hcompleted : completedIterations ((process lib).run (started own buffers)
        (eventsOf scan lib own buffers steps)) = a + 1 :=
      (completedIterations_congr htogether.randCalls htogether.position).trans ha
    have hok := allSucceed_of_writable lib h hstart (eventsOf scan lib own buffers steps)
    have hsourced := sourced_after lib hstart rfl hok hcompleted
    rw [tableAfter, hputs, hframes, htogether.position] at hsourced
    exact hsourced

/-- The law at a run of the threads over one frame with a target. -/
theorem entries_between_statements_target :
    ∃ steps, Sourced uLibraries [uFrame] 0 0 0
      (tableBetween Scan.rowMajor uLibraries (fun _ => none) (fun _ => 0) uBuffers steps) := by
  have hstart : Resting (K := ℝ) (startedThreads (fun _ => 0) uBuffers)
      (started (fun _ => 0) uBuffers) :=
    ⟨Lib.Critical.quiet_started _, rfl, rfl, rfl⟩
  obtain ⟨steps, hresting, hvisible⟩ := resting_run Scan.rowMajor uLibraries hstart (iteration 1)
  have hframes : framesBetween Scan.rowMajor uLibraries (fun _ => 0) uBuffers steps = [uFrame] := by
    rw [framesBetween, ← visible_flatMap (f := Act.frames) rfl, hvisible]
    rfl
  have hone : completedIterations
      ((process uLibraries).run (started (fun _ => 0) uBuffers) (iteration 1)) = 0 + 1 := rfl
  have hcompleted : completedIterations ((statements Scan.rowMajor uLibraries).run
      (startedThreads (fun _ => 0) uBuffers) steps).vision = 0 + 1 :=
    (completedIterations_congr hresting.randCalls hresting.position).trans hone
  have hsourced :=
    (entries_between_statements Scan.rowMajor uLibraries writable_empty (fun _ => 0) uBuffers
      steps).2 0 hcompleted
  rw [hframes, hresting.position] at hsourced
  exact ⟨steps, hsourced⟩

end Refinement

end NinjaVision
