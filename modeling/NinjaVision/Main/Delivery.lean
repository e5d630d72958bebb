/-
# NinjaVision.Main.Delivery — from libfreenect's frames to the table.

`Main.Publication` starts from the frames that `main` consumed. Here they are traced back to the
frames that libfreenect delivered: what its buffer held when it called `VideoCallback`. The device
hands over a pointer, so this takes a libfreenect that leaves a buffer alone while it is handed over
and not polled (`Respected`).

* `consumed_are_delivered` — then the process is a reader of a one-slot mailbox of frames: what it
  publishes is a sublist of what was delivered, in order and none twice, and a frame is skipped only
  if a newer one was delivered before the next poll;
* `settles` — after the last delivery the entries are those of the delivered frame within seven
  steps of `main`, and stay so, except where a value of another type was before the run;
* `depth_is_inert` — nothing of this sees the depth channel.
-/
import NinjaVision.Device.Handoff
import NinjaVision.Main.Publication

namespace NinjaVision

open Lib.Mailbox (Legal Superseded slot delivered consumed taken)

variable {K : Type*}

/-! ## §1 — the mailbox of frames. -/

/-- The frame that a fresh poll would consume now. -/
def Vision.pendingFrame (s : Vision K) : Option (Image UInt8) :=
  if (s.world.device .video).newFrame then some s.world.videoFrame else none

/-- What a step means for the mailbox of frames: the frame in the buffer is delivered, or `main`
polls. -/
def Vision.frameEvent (s : Vision K) : Event → Option (Lib.Mailbox.Event (Image UInt8))
  | .driver (.callback .video buffer) => some (.deliver (s.world.buffers .video buffer))
  | .driver _ => none
  | .main =>
      match s.position with
      | .loopHead => some (.poll (s.world.device .video).newFrame)
      | _ => none

/-- libfreenect writes no video buffer that is handed over and not polled. -/
def Vision.Respects (s : Vision K) : Event → Prop
  | .driver (.write .video buffer _ _) =>
      (s.world.device .video).newFrame = true → buffer ≠ (s.world.device .video).data
  | _ => True

section Runs

variable [Field K] [LinearOrder K]

/-- The mailbox history of a run. -/
def frameEvents (lib : Libraries K) : Vision K → List Event → List (Lib.Mailbox.Event (Image UInt8))
  | _, [] => []
  | s, e :: events => (s.frameEvent e).toList ++ frameEvents lib ((process lib).step s e).1 events

/-- libfreenect respects pending buffers all through a run. -/
def Respected (lib : Libraries K) : Vision K → List Event → Prop
  | _, [] => True
  | s, e :: events => s.Respects e ∧ Respected lib ((process lib).step s e).1 events

theorem frameEvents_concat (lib : Libraries K) (s : Vision K) (events : List Event) (e : Event) :
    frameEvents lib s (events ++ [e])
      = frameEvents lib s events ++ (((process lib).run s events).frameEvent e).toList := by
  induction events generalizing s with
  | nil => simp [frameEvents]
  | cons e' events ih =>
      rw [List.cons_append, frameEvents, frameEvents, ih, List.append_assoc]
      rfl

theorem respected_concat (lib : Libraries K) (s : Vision K) (events : List Event) (e : Event) :
    Respected lib s (events ++ [e])
      ↔ Respected lib s events ∧ ((process lib).run s events).Respects e := by
  induction events generalizing s with
  | nil => simp [Respected]
  | cons e' events ih =>
      rw [List.cons_append, Respected, Respected, ih, and_assoc]
      rfl

/-! ## §2 — one step. -/

/-- A step that is none of the mailbox leaves the pending frame, and consumes nothing. -/
theorem frame_step_none (lib : Libraries K) {s : Vision K} {e : Event} (h : s.Respects e)
    (hnone : s.frameEvent e = none) :
    ((process lib).step s e).1.pendingFrame = s.pendingFrame ∧
      ((process lib).step s e).2.frames = [] := by
  cases e with
  | driver d =>
      refine ⟨?_, rfl⟩
      rcases d with ⟨c, buffer, p, x⟩ | ⟨c, buffer⟩
      · show Vision.pendingFrame
          { s with world := ⟨s.world.buffers.write c buffer p x, s.world.device⟩ } = _
        cases c with
        | video =>
            unfold Vision.pendingFrame
            dsimp only
            split
            · next hflag =>
                -- the write is to another buffer
                have hne := h hflag
                refine congrArg some (funext fun q => ?_)
                exact Buffers.write_other s.world.buffers .video x fun heq => hne heq.1.symm
            · rfl
        | depth =>
            have hvideo : s.world.buffers.write .depth buffer p x .video = s.world.buffers .video :=
              Buffers.write_chan (by nofun) s.world.buffers buffer p x
            simp only [Vision.pendingFrame, World.videoFrame, hvideo]
      · cases c with
        | video => cases hnone
        | depth =>
            have hvideo : depthCallback buffer s.world.device .video = s.world.device .video :=
              callback_other (by nofun) buffer s.world.device
            show Vision.pendingFrame
              { s with world := ⟨s.world.buffers, depthCallback buffer s.world.device⟩ } = _
            simp only [Vision.pendingFrame, World.videoFrame, hvideo]
  | main =>
      show (s.main lib).1.pendingFrame = s.pendingFrame ∧ (s.main lib).2.frames = []
      cases hpos : s.position with
      | loopHead =>
          rw [Vision.frameEvent, hpos] at hnone
          cases hnone
      | putWatchdog t =>
          rw [main_putWatchdog lib hpos]
          exact ⟨rfl, rfl⟩
      | putDistances t =>
          rw [main_putDistances lib hpos]
          exact ⟨rfl, rfl⟩
      | putAzimuths t =>
          rw [main_putAzimuths lib hpos]
          exact ⟨rfl, rfl⟩

/-- A step of the mailbox is possible there, does to the pending frame what it does to the slot, and
consumes what it takes. -/
theorem frame_step_some (lib : Libraries K) {s : Vision K} {e : Event}
    {ev : Lib.Mailbox.Event (Image UInt8)} (hsome : s.frameEvent e = some ev) :
    ev.Possible s.pendingFrame ∧ ((process lib).step s e).1.pendingFrame = ev.after s.pendingFrame ∧
      ((process lib).step s e).2.frames = ev.takes s.pendingFrame := by
  cases e with
  | driver d =>
      rcases d with ⟨c, buffer, p, x⟩ | ⟨c, buffer⟩
      · cases hsome
      · cases c with
        | depth => cases hsome
        | video =>
            cases hsome
            refine ⟨trivial, ?_, rfl⟩
            have hvideo : videoCallback buffer s.world.device .video = ⟨buffer, true⟩ :=
              callback_self ..
            show Vision.pendingFrame
              { s with world := ⟨s.world.buffers, videoCallback buffer s.world.device⟩ } = _
            simp only [Vision.pendingFrame, World.videoFrame, hvideo, if_true]
            rfl
  | main =>
      show ev.Possible s.pendingFrame ∧ (s.main lib).1.pendingFrame = _ ∧ (s.main lib).2.frames = _
      cases hpos : s.position with
      | loopHead =>
          rw [Vision.frameEvent, hpos] at hsome
          obtain rfl := (Option.some.inj hsome).symm
          cases hflag : (s.world.device .video).newFrame with
          | false =>
              rw [main_stale lib hpos hflag]
              simp [Lib.Mailbox.Event.Possible, Lib.Mailbox.Event.after, Lib.Mailbox.Event.takes,
                Vision.pendingFrame, hflag, Act.frames]
          | true =>
              rw [main_fresh lib hpos hflag]
              simp [Lib.Mailbox.Event.Possible, Lib.Mailbox.Event.after, Lib.Mailbox.Event.takes,
                Vision.pendingFrame, hflag, Act.frames]
      | putWatchdog t =>
          rw [Vision.frameEvent, hpos] at hsome
          cases hsome
      | putDistances t =>
          rw [Vision.frameEvent, hpos] at hsome
          cases hsome
      | putAzimuths t =>
          rw [Vision.frameEvent, hpos] at hsome
          cases hsome

/-! ## §3 — whole runs. -/

/-- **The process reads a mailbox of frames**, when pending buffers are respected. -/
theorem frames_refine_mailbox (lib : Libraries K) (own : Chan → Addr) (buffers : Buffers)
    {events : List Event} (h : Respected lib (started own buffers) events) :
    Legal (frameEvents lib (started own buffers) events) ∧
      slot (frameEvents lib (started own buffers) events)
        = ((process lib).run (started own buffers) events).pendingFrame ∧
      frames ((process lib).trace (started own buffers) events)
        = taken (frameEvents lib (started own buffers) events) := by
  induction events using List.reverseRecOn with
  | nil => exact ⟨Lib.Mailbox.legal_nil, rfl, rfl⟩
  | append_singleton events e ih =>
      obtain ⟨hpre, hrespects⟩ := (respected_concat lib _ events e).mp h
      obtain ⟨hlegal, hslot, hframes⟩ := ih hpre
      rw [frameEvents_concat, Lib.Machine.run_concat, Lib.Machine.trace_concat, frames_concat,
        hframes]
      cases hev : ((process lib).run (started own buffers) events).frameEvent e with
      | none =>
          obtain ⟨hpending, hnone⟩ := frame_step_none lib hrespects hev
          rw [Option.toList_none, List.append_nil, hpending, hnone, List.append_nil]
          exact ⟨hlegal, hslot, rfl⟩
      | some ev =>
          obtain ⟨hpossible, hpending, htakes⟩ := frame_step_some lib hev
          rw [Option.toList_some, Lib.Mailbox.slot_concat, Lib.Mailbox.taken_concat, hpending,
            htakes, hslot]
          exact ⟨Lib.Mailbox.legal_concat.mpr ⟨hlegal, hslot ▸ hpossible⟩, rfl, rfl⟩

/-- **What is published was delivered.** While libfreenect leaves pending buffers alone: the
consumed frames are the deliveries of the consumed indices, which increase; together they are a
sublist of the delivered frames, the pending one not among them; and every delivery is consumed, the
pending one, or followed by another with no poll of `main` in between. -/
theorem consumed_are_delivered (lib : Libraries K) (own : Chan → Addr) (buffers : Buffers)
    {events : List Event} (h : Respected lib (started own buffers) events) :
    (frames ((process lib).trace (started own buffers) events)).map some
      = (consumed (frameEvents lib (started own buffers) events)).map
          (fun k => (delivered (frameEvents lib (started own buffers) events))[k]?) ∧
    (consumed (frameEvents lib (started own buffers) events)).Pairwise (· < ·) ∧
    (frames ((process lib).trace (started own buffers) events)
        ++ ((process lib).run (started own buffers) events).pendingFrame.toList).Sublist
      (delivered (frameEvents lib (started own buffers) events)) ∧
    ∀ k < (delivered (frameEvents lib (started own buffers) events)).length,
      k ∈ consumed (frameEvents lib (started own buffers) events) ∨
      (k + 1 = (delivered (frameEvents lib (started own buffers) events)).length ∧
        ((process lib).run (started own buffers) events).pendingFrame.isSome = true) ∨
      Superseded (frameEvents lib (started own buffers) events) k := by
  obtain ⟨hlegal, hslot, hframes⟩ := frames_refine_mailbox lib own buffers h
  rw [hframes, ← hslot]
  exact ⟨Lib.Mailbox.taken_eq hlegal, Lib.Mailbox.consumed_pairwise hlegal,
    Lib.Mailbox.taken_sublist hlegal, Lib.Mailbox.delivery_fate hlegal⟩

/-- The law at a run over one frame with a target. -/
theorem consumed_are_delivered_target :
    consumed (frameEvents uLibraries (started (fun _ => 0) uBuffers) (iteration 1)) = [0] ∧
    [some uFrame]
      = (consumed (frameEvents uLibraries (started (fun _ => 0) uBuffers) (iteration 1))).map
          fun k => (delivered
            (frameEvents uLibraries (started (fun _ => 0) uBuffers) (iteration 1)))[k]? := by
  have hrespected : Respected uLibraries (started (fun _ => 0) uBuffers) (iteration 1) :=
    ⟨trivial, trivial, trivial, trivial, trivial, trivial⟩
  exact ⟨rfl, (consumed_are_delivered uLibraries (fun _ => 0) uBuffers hrespected).1⟩

/-! ## §4 — after the last delivery. -/

/-- The step is one of `main`. -/
def Event.isMain : Event → Bool
  | .main => true
  | .driver _ => false

/-- How many steps `main` is from a loop head with nothing pending: the Puts due, and four steps for
a frame. -/
def Vision.work (s : Vision K) : ℕ :=
  (if (s.world.device .video).newFrame then 4 else 0) + (3 - s.position.done)

/-- Without a delivery on the video channel, each step of `main` takes one off. -/
theorem work_step (lib : Libraries K) (s : Vision K) {e : Event}
    (hcb : ∀ b, e ≠ .driver (.callback .video b)) :
    ((process lib).step s e).1.work = s.work - if e.isMain then 1 else 0 := by
  cases e with
  | driver d =>
      show Vision.work { s with world := s.world.driver d } = s.work
      have hchannel : (s.world.driver d).device .video = s.world.device .video := by
        rcases d with ⟨c, buffer, p, x⟩ | ⟨c, buffer⟩
        · rfl
        · cases c with
          | video => exact absurd rfl (hcb buffer)
          | depth => exact callback_other (show Chan.video ≠ .depth by nofun) buffer s.world.device
      simp only [Vision.work, hchannel]
  | main =>
      show (s.main lib).1.work = s.work - 1
      cases hpos : s.position with
      | loopHead =>
          cases hflag : (s.world.device .video).newFrame with
          | false =>
              rw [main_stale lib hpos hflag]
              simp [Vision.work, hpos, hflag, Position.done]
          | true =>
              rw [main_fresh lib hpos hflag]
              simp [Vision.work, hpos, hflag, Position.done]
      | putWatchdog t =>
          rw [main_putWatchdog lib hpos]
          simp only [Vision.work, hpos, Position.done]
          omega
      | putDistances t =>
          rw [main_putDistances lib hpos]
          simp only [Vision.work, hpos, Position.done]
          omega
      | putAzimuths t =>
          rw [main_putAzimuths lib hpos]
          simp only [Vision.work, hpos, Position.done]
          omega

theorem work_run (lib : Libraries K) (s : Vision K) {events : List Event}
    (hcb : ∀ b, Event.driver (.callback .video b) ∉ events) :
    ((process lib).run s events).work = s.work - events.countP Event.isMain := by
  induction events generalizing s with
  | nil => rfl
  | cons e events ih =>
      have hstep := work_step lib s (e := e) fun b heq => hcb b (heq ▸ List.mem_cons_self)
      rw [Lib.Machine.run_cons, ih _ fun b hb => hcb b (List.mem_cons_of_mem _ hb), hstep,
        List.countP_cons]
      omega

omit [Field K] [LinearOrder K] in
theorem work_le (s : Vision K) : s.work ≤ 7 := by
  unfold Vision.work
  split <;> omega

omit [Field K] [LinearOrder K] in
/-- With no work left, `main` is at the loop head and nothing is pending. -/
theorem idle_of_work {s : Vision K} (h : s.work = 0) :
    s.position = .loopHead ∧ s.pendingFrame = none := by
  constructor
  · cases hpos : s.position with
    | loopHead => rfl
    | _ => simp [Vision.work, hpos, Position.done] at h
  · unfold Vision.pendingFrame
    cases hflag : (s.world.device .video).newFrame with
    | true => simp [Vision.work, hflag] at h
    | false => rfl

/-- Without a delivery, seven steps of `main` leave it no work. -/
theorem idle_run (lib : Libraries K) (s : Vision K) {events : List Event}
    (hcb : ∀ b, Event.driver (.callback .video b) ∉ events)
    (hsteps : 7 ≤ events.countP Event.isMain) :
    ((process lib).run s events).position = .loopHead ∧
      ((process lib).run s events).pendingFrame = none := by
  have hle := work_le s
  apply idle_of_work
  rw [work_run lib s hcb]
  omega

omit [Field K] [LinearOrder K] in
/-- Only a callback of the video channel delivers. -/
theorem frameEvent_deliver {s : Vision K} {e : Event} {ir : Image UInt8}
    (h : s.frameEvent e = some (.deliver ir)) :
    ∃ buffer, e = .driver (.callback .video buffer) := by
  cases e with
  | driver d =>
      rcases d with ⟨c, buffer, p, x⟩ | ⟨c, buffer⟩
      · cases h
      · cases c with
        | video => exact ⟨buffer, rfl⟩
        | depth => cases h
  | main =>
      rw [Vision.frameEvent] at h
      split at h <;> cases h

/-- The frame is pending, or it is the last one of those consumed and none is pending. -/
def Newest (ir : Image UInt8) (s : Vision K) (irs : List (Image UInt8)) : Prop :=
  s.pendingFrame = some ir ∨ s.pendingFrame = none ∧ ∃ irs', irs = irs' ++ [ir]

theorem newest_step (lib : Libraries K) {ir : Image UInt8} {s : Vision K} {irs : List (Image UInt8)}
    (h : Newest ir s irs) {e : Event} (hrespects : s.Respects e)
    (hcb : ∀ b, e ≠ .driver (.callback .video b)) :
    Newest ir ((process lib).step s e).1 (irs ++ ((process lib).step s e).2.frames) := by
  cases hev : s.frameEvent e with
  | none =>
      obtain ⟨hpending, hnone⟩ := frame_step_none lib hrespects hev
      rw [Newest, hpending, hnone, List.append_nil]
      exact h
  | some ev =>
      obtain ⟨hpossible, hpending, htakes⟩ := frame_step_some lib hev
      rw [Newest, hpending, htakes]
      cases ev with
      | deliver a =>
          obtain ⟨buffer, rfl⟩ := frameEvent_deliver hev
          exact absurd rfl (hcb buffer)
      | poll took =>
          right
          refine ⟨rfl, ?_⟩
          rcases h with h | ⟨h, irs', rfl⟩
          · obtain rfl : took = true := by rw [show took = _ from hpossible, h]; rfl
            exact ⟨irs, by rw [h]; rfl⟩
          · obtain rfl : took = false := by rw [show took = _ from hpossible, h]; rfl
            exact ⟨irs', List.append_nil _⟩

theorem newest_run (lib : Libraries K) {ir : Image UInt8} {s : Vision K} {irs : List (Image UInt8)}
    (h : Newest ir s irs) {events : List Event} (hrespects : Respected lib s events)
    (hcb : ∀ b, Event.driver (.callback .video b) ∉ events) :
    Newest ir ((process lib).run s events) (irs ++ frames ((process lib).trace s events)) := by
  induction events generalizing s irs with
  | nil =>
      rw [Lib.Machine.trace_nil, frames, List.flatMap_nil, List.append_nil]
      exact h
  | cons e events ih =>
      have hstep := newest_step lib h hrespects.1 fun b heq => hcb b (heq ▸ List.mem_cons_self)
      rw [Lib.Machine.trace_cons, frames_cons, ← List.append_assoc]
      exact ih hstep hrespects.2 fun b hb => hcb b (List.mem_cons_of_mem _ hb)

/-- **The table settles.** Whatever happened before: when libfreenect delivers a frame, and then
delivers no more and leaves the buffer alone until it is polled, the entries are of that frame as
soon as `main` made seven steps (three Puts of the iteration it may be in, a poll, three Puts), and
they stay so. An entry that held a value of another type before the run keeps that value. -/
theorem settles (lib : Libraries K) (t₀ : NetworkTable K) (own : Chan → Addr) (buffers : Buffers)
    (pre : List Event) (buffer : Addr) {post : List Event}
    (hlast : ∀ b, Event.driver (.callback .video b) ∉ post)
    (hrespects : Respected lib
      ((process lib).run (started own buffers) (pre ++ [.driver (.callback .video buffer)])) post)
    (hsteps : 7 ≤ post.countP Event.isMain) :
    ∃ irs, frames ((process lib).trace (started own buffers)
        (pre ++ .driver (.callback .video buffer) :: post))
        = irs ++ [((process lib).run (started own buffers) pre).world.buffers .video buffer] ∧
      ∀ key ∈ mainKeys,
        (t₀.Fits Value.type key (keyType key) →
          tableAfter lib t₀ (started own buffers)
              (pre ++ .driver (.callback .video buffer) :: post) key
            = some (entryOf lib key irs.length
                (((process lib).run (started own buffers) pre).world.buffers .video buffer))) ∧
        (¬ t₀.Fits Value.type key (keyType key) →
          tableAfter lib t₀ (started own buffers)
              (pre ++ .driver (.callback .video buffer) :: post) key
            = t₀ key) := by
  set s := (process lib).run (started own buffers) (pre ++ [.driver (.callback .video buffer)])
    with hs
  set ir := ((process lib).run (started own buffers) pre).world.buffers .video buffer
  have hsplit : pre ++ .driver (.callback .video buffer) :: post
      = (pre ++ [.driver (.callback .video buffer)]) ++ post := by simp
  -- the frame is pending after the callback
  have hpending : s.pendingFrame = some ir := by
    have hdelivers : ((process lib).run (started own buffers) pre).frameEvent
        (.driver (.callback .video buffer)) = some (.deliver ir) := rfl
    rw [hs, Lib.Machine.run_concat]
    exact (frame_step_some lib hdelivers).2.1
  -- by then `main` has nothing left to do
  obtain ⟨hend, hnone⟩ := idle_run lib s hlast hsteps
  have hstart : Newest ir s (frames ((process lib).trace (started own buffers)
    (pre ++ [.driver (.callback .video buffer)]))) := Or.inl hpending
  have hrun : (process lib).run (started own buffers)
      (pre ++ .driver (.callback .video buffer) :: post) = (process lib).run s post := by
    rw [hsplit, Lib.Machine.run_append]
  have htrace : frames
      ((process lib).trace (started own buffers) (pre ++ .driver (.callback .video buffer) :: post))
      = frames
        ((process lib).trace (started own buffers) (pre ++ [.driver (.callback .video buffer)]))
        ++ frames ((process lib).trace s post) := by
    rw [hsplit, Lib.Machine.trace_append, frames, List.flatMap_append]
    rfl
  rcases newest_run lib hstart hrespects hlast with hstill | ⟨-, irs, hframes⟩
  · exact absurd (hstill.symm.trans hnone) (Option.some_ne_none ir)
  · have hpos : (started own buffers : Vision K).position = .loopHead := rfl
    refine ⟨irs, htrace.trans hframes, fun key hkey => ⟨fun hfit => ?_, fun hfit => ?_⟩⟩
    · exact entry_loopHead lib hkey hfit hpos rfl (hrun ▸ hend) (htrace.trans hframes)
    · exact entry_kept lib hfit hpos _

/-- The law at a run that delivers one frame with a target. -/
theorem settles_target :
    tableAfter uLibraries (fun _ => none) (started (fun _ => 0) uBuffers)
        ([] ++ .driver (.callback .video 1) :: List.replicate 7 .main) "azimuths"
      = some (.doubleArray [.finite (-18.28125)]) := by
  have hdelivers : ∀ b, Event.driver (.callback .video b) ∉ List.replicate 7 .main :=
    fun b hb => by cases List.eq_of_mem_replicate hb
  have hrespected : Respected uLibraries ((process uLibraries).run (started (fun _ => 0) uBuffers)
      ([] ++ [.driver (.callback .video 1)])) (List.replicate 7 .main) :=
    ⟨trivial, trivial, trivial, trivial, trivial, trivial, trivial, trivial⟩
  have ha : "azimuths" ∈ mainKeys := by simp [mainKeys]
  obtain ⟨irs, _, hentries⟩ := settles uLibraries (fun _ => none) (fun _ => 0) uBuffers [] 1
    hdelivers hrespected (by decide)
  have hentry := (hentries _ ha).1 (writable_empty _ ha)
  rw [hentry, entryOf, if_neg (by decide), if_neg (by decide)]
  show some (Value.doubleArray (reference uLibraries uFrame).azimuths) = _
  rw [reference_uFrame]

/-! ## §5 — the depth channel. -/

/-- The event is one of the depth channel. -/
def Event.isDepth : Event → Bool
  | .driver (.write .depth _ _ _) => true
  | .driver (.callback .depth _) => true
  | _ => false

/-- Two processes that differ in the depth channel at most. -/
structure SameVideo (s s' : Vision K) : Prop where
  world : AgreeOn .video s.world s'.world
  videoMat : s.videoMat = s'.videoMat
  randCalls : s.randCalls = s'.randCalls
  position : s.position = s'.position

omit [Field K] [LinearOrder K] in
theorem SameVideo.videoFrame {s s' : Vision K} (h : SameVideo s s') :
    s.world.videoFrame = s'.world.videoFrame := by
  unfold World.videoFrame
  rw [h.world.1, h.world.2]

omit [Field K] [LinearOrder K] in
/-- A step of the depth channel is none for the rest. -/
theorem SameVideo.skip {s s' : Vision K} (h : SameVideo s s') {d : DriverStep}
    (hd : (Event.driver d).isDepth = true) : SameVideo { s with world := s.world.driver d } s' := by
  have hchan : (Call.driver d).chan ≠ .video := by
    rcases d with ⟨c, buffer, p, x⟩ | ⟨c, buffer⟩
    · cases c with
      | video => cases hd
      | depth => exact (by decide : Chan.depth ≠ .video)
    · cases c with
      | video => cases hd
      | depth => exact (by decide : Chan.depth ≠ .video)
  exact ⟨h.world.skip hchan, h.videoMat, h.randCalls, h.position⟩

/-- A step of `main` does the same to both. -/
theorem SameVideo.main (lib : Libraries K) {s s' : Vision K} (h : SameVideo s s') :
    SameVideo (s.main lib).1 (s'.main lib).1 ∧ (s.main lib).2 = (s'.main lib).2 := by
  cases hpos : s.position with
  | loopHead =>
      have hpos' : s'.position = .loopHead := h.position ▸ hpos
      cases hflag : (s.world.device .video).newFrame with
      | false =>
          have hflag' : (s'.world.device .video).newFrame = false := h.world.2 ▸ hflag
          rw [main_stale lib hpos hflag, main_stale lib hpos' hflag']
          exact ⟨h, rfl⟩
      | true =>
          have hflag' : (s'.world.device .video).newFrame = true := h.world.2 ▸ hflag
          rw [main_fresh lib hpos hflag, main_fresh lib hpos' hflag', h.videoFrame, h.world.2]
          have hdevice : Function.update s.world.device .video
              { s'.world.device .video with newFrame := false } .video
              = Function.update s'.world.device .video
                { s'.world.device .video with newFrame := false } .video := by
            simp
          exact ⟨⟨⟨h.world.1, hdevice⟩, rfl, h.randCalls, rfl⟩, rfl⟩
  | putWatchdog t =>
      have hpos' : s'.position = .putWatchdog t := h.position ▸ hpos
      rw [main_putWatchdog lib hpos, main_putWatchdog lib hpos', h.randCalls]
      exact ⟨⟨h.world, h.videoMat, rfl, rfl⟩, rfl⟩
  | putDistances t =>
      have hpos' : s'.position = .putDistances t := h.position ▸ hpos
      rw [main_putDistances lib hpos, main_putDistances lib hpos']
      exact ⟨⟨h.world, h.videoMat, h.randCalls, rfl⟩, rfl⟩
  | putAzimuths t =>
      have hpos' : s'.position = .putAzimuths t := h.position ▸ hpos
      rw [main_putAzimuths lib hpos, main_putAzimuths lib hpos']
      exact ⟨⟨h.world, h.videoMat, h.randCalls, rfl⟩, rfl⟩

/-- A step that is not one of the depth channel does the same to both, with the same act. -/
theorem SameVideo.step (lib : Libraries K) {s s' : Vision K} (h : SameVideo s s') {e : Event}
    (he : e.isDepth = false) :
    SameVideo ((process lib).step s e).1 ((process lib).step s' e).1 ∧
      ((process lib).step s e).2 = ((process lib).step s' e).2 := by
  cases e with
  | driver d =>
      have hchan : (Call.driver d).chan = .video := by
        rcases d with ⟨c, buffer, p, x⟩ | ⟨c, buffer⟩
        · cases c with
          | video => rfl
          | depth => cases he
        · cases c with
          | video => rfl
          | depth => cases he
      exact ⟨⟨(h.world.step hchan).2, h.videoMat, h.randCalls, h.position⟩, rfl⟩
  | main => exact h.main lib

/-- The acts of the depth channel's events are dropped with them, and the others stay as they
are. -/
theorem sameVideo_run (lib : Libraries K) {s s' : Vision K} (h : SameVideo s s')
    (events : List Event) :
    SameVideo ((process lib).run s events)
      ((process lib).run s' (events.filter fun e => !e.isDepth)) ∧
      ((process lib).trace s events).filter (fun step => !step.1.isDepth)
        = (process lib).trace s' (events.filter fun e => !e.isDepth) := by
  refine (process lib).erase ?_ ?_ h events
  · intro s s' e h he
    cases e with
    | driver d => exact h.skip (by simpa using he)
    | main => cases he
  · intro s s' e h he
    exact h.step lib (by simpa using he)

/-- The depth channel's events put nothing. -/
theorem puts_filter_depth (lib : Libraries K) (s : Vision K) (events : List Event) :
    puts (((process lib).trace s events).filter fun step => !step.1.isDepth)
      = puts ((process lib).trace s events) := by
  induction events generalizing s with
  | nil => rfl
  | cons e events ih =>
      cases he : e.isDepth with
      | true =>
          have hidle : ((process lib).step s e).2.puts = [] := by
            cases e with
            | driver d => rfl
            | main => cases he
          rw [Lib.Machine.trace_cons, List.filter_cons_of_neg (by simp [he]), ih, puts, puts,
            List.flatMap_cons, hidle, List.nil_append]
      | false =>
          rw [Lib.Machine.trace_cons, List.filter_cons_of_pos (by simp [he]), puts,
            List.flatMap_cons]
          exact congrArg _ (ih _)

/-- **The depth channel is inert.** A run without its depth events, from any other depth buffers,
does the same steps with the same results, ends in the same state up to the depth channel, and
leaves the same table. -/
theorem depth_is_inert (lib : Libraries K) (t₀ : NetworkTable K) {s s' : Vision K}
    (h : SameVideo s s') (events : List Event) :
    SameVideo ((process lib).run s events)
      ((process lib).run s' (events.filter fun e => !e.isDepth)) ∧
      ((process lib).trace s events).filter (fun step => !step.1.isDepth)
        = (process lib).trace s' (events.filter fun e => !e.isDepth) ∧
      tableAfter lib t₀ s events = tableAfter lib t₀ s' (events.filter fun e => !e.isDepth) := by
  obtain ⟨hrun, htrace⟩ := sameVideo_run lib h events
  refine ⟨hrun, htrace, ?_⟩
  rw [tableAfter, tableAfter, ← htrace, puts_filter_depth]

/-- The law at two processes with different depth buffers. -/
theorem depth_is_inert_target :
    tableAfter uLibraries (fun _ => none) (started (fun _ => 0) uBuffers)
        (.driver (.callback .depth 3) :: iteration 1)
      = tableAfter uLibraries (fun _ => none)
        (started (fun c => if c = .depth then 7 else 0) uBuffers)
          (iteration 1) := by
  have hsame : SameVideo (started (K := ℝ) (fun _ => 0) uBuffers)
      (started (fun c => if c = .depth then 7 else 0) uBuffers) := ⟨⟨rfl, rfl⟩, rfl, rfl, rfl⟩
  exact (depth_is_inert uLibraries (fun _ => none) hsame
    (.driver (.callback .depth 3) :: iteration 1)).2.2

end Runs

end NinjaVision
