/-
# NinjaVision.Main.Mask — what is published depends on the masks only.

Of a frame the loop body keeps one bit for each pixel, whether the sample reaches 160. So two
processes whose video buffers agree in these bits publish the same, as long as what libfreenect does
to them is alike: the same callbacks, and writes to the same pixels with samples on the same side of
the threshold (`AlikeEvent`). The samples themselves, `videoMat` and the depth channel may differ.
`mask_law` is this for whole runs, step by step next to each other; noise that does not cross the
threshold is never seen in the table.
-/
import NinjaVision.Main.Publication

namespace NinjaVision

variable {K : Type*}

/-! ## §1 — samples on the same side. -/

/-- Both samples reach the threshold, or neither does. -/
def SameSide (x y : UInt8) : Prop := 160 ≤ x ↔ 160 ≤ y

/-- Frames with samples on the same sides have the same mask. -/
theorem irMask_congr {ir ir' : Image UInt8} (h : ∀ p, SameSide (ir p) (ir' p)) :
    irMask ir = irMask ir' := by
  funext p
  unfold irMask
  simp only [(h p).eq]

/-- The reference of a frame reads the mask only. -/
theorem reference_congr [Field K] [LinearOrder K] (lib : Libraries K) {ir ir' : Image UInt8}
    (h : irMask ir = irMask ir') : reference lib ir = reference lib ir' := by
  unfold reference passing
  rw [h]

/-- A mask is on the same side as its frame. -/
theorem sameSide_irMask (ir : Image UInt8) (p : Pixel) : SameSide (ir p) (irMask ir p) := by
  unfold SameSide irMask
  by_cases h : 160 ≤ ir p
  · rw [if_pos h]
    exact ⟨fun _ => by decide, fun _ => h⟩
  · rw [if_neg h]
    exact ⟨fun h' => absurd h' h, fun h' => absurd h' (by decide)⟩

/-! ## §2 — two processes next to each other. -/

/-- The same step, up to the side of a written sample, or a step of the depth channel in both. -/
inductive AlikeEvent : Event → Event → Prop
  | main : AlikeEvent .main .main
  | callback (buffer : Addr) : AlikeEvent (.driver (.callback .video buffer))
      (.driver (.callback .video buffer))
  | write (buffer : Addr) (p : Pixel) {x y : UInt8} (h : SameSide x y) :
      AlikeEvent (.driver (.write .video buffer p x)) (.driver (.write .video buffer p y))
  | depthWrite (buffer buffer' : Addr) (p p' : Pixel) (x y : UInt16) :
      AlikeEvent (.driver (.write .depth buffer p x)) (.driver (.write .depth buffer' p' y))
  | depthCallback (buffer buffer' : Addr) :
      AlikeEvent (.driver (.callback .depth buffer)) (.driver (.callback .depth buffer'))

/-- Two processes at the same point, with video buffers on the same sides. -/
structure SameMasks (s s' : Vision K) : Prop where
  buffers : ∀ buffer p,
    SameSide (s.world.buffers .video buffer p) (s'.world.buffers .video buffer p)
  channel : s.world.device .video = s'.world.device .video
  randCalls : s.randCalls = s'.randCalls
  position : s.position = s'.position

section Runs

variable [Field K] [LinearOrder K]

/-- A step of `main` puts the same in both. -/
theorem SameMasks.main (lib : Libraries K) {s s' : Vision K} (h : SameMasks s s') :
    SameMasks (s.main lib).1 (s'.main lib).1 ∧ (s.main lib).2.puts = (s'.main lib).2.puts := by
  cases hpos : s.position with
  | loopHead =>
      have hpos' : s'.position = .loopHead := h.position ▸ hpos
      cases hflag : (s.world.device .video).newFrame with
      | false =>
          have hflag' : (s'.world.device .video).newFrame = false := h.channel ▸ hflag
          rw [main_stale lib hpos hflag, main_stale lib hpos' hflag']
          exact ⟨h, rfl⟩
      | true =>
          have hflag' : (s'.world.device .video).newFrame = true := h.channel ▸ hflag
          have hreference : reference lib s.world.videoFrame
              = reference lib s'.world.videoFrame := by
            apply reference_congr lib
            apply irMask_congr
            intro p
            unfold World.videoFrame
            rw [← h.channel]
            exact h.buffers _ p
          rw [main_fresh lib hpos hflag, main_fresh lib hpos' hflag', hreference, h.channel]
          have hdevice : Function.update s.world.device .video
              { s'.world.device .video with newFrame := false } .video
              = Function.update s'.world.device .video
                { s'.world.device .video with newFrame := false } .video := by
            simp
          exact ⟨⟨h.buffers, hdevice, h.randCalls, rfl⟩, rfl⟩
  | putWatchdog t =>
      have hpos' : s'.position = .putWatchdog t := h.position ▸ hpos
      rw [main_putWatchdog lib hpos, main_putWatchdog lib hpos', h.randCalls]
      exact ⟨⟨h.buffers, h.channel, rfl, rfl⟩, rfl⟩
  | putDistances t =>
      have hpos' : s'.position = .putDistances t := h.position ▸ hpos
      rw [main_putDistances lib hpos, main_putDistances lib hpos']
      exact ⟨⟨h.buffers, h.channel, h.randCalls, rfl⟩, rfl⟩
  | putAzimuths t =>
      have hpos' : s'.position = .putAzimuths t := h.position ▸ hpos
      rw [main_putAzimuths lib hpos, main_putAzimuths lib hpos']
      exact ⟨⟨h.buffers, h.channel, h.randCalls, rfl⟩, rfl⟩

/-- Alike steps put the same, and keep the masks the same. -/
theorem SameMasks.step (lib : Libraries K) {s s' : Vision K} (h : SameMasks s s') {e e' : Event}
    (he : AlikeEvent e e') :
    SameMasks ((process lib).step s e).1 ((process lib).step s' e').1 ∧
      ((process lib).step s e).2.puts = ((process lib).step s' e').2.puts := by
  cases he with
  | main => exact h.main lib
  | callback buffer =>
      refine ⟨⟨h.buffers, ?_, h.randCalls, h.position⟩, rfl⟩
      show videoCallback buffer s.world.device .video = videoCallback buffer s'.world.device .video
      rw [videoCallback, videoCallback, callback_self, callback_self]
  | write buffer p hside =>
      refine ⟨⟨?_, h.channel, h.randCalls, h.position⟩, rfl⟩
      intro buffer' q
      show SameSide (s.world.buffers.write .video buffer p _ .video buffer' q)
        (s'.world.buffers.write .video buffer p _ .video buffer' q)
      by_cases hq : buffer' = buffer ∧ q = p
      · obtain ⟨rfl, rfl⟩ := hq
        rw [Buffers.write_self, Buffers.write_self]
        exact hside
      · rw [Buffers.write_other _ _ _ hq, Buffers.write_other _ _ _ hq]
        exact h.buffers buffer' q
  | depthWrite buffer buffer' p p' x y =>
      refine ⟨⟨?_, h.channel, h.randCalls, h.position⟩, rfl⟩
      intro a q
      show SameSide (s.world.buffers.write .depth buffer p x .video a q)
        (s'.world.buffers.write .depth buffer' p' y .video a q)
      rw [Buffers.write_chan (by decide), Buffers.write_chan (by decide)]
      exact h.buffers a q
  | depthCallback buffer buffer' =>
      refine ⟨⟨h.buffers, ?_, h.randCalls, h.position⟩, rfl⟩
      show depthCallback buffer s.world.device .video = depthCallback buffer' s'.world.device .video
      rw [depthCallback, depthCallback, callback_other (by decide), callback_other (by decide)]
      exact h.channel

/-! ## §3 — whole runs. -/

/-- **The mask law.** Two runs with alike steps, from processes with video buffers on the same
sides, make the same Puts and leave the same table, and their buffers stay on the same sides. -/
theorem mask_law (lib : Libraries K) (t₀ : NetworkTable K) {s s' : Vision K} (h : SameMasks s s')
    {events events' : List Event} (hevents : List.Forall₂ AlikeEvent events events') :
    puts ((process lib).trace s events) = puts ((process lib).trace s' events') ∧
      tableAfter lib t₀ s events = tableAfter lib t₀ s' events' ∧
      SameMasks ((process lib).run s events) ((process lib).run s' events') := by
  obtain ⟨hrun, hputs⟩ := (process lib).lockstep (fun _ _ _ _ hs he => hs.step lib he) h hevents
  have hputs : puts ((process lib).trace s events) = puts ((process lib).trace s' events') := hputs
  refine ⟨hputs, ?_, hrun⟩
  rw [tableAfter, tableAfter, hputs]

/-- The law at a run over a frame with a target and one over the mask of the frame. -/
theorem mask_law_target :
    tableAfter uLibraries (fun _ => none) (started (fun _ => 0) uBuffers) (iteration 1)
      = tableAfter uLibraries (fun _ => none)
          (started (fun _ => 0) fun
            | .video => fun buffer => irMask (uBuffers .video buffer)
            | .depth => uBuffers .depth)
          (iteration 1) := by
  have hmasks : SameMasks (started (K := ℝ) (fun _ => 0) uBuffers) (started (fun _ => 0) fun
      | .video => fun buffer => irMask (uBuffers .video buffer)
      | .depth => uBuffers .depth) :=
    ⟨fun buffer p => sameSide_irMask (uBuffers .video buffer) p, rfl, rfl, rfl⟩
  have hevents : List.Forall₂ AlikeEvent (iteration 1) (iteration 1) :=
    .cons (.callback 1) (.cons .main (.cons .main (.cons .main (.cons .main .nil))))
  exact (mask_law uLibraries (fun _ => none) hmasks hevents).2.1

end Runs

end NinjaVision
