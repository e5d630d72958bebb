/-
# NinjaVision.Device.Snapshot — what a poll copies when the driver keeps writing.

The callbacks store the driver's pointer (`videoMat.data = video`); the pixels are copied later, by
the poll. The mutex covers the pointer and the flag, not the buffer, and libfreenect writes its
buffers without it. So a successful poll returns what the buffer contains *at the poll*, and this is
the frame that was handed over only if the driver did not change the buffer in between.

`snapshot_iff_undisturbed` is that condition, exactly: on every run, on either channel, all
successful polls return the frame as it was at the latest callback if and only if, for every pending
frame, the last write to each of its pixels before the poll (if there is one) wrote back what the
pixel held at the callback. `torn_frame` is a run of three steps on which a poll mixes two frames.
-/
import NinjaVision.Device.CvFreenect

namespace NinjaVision

/-! ## §1 — buffers under a run. -/

/-- A step that does not write the pixel leaves it alone. -/
theorem step_buffer {c : Chan} {a : Addr} {p : Pixel} {call : Call}
    (h : ∀ v, call ≠ .driver (.write c a p v)) (w : World) :
    (hub.step w call).1.buffers c a p = w.buffers c a p := by
  rcases call with (⟨c', a', p', v⟩ | ⟨c', a'⟩) | ⟨c', output⟩
  · by_cases hc : c = c'
    · subst hc
      refine Buffers.write_other w.buffers c v ?_
      rintro ⟨rfl, rfl⟩
      exact h v rfl
    · exact congrFun (congrFun (Buffers.write_chan hc w.buffers a' p' v) a) p
  · rw [hub_step_driver, driver_callback]
  · rw [hub_step_get]

/-- Calls that do not write the pixel leave it alone. -/
theorem run_buffer {c : Chan} {a : Addr} {p : Pixel} {calls : List Call}
    (h : ∀ v, Call.driver (.write c a p v) ∉ calls) (w : World) :
    (hub.run w calls).buffers c a p = w.buffers c a p := by
  induction calls generalizing w with
  | nil => rfl
  | cons call calls ih =>
      have hcall : ∀ v, call ≠ .driver (.write c a p v) := fun v he => h v (he ▸ List.mem_cons_self)
      rw [Lib.Machine.run_cons, ih (fun v hv => h v (List.mem_cons_of_mem _ hv)), step_buffer hcall]

/-- After a write that no later call repeats, the pixel holds what was written. -/
theorem run_last_write {c : Chan} {a : Addr} {p : Pixel} (m₁ m₂ : List Call) (v : c.Sample)
    (h : ∀ v', Call.driver (.write c a p v') ∉ m₂) (w : World) :
    (hub.run w (m₁ ++ .driver (.write c a p v) :: m₂)).buffers c a p = v := by
  rw [Lib.Machine.run_append, Lib.Machine.run_cons, run_buffer h]
  exact Buffers.write_self ..

/-- Calls that write the pixel have a last one that does. -/
theorem exists_last_write {c : Chan} {a : Addr} {p : Pixel} :
    ∀ {calls : List Call} {v : c.Sample}, Call.driver (.write c a p v) ∈ calls →
      ∃ m₁ v' m₂, calls = m₁ ++ .driver (.write c a p v') :: m₂ ∧
        ∀ v'', Call.driver (.write c a p v'') ∉ m₂
  | call :: calls, v, h => by
      -- the last write is in the tail unless no later call writes the pixel
      by_cases hlater : ∃ v', Call.driver (.write c a p v') ∈ calls
      · obtain ⟨v', hv'⟩ := hlater
        obtain ⟨m₁, v'', m₂, rfl, hm₂⟩ := exists_last_write hv'
        exact ⟨call :: m₁, v'', m₂, rfl, hm₂⟩
      · have hnone : ∀ v', Call.driver (.write c a p v') ∉ calls := fun v' hv' => hlater ⟨v', hv'⟩
        rcases List.mem_cons.mp h with rfl | h
        · exact ⟨[], v, calls, rfl, hnone⟩
        · exact absurd h (hnone v)

/-- The last write to a pixel among the calls, if there is one, wrote `v₀`. -/
def Restored (c : Chan) (a : Addr) (p : Pixel) (v₀ : c.Sample) (calls : List Call) : Prop :=
  ∀ m₁ v m₂, calls = m₁ ++ .driver (.write c a p v) :: m₂ →
    (∀ v', Call.driver (.write c a p v') ∉ m₂) → v = v₀

/-- A pixel holds after the calls what it held before them exactly when the last write restored
it. -/
theorem buffer_unchanged_iff (c : Chan) (a : Addr) (p : Pixel) (calls : List Call) (w : World) :
    (hub.run w calls).buffers c a p = w.buffers c a p ↔ Restored c a p (w.buffers c a p) calls := by
  constructor
  · rintro heq m₁ v m₂ rfl hm₂
    rw [← heq, run_last_write m₁ m₂ v hm₂]
  · intro hres
    by_cases hwrite : ∃ v, Call.driver (.write c a p v) ∈ calls
    · obtain ⟨v, hv⟩ := hwrite
      obtain ⟨m₁, v', m₂, rfl, hm₂⟩ := exists_last_write hv
      rw [run_last_write m₁ m₂ v' hm₂]
      exact hres m₁ v' m₂ rfl hm₂
    · exact run_buffer (fun v hv => hwrite ⟨v, hv⟩) w

/-! ## §2 — the channel while a frame is pending. -/

/-- A step that does not deliver on channel `c` leaves the channel alone, or polls it and lowers the
flag. -/
theorem step_device {c : Chan} {call : Call} (hcb : ∀ b, call ≠ .driver (.callback c b))
    (w : World) :
    (hub.step w call).1.device c = w.device c ∨
      (∃ output, call = .get c output) ∧ ((hub.step w call).1.device c).newFrame = false := by
  rcases call with (⟨c', a, p, v⟩ | ⟨c', a⟩) | ⟨c', output⟩
  · exact Or.inl rfl
  · have hne : c ≠ c' := by
      rintro rfl
      exact hcb a rfl
    rw [hub_step_driver, driver_callback]
    exact Or.inl (callback_other hne a w.device)
  · rw [hub_step_get]
    by_cases hc : c = c'
    · subst hc
      exact Or.inr ⟨⟨output, rfl⟩, congrArg Channel.newFrame (poll_self ..)⟩
    · exact Or.inl (poll_other hc w.buffers output w.device)

/-- Calls that neither deliver on channel `c` nor poll it leave the channel alone. -/
theorem run_quiet {c : Chan} {calls : List Call} (hcb : ∀ b, Call.driver (.callback c b) ∉ calls)
    (hget : ∀ output, Call.get c output ∉ calls) (w : World) :
    (hub.run w calls).device c = w.device c := by
  induction calls generalizing w with
  | nil => rfl
  | cons call calls ih =>
      rw [Lib.Machine.run_cons, ih (fun b hb => hcb b (List.mem_cons_of_mem _ hb))
        (fun o ho => hget o (List.mem_cons_of_mem _ ho))]
      rcases step_device (fun b he => hcb b (he ▸ List.mem_cons_self)) w with
          hsame | ⟨⟨output, rfl⟩, _⟩
      · exact hsame
      · exact absurd List.mem_cons_self (hget output)

/-- Without a delivery, a flag that is down stays down. -/
theorem run_lowered {c : Chan} {calls : List Call} (hcb : ∀ b, Call.driver (.callback c b) ∉ calls)
    {w : World} (hflag : (w.device c).newFrame = false) :
    ((hub.run w calls).device c).newFrame = false := by
  induction calls generalizing w with
  | nil => exact hflag
  | cons call calls ih =>
      refine ih (fun b hb => hcb b (List.mem_cons_of_mem _ hb)) ?_
      rcases step_device (fun b he => hcb b (he ▸ List.mem_cons_self)) w with hsame | ⟨_, hdown⟩
      · rw [hsame, hflag]
      · exact hdown

/-- The world at the moment a frame is handed over. -/
theorem run_callback (w₀ : World) (pre mid : List Call) (c : Chan) (a : Addr) :
    hub.run w₀ (pre ++ .driver (.callback c a) :: mid)
      = hub.run { hub.run w₀ pre with device := callback c a (hub.run w₀ pre).device } mid := by
  rw [Lib.Machine.run_append, Lib.Machine.run_cons, hub_step_driver, driver_callback]

/-- Until it is polled, a frame that was handed over is pending. -/
theorem device_pending {c : Chan} {mid : List Call} (hcb : ∀ b, Call.driver (.callback c b) ∉ mid)
    (hget : ∀ output, Call.get c output ∉ mid) (w₀ : World) (pre : List Call) (a : Addr) :
    (hub.run w₀ (pre ++ .driver (.callback c a) :: mid)).device c = ⟨a, true⟩ := by
  rw [run_callback, run_quiet hcb hget]
  exact callback_self c a _

/-- A frame handed over and not polled since is what the next poll copies, as the buffer is then. -/
theorem poll_pending {c : Chan} {mid : List Call} (hcb : ∀ b, Call.driver (.callback c b) ∉ mid)
    (hget : ∀ output, Call.get c output ∉ mid) (w₀ : World) (pre : List Call) (a : Addr)
    (output : Image c.Output) :
    ∃ w', hub.step (hub.run w₀ (pre ++ .driver (.callback c a) :: mid)) (.get c output)
      = (w', .got c true
          (c.copyOut ((hub.run w₀ (pre ++ .driver (.callback c a) :: mid)).buffers c a))) := by
  have hdev := device_pending hcb hget w₀ pre a
  have hflag : ((hub.run w₀ (pre ++ .driver (.callback c a) :: mid)).device c).newFrame = true := by
    rw [hdev]
  rw [hub_step_get, poll_fresh hflag, hdev]
  exact ⟨_, rfl⟩

/-- A poll that returns true after the latest callback is the first poll since that callback. -/
theorem no_poll_between {c : Chan} {mid : List Call} (hcb : ∀ b, Call.driver (.callback c b) ∉ mid)
    {w₀ : World} {pre : List Call} {a : Addr} {output output' : Image c.Output} {w' : World}
    (htook : hub.step (hub.run w₀ (pre ++ .driver (.callback c a) :: mid)) (.get c output)
      = (w', .got c true output')) : ∀ o, Call.get c o ∉ mid := by
  intro o ho
  obtain ⟨m₁, m₂, rfl⟩ := List.append_of_mem ho
  -- a poll in between lowers the flag, and no callback raises it before the next one
  have hm₂ : ∀ b, Call.driver (.callback c b) ∉ m₂ := fun b hb => hcb b (by simp [hb])
  have hsplit : pre ++ .driver (.callback c a) :: (m₁ ++ .get c o :: m₂)
      = (pre ++ .driver (.callback c a) :: m₁) ++ .get c o :: m₂ := by simp
  have hdown :
      ((hub.run w₀ (pre ++ .driver (.callback c a) :: (m₁ ++ .get c o :: m₂))).device c).newFrame
        = false := by
    rw [hsplit, Lib.Machine.run_append, Lib.Machine.run_cons]
    refine run_lowered hm₂ ?_
    rw [hub_step_get]
    exact congrArg Channel.newFrame (poll_self ..)
  rw [hub_step_get, poll_stale hdown] at htook
  have hans := congrArg Prod.snd htook
  simp at hans

/-! ## §3 — snapshot integrity. -/

/-- Every successful poll of channel `c` in the run returns, in every pixel, what the buffer of the
most recent callback held at that callback. -/
def SnapshotIntegrity (c : Chan) (w₀ : World) (calls : List Call) : Prop :=
  ∀ pre a mid output post w' output',
    calls = pre ++ .driver (.callback c a) :: (mid ++ .get c output :: post) →
    (∀ b, Call.driver (.callback c b) ∉ mid) →
    hub.step (hub.run w₀ (pre ++ .driver (.callback c a) :: mid)) (.get c output)
      = (w', .got c true output') →
    output' = c.copyOut ((hub.run w₀ pre).buffers c a)

/-- Between a callback of channel `c` and the first poll after it, the last write to each pixel of
the handed-over buffer, if any, wrote what the pixel held at the callback. -/
def Undisturbed (c : Chan) (w₀ : World) (calls : List Call) : Prop :=
  ∀ pre a mid output post,
    calls = pre ++ .driver (.callback c a) :: (mid ++ .get c output :: post) →
    (∀ b, Call.driver (.callback c b) ∉ mid) → (∀ o, Call.get c o ∉ mid) →
    ∀ p, Restored c a p ((hub.run w₀ pre).buffers c a p) mid

/-- Different frames are copied out as different images. -/
theorem copyOut_injective (c : Chan) : Function.Injective c.copyOut := by
  intro s t h
  cases c with
  | video => exact funext fun p => congrArg Bgr.b (congrFun h p)
  | depth => exact h

/-- A handed-over buffer holds at the end of the window what it held at the callback exactly when
the last write to each pixel restored it. -/
theorem window_unchanged_iff (c : Chan) (w₀ : World) (pre : List Call) (a : Addr) (mid : List Call)
    (p : Pixel) :
    (hub.run w₀ (pre ++ .driver (.callback c a) :: mid)).buffers c a p
        = (hub.run w₀ pre).buffers c a p ↔
      Restored c a p ((hub.run w₀ pre).buffers c a p) mid := by
  rw [run_callback]
  exact buffer_unchanged_iff c a p mid _

/-- The first poll after a callback succeeds, so integrity speaks about every window. -/
theorem SnapshotIntegrity.undisturbed {c : Chan} {w₀ : World} {calls : List Call}
    (hsnap : SnapshotIntegrity c w₀ calls) : Undisturbed c w₀ calls := by
  intro pre a mid output post hcalls hcb hget p
  obtain ⟨w', hstep⟩ := poll_pending hcb hget w₀ pre a output
  have hcopy := hsnap pre a mid output post w' _ hcalls hcb hstep
  exact (window_unchanged_iff c w₀ pre a mid p).mp (congrFun (copyOut_injective c hcopy) p)

theorem Undisturbed.snapshotIntegrity {c : Chan} {w₀ : World} {calls : List Call}
    (hund : Undisturbed c w₀ calls) : SnapshotIntegrity c w₀ calls := by
  intro pre a mid output post w' output' hcalls hcb htook
  have hget := no_poll_between hcb htook
  obtain ⟨w'', hstep⟩ := poll_pending hcb hget w₀ pre a output
  obtain rfl : output'
      = c.copyOut ((hub.run w₀ (pre ++ .driver (.callback c a) :: mid)).buffers c a) := by
    have hans := congrArg Prod.snd (htook.symm.trans hstep)
    simpa using hans
  refine congrArg c.copyOut (funext fun p => ?_)
  exact (window_unchanged_iff c w₀ pre a mid p).mpr (hund pre a mid output post hcalls hcb hget p)

/-- **Snapshot integrity holds exactly on undisturbed runs**, from any world and on either
channel. -/
theorem snapshot_iff_undisturbed (c : Chan) (w₀ : World) (calls : List Call) :
    SnapshotIntegrity c w₀ calls ↔ Undisturbed c w₀ calls :=
  ⟨SnapshotIntegrity.undisturbed, Undisturbed.snapshotIntegrity⟩

/-- A driver that leaves a handed-over buffer alone until it was polled keeps snapshot integrity. -/
theorem snapshot_of_no_write {c : Chan} {w₀ : World} {calls : List Call}
    (h : ∀ pre a mid output post,
      calls = pre ++ .driver (.callback c a) :: (mid ++ .get c output :: post) →
      (∀ b, Call.driver (.callback c b) ∉ mid) → (∀ o, Call.get c o ∉ mid) →
      ∀ p v, Call.driver (.write c a p v) ∉ mid) : SnapshotIntegrity c w₀ calls := by
  apply Undisturbed.snapshotIntegrity
  rintro pre a mid output post hcalls hcb hget p m₁ v m₂ rfl _
  exact absurd (by simp) (h pre a _ output post hcalls hcb hget p v)

/-- Buffers that are black everywhere. -/
def blackBuffers : Buffers
  | .video, _, _ => 0
  | .depth, _, _ => 0

/-- The run that tears a frame: a black frame is handed over, the driver starts on the next frame in
the same buffer, and the poll comes after its first pixel. -/
def tornRun : List Call :=
  [.driver (.callback .video 1), .driver (.write .video 1 (0, 0) 255),
    .get .video fun _ => ⟨0, 0, 0⟩]

/-- **A torn frame**: the poll of `tornRun` returns one pixel of a frame that was not delivered yet,
among the pixels of the one that was. -/
theorem torn_frame : ¬ SnapshotIntegrity .video (boot (fun _ => 0) blackBuffers) tornRun := by
  intro h
  have hcopy :=
    h [] 1 [.driver (.write .video 1 (0, 0) 255)] (fun _ => ⟨0, 0, 0⟩) [] _ _ rfl (by simp) rfl
  have hpixel : (255 : UInt8) = 0 := congrArg Bgr.b (congrFun hcopy (0, 0))
  exact absurd hpixel (by decide)

end NinjaVision
