/-
# NinjaVision.Device.Handoff — each channel of the device is a one-slot mailbox.

The abstract model of a channel is the mailbox of `Lib.Mailbox`: callbacks deliver buffer addresses,
polls take the latest one. `channelEvents c` reads off a run of the device what happened on channel
`c`, and `channel_refines` shows that this history is a legal mailbox history whose slot is the
channel's flag and pointer. What the polling thread may rely on (`handoff_protocol`) is then the
mailbox laws, stated about the calls and their results. `trace_erase` is the independence of the two
channels.
-/
import NinjaVision.Device.CvFreenect
import NinjaVision.Lib.Mailbox

namespace NinjaVision

open Lib (Machine)
open Lib.Mailbox (Event Legal Fresh Superseded slot delivered consumed)

/-! ## §1 — the mailbox behind a channel. -/

/-- The channel a call belongs to. -/
def Call.chan : Call → Chan
  | .driver (.write c _ _ _) => c
  | .driver (.callback c _) => c
  | .get c _ => c

/-- What a call means for the mailbox of channel `c`. -/
def channelEvent (c : Chan) : Call × Answer → Option (Event Addr)
  | (.driver (.callback c' buffer), _) => if c' = c then some (.deliver buffer) else none
  | (_, .got c' took _) => if c' = c then some (.poll took) else none
  | _ => none

/-- The mailbox history of channel `c` in a history of the device. -/
def channelEvents (c : Chan) (h : List (Call × Answer)) : List (Event Addr) :=
  h.filterMap (channelEvent c)

/-- The mailbox slot of a channel: its pointer while the flag is up. -/
def Channel.slot (ch : Channel) : Option Addr := if ch.newFrame then some ch.data else none

@[simp] theorem slot_raised (a : Addr) : (Channel.mk a true).slot = some a := rfl

@[simp] theorem slot_lowered (a : Addr) : (Channel.mk a false).slot = none := rfl

theorem slot_isSome (ch : Channel) : ch.slot.isSome = ch.newFrame := by
  obtain ⟨a, flag⟩ := ch
  cases flag <;> rfl

theorem channelEvents_concat (c : Chan) (h : List (Call × Answer)) (e : Call × Answer) :
    channelEvents c (h ++ [e]) = channelEvents c h ++ (channelEvent c e).toList := by
  unfold channelEvents
  rw [List.filterMap_append]
  cases he : channelEvent c e <;> simp [he]

/-- What one step does to the mailbox of channel `c`: it is not concerned, a delivery fills its
slot, or a poll answers with the slot and empties it. -/
theorem step_channel (c : Chan) (w : World) (call : Call) :
    (channelEvent c (call, (hub.step w call).2) = none ∧
      (hub.step w call).1.device c = w.device c) ∨
    (∃ a, channelEvent c (call, (hub.step w call).2) = some (.deliver a) ∧
      (hub.step w call).1.device c = ⟨a, true⟩) ∨
    (channelEvent c (call, (hub.step w call).2) = some (.poll (w.device c).newFrame) ∧
      (hub.step w call).1.device c = ⟨(w.device c).data, false⟩) := by
  rcases call with (⟨c', a, p, v⟩ | ⟨c', a⟩) | ⟨c', output⟩
  · exact Or.inl ⟨rfl, rfl⟩
  · rw [hub_step_driver, driver_callback]
    by_cases hc : c' = c
    · subst hc
      exact Or.inr (Or.inl ⟨a, by simp [channelEvent], by simp⟩)
    · exact Or.inl ⟨by simp [channelEvent, hc], callback_other (Ne.symm hc) a w.device⟩
  · rw [hub_step_get]
    by_cases hc : c' = c
    · subst hc
      exact Or.inr
        (Or.inr ⟨by simp [channelEvent, poll_took], poll_self c' w.buffers output w.device⟩)
    · exact Or.inl ⟨by simp [channelEvent, hc], poll_other (Ne.symm hc) w.buffers output w.device⟩

/-- **The channel refines the mailbox**: after every run the events of channel `c` form a legal
mailbox history, and the slot of that history is what the flag and the pointer say. -/
theorem channel_refines (own : Chan → Addr) (buffers : Buffers) (c : Chan) (calls : List Call) :
    Legal (channelEvents c (hub.trace (boot own buffers) calls)) ∧
      slot (channelEvents c (hub.trace (boot own buffers) calls))
        = ((hub.run (boot own buffers) calls).device c).slot := by
  refine hub.history_invariant
    (fun w h => Legal (channelEvents c h) ∧ slot (channelEvents c h) = (w.device c).slot)
    ⟨Lib.Mailbox.legal_nil, rfl⟩ ?_ calls
  rintro w h call ⟨hlegal, hslot⟩
  rw [channelEvents_concat]
  rcases step_channel c w call with ⟨he, hd⟩ | ⟨a, he, hd⟩ | ⟨he, hd⟩
  · rw [he, hd, Option.toList_none, List.append_nil]
    exact ⟨hlegal, hslot⟩
  · rw [he, hd, Option.toList_some, Lib.Mailbox.slot_concat]
    exact ⟨Lib.Mailbox.legal_concat.mpr ⟨hlegal, trivial⟩, rfl⟩
  · rw [he, hd, Option.toList_some, Lib.Mailbox.slot_concat]
    refine ⟨Lib.Mailbox.legal_concat.mpr ⟨hlegal, ?_⟩, rfl⟩
    -- a poll answers with the flag, and the flag says whether the slot is full
    show (w.device c).newFrame = (slot (channelEvents c h)).isSome
    rw [hslot, slot_isSome]

/-! ## §2 — the channels do not see each other. -/

/-- Two worlds look the same from channel `c`. -/
def AgreeOn (c : Chan) (w w' : World) : Prop :=
  w.buffers c = w'.buffers c ∧ w.device c = w'.device c

/-- A step of the other channel changes nothing that channel `c` sees. -/
theorem AgreeOn.skip {c : Chan} {w w' : World} (h : AgreeOn c w w') {call : Call}
    (hc : call.chan ≠ c) : AgreeOn c (hub.step w call).1 w' := by
  rcases call with (⟨c', a, p, v⟩ | ⟨c', a⟩) | ⟨c', output⟩
  · exact ⟨(Buffers.write_chan (Ne.symm hc) w.buffers a p v).trans h.1, h.2⟩
  · rw [hub_step_driver, driver_callback]
    exact ⟨h.1, (callback_other (Ne.symm hc) a w.device).trans h.2⟩
  · rw [hub_step_get]
    exact ⟨h.1, (poll_other (Ne.symm hc) w.buffers output w.device).trans h.2⟩

/-- A poll of channel `c` reads nothing else. -/
theorem AgreeOn.poll_result {c : Chan} {w w' : World} (h : AgreeOn c w w')
    (output : Image c.Output) :
    (poll c w.buffers output w.device).1 = (poll c w'.buffers output w'.device).1 ∧
    (poll c w.buffers output w.device).2.1
      = (poll c w'.buffers output w'.device).2.1 := by
  cases hf : (w.device c).newFrame with
  | true =>
      -- fresh in one world is fresh in the other, from buffers with the same contents
      have hf' : (w'.device c).newFrame = true := h.2 ▸ hf
      rw [poll_fresh hf, poll_fresh hf', h.1, h.2]
      exact ⟨rfl, rfl⟩
  | false =>
      have hf' : (w'.device c).newFrame = false := h.2 ▸ hf
      rw [poll_stale hf, poll_stale hf']
      exact ⟨rfl, rfl⟩

/-- A step of channel `c` gives the same answer in both worlds and keeps them alike. -/
theorem AgreeOn.step {c : Chan} {w w' : World} (h : AgreeOn c w w') {call : Call}
    (hc : call.chan = c) :
    (hub.step w call).2 = (hub.step w' call).2 ∧
      AgreeOn c (hub.step w call).1 (hub.step w' call).1 := by
  subst hc
  rcases call with (⟨c', a, p, v⟩ | ⟨c', a⟩) | ⟨c', output⟩
  · refine ⟨rfl, ?_, h.2⟩
    have hbuf : w.buffers c' = w'.buffers c' := h.1
    show w.buffers.write c' a p v c' = w'.buffers.write c' a p v c'
    simp only [Buffers.write, Function.update_self, hbuf]
  · rw [hub_step_driver, hub_step_driver, driver_callback, driver_callback]
    exact ⟨rfl, h.1, (callback_self c' a w.device).trans (callback_self c' a w'.device).symm⟩
  · have hagree : AgreeOn c' w w' := h
    obtain ⟨htook, hout⟩ := hagree.poll_result output
    rw [hub_step_get, hub_step_get]
    refine ⟨?_, h.1, ?_⟩
    · show Answer.got c' _ _ = Answer.got c' _ _
      rw [htook, hout]
    · show (poll c' w.buffers output w.device).2.2 c'
        = (poll c' w'.buffers output w'.device).2.2 c'
      rw [poll_self, poll_self, hagree.2]

/-- **Erasing the other channel**: the part of a run that belongs to channel `c`, answers included,
is the run of its own calls. -/
theorem trace_erase (c : Chan) {w w' : World} (h : AgreeOn c w w') (calls : List Call) :
    (hub.trace w calls).filter (fun e => decide (e.1.chan = c))
      = hub.trace w' (calls.filter fun call => decide (call.chan = c)) := by
  induction calls generalizing w w' with
  | nil => rfl
  | cons call calls ih =>
      by_cases hc : call.chan = c
      · obtain ⟨hans, hnext⟩ := h.step hc
        rw [Machine.trace_cons, List.filter_cons_of_pos (by simpa using hc),
          List.filter_cons_of_pos (by simpa using hc), Machine.trace_cons, hans, ih hnext]
      · rw [Machine.trace_cons, List.filter_cons_of_neg (by simpa using hc),
          List.filter_cons_of_neg (by simpa using hc), ih (h.skip hc)]

/-! ## §3 — the protocol. -/

/-- A poll after a run, in terms of the mailbox history of its channel. -/
theorem poll_after (own : Chan → Addr) (buffers : Buffers) (calls : List Call) (c : Chan)
    (output : Image c.Output) :
    ∃ took output' w', hub.step (hub.run (boot own buffers) calls) (.get c output)
        = (w', .got c took output') ∧
      (took = true ↔ Fresh (channelEvents c (hub.trace (boot own buffers) calls))) ∧
      (took = true → ∃ a,
        (delivered (channelEvents c (hub.trace (boot own buffers) calls))).getLast? = some a ∧
        output' = c.copyOut ((hub.run (boot own buffers) calls).buffers c a)) ∧
      (took = false → output' = output ∧ w' = hub.run (boot own buffers) calls) := by
  obtain ⟨hlegal, hslot⟩ := channel_refines own buffers c calls
  have hfresh := Lib.Mailbox.fresh_iff hlegal
  rw [hslot, slot_isSome] at hfresh
  refine ⟨_, _, _, hub_step_get _ c output, ?_, ?_, ?_⟩
  · rw [poll_took, hfresh]
  · intro htook
    rw [poll_took] at htook
    refine ⟨((hub.run (boot own buffers) calls).device c).data, ?_, ?_⟩
    · apply Lib.Mailbox.getLast?_delivered
      rw [hslot, Channel.slot, htook]
      rfl
    · rw [poll_fresh htook]
  · intro htook
    rw [poll_took] at htook
    rw [poll_stale htook]
    exact ⟨rfl, rfl⟩

/-- **The hand-off protocol.** After every run from a fresh device, on either channel: a poll
answers true exactly when a callback came since the last poll that did; it then copies out of the
buffer handed over last, and otherwise leaves the caller's `Mat` and the device as they were. Over
the run no delivery is consumed twice and the consumed ones keep their order; every delivery is
consumed, pending or superseded; and without the calls of the other channel the run has the same
results. -/
theorem handoff_protocol (own : Chan → Addr) (buffers : Buffers) (calls : List Call) (c : Chan) :
    let w := hub.run (boot own buffers) calls
    let h := channelEvents c (hub.trace (boot own buffers) calls)
    (∀ output, ∃ took output' w', hub.step w (.get c output) = (w', .got c took output') ∧
      (took = true ↔ Fresh h) ∧
      (took = true → ∃ a, (delivered h).getLast? = some a ∧ output' = c.copyOut (w.buffers c a)) ∧
      (took = false → output' = output ∧ w' = w)) ∧
    (consumed h).Pairwise (· < ·) ∧
    (∀ k ∈ consumed h, k < (delivered h).length) ∧
    (∀ k < (delivered h).length,
      k ∈ consumed h ∨ (k + 1 = (delivered h).length ∧ (w.device c).newFrame = true) ∨
        Superseded h k) ∧
    (hub.trace (boot own buffers) calls).filter (fun e => decide (e.1.chan = c))
      = hub.trace (boot own buffers) (calls.filter fun call => decide (call.chan = c)) := by
  intro w h
  obtain ⟨hlegal, hslot⟩ := channel_refines own buffers c calls
  refine ⟨poll_after own buffers calls c, Lib.Mailbox.consumed_pairwise hlegal, ?_, ?_,
    trace_erase c ⟨rfl, rfl⟩ calls⟩
  · intro k hk
    exact Nat.lt_of_le_of_lt (Nat.le_add_right k _) (Lib.Mailbox.consumed_lt hlegal k hk)
  · intro k hk
    have hfate := Lib.Mailbox.delivery_fate hlegal k hk
    rwa [hslot, slot_isSome] at hfate

end NinjaVision
