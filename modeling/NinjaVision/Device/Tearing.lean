/-
# NinjaVision.Device.Tearing — snapshot integrity of a poll that is copying.

`Device.Snapshot` says when a poll returns the frame that was handed over, for polls in one step. A
poll really copies 307200 pixels one after the other, and libfreenect may write each of them before
or after it is copied. `calls_are_atomic` turns such a run into one of one-step polls: a write to a
pixel that is copied already comes after the poll there, a write to one that is not comes before it
(`callsOf`).

`polls_intact_iff` carries the condition over: the polls of a run return what was handed over, pixel
by pixel, exactly when the run of one-step calls behind it is undisturbed, that is, when for every
pixel the last write between the return of the callback and the copy of that pixel, if any, restored
it. A driver that leaves the buffer alone until the poll has returned is enough
(`polls_intact_of_no_write`).
-/
import NinjaVision.Device.Locking
import NinjaVision.Device.Snapshot

namespace NinjaVision

open Lib.Critical (returns)

variable {T : Type} [DecidableEq T]

/-! ## §1 — returns, and calls of the one-step device. -/

/-- The step returns from the method with the answer. -/
def Returns (scan : Scan) (s : Threads T) (e : ThreadStep T) (m : Method) (ans : Answer) : Prop :=
  ((threads scan).step s e).2 = some (m, ans)

theorem returns_concat (scan : Scan) {s : Threads T} {pre : List (ThreadStep T)} {e : ThreadStep T}
    {m : Method} {ans : Answer} (h : Returns scan ((threads scan).run s pre) e m ans) :
    returns ((threads scan).trace s (pre ++ [e]))
      = returns ((threads scan).trace s pre) ++ [(m, ans)] := by
  rw [Lib.Machine.trace_concat, Lib.Critical.returns_append, h]
  rfl

/-- What is behind a longer run is what is behind the shorter one, and more. -/
theorem callsOf_append (scan : Scan) (own : Chan → Addr) (buffers : Buffers)
    (steps steps' : List (ThreadStep T)) :
    ∃ calls, callsOf scan own buffers (steps ++ steps')
      = callsOf scan own buffers steps ++ calls := by
  rw [callsOf, Lib.Critical.linearized_append, List.map_append]
  exact ⟨_, rfl⟩

/-- A callback stands behind its run where it returns. -/
theorem callsOf_callback (scan : Scan) (own : Chan → Addr) (buffers : Buffers)
    {pre : List (ThreadStep T)} {e : ThreadStep T} {c : Chan} {a : Addr} {ans : Answer}
    (h : Returns scan ((threads scan).run (bootThreads own buffers) pre) e (.callback c a) ans) :
    callsOf scan own buffers (pre ++ [e])
      = callsOf scan own buffers pre ++ [.driver (.callback c a)] := by
  obtain ⟨t, rfl, ht⟩ := (Lib.Critical.step_returns_iff _ _ _).mp h
  have hnone : ((deviceSystem scan).body (.callback c a)).Reads ∅ := by
    show ((Method.callback c a).body scan).Reads ∅
    rw [body_callback]
    trivial
  rw [callsOf, bootThreads, Lib.Critical.linearized_unloaded _ _ hnone ht, List.map_append]
  rfl

/-- A poll stands behind its run where it returns, and the writes that waited for it follow. -/
theorem callsOf_return (scan : Scan) (own : Chan → Addr) (buffers : Buffers)
    {pre : List (ThreadStep T)} {e : ThreadStep T} {m : Method} {ans : Answer}
    (h : Returns scan ((threads scan).run (bootThreads own buffers) pre) e m ans) :
    ∃ calls, callsOf scan own buffers (pre ++ [e])
      = callsOf scan own buffers pre ++ callOf (.method m) :: calls := by
  obtain ⟨t, rfl, ht⟩ := (Lib.Critical.step_returns_iff _ _ _).mp h
  rw [callsOf, Lib.Critical.linearized_return _ ht, List.map_append, List.map_cons]
  exact ⟨_, rfl⟩

theorem method_callOf (m : Method) : (callOf (.method m)).method = some m := by
  cases m <;> rfl

/-- **A call behind a run** was returned from by one step. -/
theorem callsOf_split (scan : Scan) (own : Chan → Addr) (buffers : Buffers)
    {steps : List (ThreadStep T)} {pre : List Call} {call : Call} {post : List Call} {m : Method}
    (hm : call.method = some m) (h : callsOf scan own buffers steps = pre ++ call :: post) :
    ∃ before e after ans, steps = before ++ e :: after ∧ callsOf scan own buffers before = pre ∧
      Returns scan ((threads scan).run (bootThreads own buffers) before) e m ans := by
  obtain ⟨pre', tail, hsplit, rfl, htail⟩ := List.map_eq_append_iff.mp h
  obtain ⟨x, post', rfl, rfl, -⟩ := List.map_eq_cons_iff.mp htail
  cases x with
  | write l v => cases hm
  | method m' =>
      obtain rfl : m' = m := Option.some.inj ((method_callOf m').symm.trans hm)
      obtain ⟨before, t, ans, after, rfl, rfl, ht⟩ := Lib.Critical.linearized_split _ hsplit
      exact ⟨before, .run t, after, ans, rfl, rfl,
        (Lib.Critical.step_returns_iff _ _ _).mpr ⟨t, rfl, ht⟩⟩

/-! ## §2 — answers, and what was handed over. -/

theorem results_append (h h' : List (Call × Answer)) :
    results (h ++ h') = results h ++ results h' :=
  List.filterMap_append

theorem mem_results {w : World} {calls : List Call} {m : Method} :
    (∃ ans, (m, ans) ∈ results (hub.trace w calls)) ↔ ∃ call ∈ calls, call.method = some m := by
  induction calls generalizing w with
  | nil => simp [results]
  | cons call calls ih =>
      simp only [Lib.Machine.trace_cons, results_cons, List.mem_append, exists_or, ih,
        List.mem_cons, exists_eq_or_imp]
      refine or_congr_left ?_
      cases hm : call.method with
      | none => simp
      | some m' => simp [eq_comm]

/-- The one-step call gives the answer that the step returned with. -/
theorem answer_callsOf (scan : Scan) (own : Chan → Addr) (buffers : Buffers)
    {pre : List (ThreadStep T)} {e : ThreadStep T} {m : Method} {ans : Answer}
    (h : Returns scan ((threads scan).run (bootThreads own buffers) pre) e m ans) :
    (hub.step (hub.run (boot own buffers) (callsOf scan own buffers pre)) (callOf (.method m))).2
      = ans := by
  obtain ⟨calls, hcalls⟩ := callsOf_return scan own buffers h
  have hbefore := results_callsOf scan own buffers pre
  have hafter := results_callsOf scan own buffers (pre ++ [e])
  rw [returns_concat scan h, hcalls, Lib.Machine.trace_append, results_append, hbefore,
    Lib.Machine.trace_cons, results_cons, method_callOf] at hafter
  have hhead := List.append_cancel_left hafter
  simp only [Option.map_some, Option.toList_some, List.singleton_append, List.cons.injEq,
    Prod.mk.injEq, true_and] at hhead
  exact hhead.1

/-- Calls behind the end of a run are its returns there. -/
theorem mem_returns_callsOf (scan : Scan) (own : Chan → Addr) (buffers : Buffers)
    {pre mid : List (ThreadStep T)} {calls : List Call}
    (h : callsOf scan own buffers (pre ++ mid) = callsOf scan own buffers pre ++ calls)
    (m : Method) :
    (∃ ans, (m, ans) ∈ returns ((threads scan).trace
      ((threads scan).run (bootThreads own buffers) pre) mid))
      ↔ ∃ call ∈ calls, call.method = some m := by
  have hbefore := results_callsOf scan own buffers pre
  have hafter := results_callsOf scan own buffers (pre ++ mid)
  rw [h, Lib.Machine.trace_append, Lib.Machine.trace_append, results_append,
    Lib.Critical.returns_append, hbefore] at hafter
  rw [← List.append_cancel_left hafter, mem_results]

theorem method_callback_iff {call : Call} {c : Chan} {a : Addr} :
    call.method = some (.callback c a) ↔ call = .driver (.callback c a) := by
  rcases call with (⟨c', a', p, v⟩ | ⟨c', a'⟩) | ⟨c', output⟩
  · simp [Call.method]
  · simp [Call.method]
  · simp [Call.method]

/-- A step that returns from a method gives the mutex of its channel back. -/
theorem free_after_return (scan : Scan) {s : Threads T} {pre : List (ThreadStep T)}
    {e : ThreadStep T} {m : Method} {ans : Answer}
    (h : Returns scan ((threads scan).run s pre) e m ans) :
    ((threads scan).run s (pre ++ [e])).lock m.chan = none := by
  obtain ⟨t, rfl, ht⟩ := (Lib.Critical.step_returns_iff _ _ _).mp h
  rw [Lib.Machine.run_concat]
  show ((deviceSystem scan).threads.step _ _).1.lock m.chan = none
  rw [Lib.Critical.step_return _ ht]
  exact Function.update_self ..

/-- The buffers at a callback of the one-step device are the memory where the callback returned. -/
theorem memory_callback (scan : Scan) (own : Chan → Addr) (buffers : Buffers)
    {pre : List (ThreadStep T)} {e : ThreadStep T} {c : Chan} {a : Addr} {ans : Answer}
    (h : Returns scan ((threads scan).run (bootThreads own buffers) pre) e (.callback c a) ans) :
    (hub.run (boot own buffers) (callsOf scan own buffers pre)).buffers c a
      = Buffers.ofCells
          ((threads scan).run (bootThreads own buffers) (pre ++ [e])).store.memory c a := by
  have hcalls := callsOf_callback scan own buffers h
  -- the callback gave the mutex back, so the two memories agree
  obtain ⟨-, hmemory⟩ := run_callsOf scan own buffers (pre ++ [e]) (free_after_return scan h)
  funext p
  rw [hcalls, Lib.Machine.run_concat, hub_step_driver, driver_callback] at hmemory
  exact (hmemory a p).1

/-! ## §3 — polls that copy. -/

/-- Every poll of channel `c` in the run that returns true returns, in every pixel, what the buffer
of the most recent callback held when that callback returned. -/
def PollsIntact (scan : Scan) (own : Chan → Addr) (buffers : Buffers) (c : Chan)
    (steps : List (ThreadStep T)) : Prop :=
  ∀ pre e a ans mid e' output post output', steps = pre ++ e :: (mid ++ e' :: post) →
    Returns scan ((threads scan).run (bootThreads own buffers) pre) e (.callback c a) ans →
    (∀ b ans', (Method.callback c b, ans') ∉ returns ((threads scan).trace
      ((threads scan).run (bootThreads own buffers) (pre ++ [e])) mid)) →
    Returns scan ((threads scan).run (bootThreads own buffers) (pre ++ e :: mid)) e' (.get c output)
      (.got c true output') →
    output' = c.copyOut (Buffers.ofCells
      ((threads scan).run (bootThreads own buffers) (pre ++ [e])).store.memory c a)

/-- The calls behind a run from a callback on. -/
theorem callsOf_window (scan : Scan) (own : Chan → Addr) (buffers : Buffers)
    {pre : List (ThreadStep T)} {e : ThreadStep T} {c : Chan} {a : Addr} {ans : Answer}
    (h : Returns scan ((threads scan).run (bootThreads own buffers) pre) e (.callback c a) ans)
    (mid : List (ThreadStep T)) :
    ∃ window, callsOf scan own buffers (pre ++ e :: mid)
        = callsOf scan own buffers pre ++ .driver (.callback c a) :: window ∧
      ∀ b, (∃ ans', (Method.callback c b, ans') ∈ returns ((threads scan).trace
        ((threads scan).run (bootThreads own buffers) (pre ++ [e])) mid)) ↔
          Call.driver (.callback c b) ∈ window := by
  have hcalls := callsOf_callback scan own buffers h
  have hsplit : pre ++ e :: mid = pre ++ [e] ++ mid := by simp
  obtain ⟨window, hwindow⟩ := callsOf_append scan own buffers (pre ++ [e]) mid
  refine ⟨window, ?_, fun b => ?_⟩
  · rw [hsplit, hwindow, hcalls, List.append_assoc, List.singleton_append]
  · rw [mem_returns_callsOf scan own buffers hwindow]
    simp only [method_callback_iff, exists_eq_right]

/-- Integrity of the one-step polls behind a run is integrity of its polls. -/
theorem polls_intact_of_integrity (scan : Scan) (own : Chan → Addr) (buffers : Buffers) {c : Chan}
    {steps : List (ThreadStep T)}
    (hsnap : SnapshotIntegrity c (boot own buffers) (callsOf scan own buffers steps)) :
    PollsIntact scan own buffers c steps := by
  rintro pre e a ans mid e' output post output' rfl hcallback hnone hget
  obtain ⟨window, hwindow, hmem⟩ := callsOf_window scan own buffers hcallback mid
  obtain ⟨rest, hrest⟩ := callsOf_return scan own buffers hget
  have hanswer := answer_callsOf scan own buffers hget
  have hsplit : pre ++ e :: (mid ++ e' :: post) = pre ++ e :: mid ++ [e'] ++ post := by simp
  obtain ⟨rest', hrest'⟩ := callsOf_append scan own buffers (pre ++ e :: mid ++ [e']) post
  rw [hwindow] at hanswer
  have hcopy := hsnap (callsOf scan own buffers pre) a window output (rest ++ rest') _ output'
    (by rw [hsplit, hrest', hrest, hwindow]; simp [callOf])
    (fun b hb => (hmem b).mpr hb |>.elim fun ans' => hnone b ans') (Prod.ext rfl hanswer)
  rw [hcopy, memory_callback scan own buffers hcallback]

/-- And conversely. -/
theorem integrity_of_polls_intact (scan : Scan) (own : Chan → Addr) (buffers : Buffers) {c : Chan}
    {steps : List (ThreadStep T)} (hintact : PollsIntact scan own buffers c steps) :
    SnapshotIntegrity c (boot own buffers) (callsOf scan own buffers steps) := by
  intro pre a mid output post w' output' hcalls hcb htook
  rw [← List.cons_append, ← List.append_assoc] at hcalls
  obtain ⟨before, e', after, ans', rfl, hbefore, hget⟩ :=
    callsOf_split scan own buffers (m := .get c output) rfl hcalls
  obtain ⟨first, e, between, ans, rfl, rfl, hcallback⟩ :=
    callsOf_split scan own buffers (m := .callback c a) rfl hbefore
  obtain ⟨window, hwindow, hmem⟩ := callsOf_window scan own buffers hcallback between
  obtain ⟨-, rfl⟩ := List.cons.inj (List.append_cancel_left (hwindow.symm.trans hbefore))
  have hanswer := answer_callsOf scan own buffers hget
  rw [hwindow] at hanswer
  obtain rfl : ans' = .got c true output' := hanswer.symm.trans (congrArg Prod.snd htook)
  rw [memory_callback scan own buffers hcallback]
  refine hintact first e a ans between e' output after output' (by simp) hcallback ?_ hget
  exact fun b ans'' hb => hcb b ((hmem b).mp ⟨ans'', hb⟩)

/-- **Polls that copy while libfreenect writes** return what was handed over exactly when the run of
one-step calls behind them is undisturbed. -/
theorem polls_intact_iff (scan : Scan) (own : Chan → Addr) (buffers : Buffers) (c : Chan)
    (steps : List (ThreadStep T)) :
    PollsIntact scan own buffers c steps
      ↔ Undisturbed c (boot own buffers) (callsOf scan own buffers steps) := by
  constructor
  · intro hintact
    exact (integrity_of_polls_intact scan own buffers hintact).undisturbed
  · intro hund
    exact polls_intact_of_integrity scan own buffers hund.snapshotIntegrity

/-- The writes to a pixel of a channel whose mutex is free at both ends are the same behind the
run. -/
theorem writesTo_between (scan : Scan) (own : Chan → Addr) (buffers : Buffers)
    {pre mid : List (ThreadStep T)} {calls : List Call} {c : Chan}
    (hcalls : callsOf scan own buffers (pre ++ mid) = callsOf scan own buffers pre ++ calls)
    (hpre : ((threads scan).run (bootThreads own buffers) pre).lock c = none)
    (hmid : ((threads scan).run (bootThreads own buffers) (pre ++ mid)).lock c = none) (a : Addr)
    (p : Pixel) :
    Lib.Critical.writesTo ⟨c, a, p⟩ (calls.flatMap Call.writes)
      = Lib.Critical.writesTo ⟨c, a, p⟩ (mid.flatMap Lib.Critical.Action.writes) := by
  have hbefore := ((run_callsOf scan own buffers pre hpre).2 a p).2
  have hafter := ((run_callsOf scan own buffers (pre ++ mid) hmid).2 a p).2
  rw [hcalls, List.flatMap_append, List.flatMap_append, Lib.Critical.writesTo_append,
    Lib.Critical.writesTo_append, hbefore] at hafter
  exact List.append_cancel_left hafter

/-- Between two states where the mutex of a channel is free, a write behind the run is a write of
one of its steps. -/
theorem write_of_mem_callsOf (scan : Scan) (own : Chan → Addr) (buffers : Buffers)
    {pre mid : List (ThreadStep T)} {calls : List Call} {c : Chan}
    (hcalls : callsOf scan own buffers (pre ++ mid) = callsOf scan own buffers pre ++ calls)
    (hpre : ((threads scan).run (bootThreads own buffers) pre).lock c = none)
    (hmid : ((threads scan).run (bootThreads own buffers) (pre ++ mid)).lock c = none) {a : Addr}
    {p : Pixel} {v : c.Sample} (h : Call.driver (.write c a p v) ∈ calls) :
    Lib.Critical.Action.write (⟨c, a, p⟩ : Cell) v ∈ mid := by
  have hmem : (⟨⟨c, a, p⟩, v⟩ : (l : Cell) × l.Sample)
      ∈ Lib.Critical.writesTo ⟨c, a, p⟩ (calls.flatMap Call.writes) := by
    refine List.mem_filter.mpr ⟨List.mem_flatMap.mpr ⟨_, h, ?_⟩, ?_⟩
    · exact List.mem_singleton_self _
    · exact decide_eq_true rfl
  rw [writesTo_between scan own buffers hcalls hpre hmid] at hmem
  obtain ⟨step, hstep, hwrites⟩ := List.mem_flatMap.mp (List.mem_filter.mp hmem).1
  cases step with
  | write l v' =>
      obtain ⟨rfl, heq⟩ := Sigma.mk.inj (List.mem_singleton.mp hwrites)
      obtain rfl := eq_of_heq heq
      exact hstep
  | call t m => cases hwrites
  | run t => cases hwrites

/-- **A driver that leaves a handed-over buffer alone** from the return of the callback to the
return of the poll keeps all polls intact. -/
theorem polls_intact_of_no_write (scan : Scan) (own : Chan → Addr) (buffers : Buffers) {c : Chan}
    {steps : List (ThreadStep T)}
    (h : ∀ pre e a ans mid e' output ans' post, steps = pre ++ e :: (mid ++ e' :: post) →
      Returns scan ((threads scan).run (bootThreads own buffers) pre) e (.callback c a) ans →
      Returns scan ((threads scan).run (bootThreads own buffers) (pre ++ e :: mid)) e'
        (.get c output) ans' →
      ∀ p v, Lib.Critical.Action.write ⟨c, a, p⟩ v ∉ mid) :
    PollsIntact scan own buffers c steps := by
  refine polls_intact_of_integrity scan own buffers (snapshot_of_no_write ?_)
  intro pre a window output post hcalls _ _ p v hwrite
  rw [← List.cons_append, ← List.append_assoc] at hcalls
  obtain ⟨before, e', after, ans', rfl, hbefore, hget⟩ :=
    callsOf_split scan own buffers (m := .get c output) rfl hcalls
  obtain ⟨first, e, mid, ans, rfl, rfl, hcallback⟩ :=
    callsOf_split scan own buffers (m := .callback c a) rfl hbefore
  -- the mutex is free after the callback and after the poll
  have hpre : ((threads scan).run (bootThreads own buffers) (first ++ [e])).lock c = none :=
    free_after_return scan hcallback
  have hfree :
      ((threads scan).run (bootThreads own buffers) (first ++ e :: mid ++ [e'])).lock c = none :=
    free_after_return scan hget
  obtain ⟨rest, hrest⟩ := callsOf_return scan own buffers hget
  have hsplit : first ++ e :: mid ++ [e'] = first ++ [e] ++ (mid ++ [e']) := by simp
  rw [hsplit] at hrest hfree
  have hwindow : callsOf scan own buffers (first ++ [e] ++ (mid ++ [e']))
      = callsOf scan own buffers (first ++ [e]) ++
        (window ++ callOf (.method (.get c output)) :: rest) := by
    rw [hrest, hbefore, callsOf_callback scan own buffers hcallback]
    simp
  have hstep := write_of_mem_callsOf scan own buffers hwindow hpre hfree
    (List.mem_append_left _ hwrite)
  rcases List.mem_append.mp hstep with hmid | hlast
  · exact h first e a ans mid e' output ans' after (by simp) hcallback hget p v hmid
  · -- the last step is the return of the poll
    obtain ⟨t, rfl, -⟩ := (Lib.Critical.step_returns_iff _ _ _).mp hget
    cases List.mem_singleton.mp hlast

end NinjaVision
