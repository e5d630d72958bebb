/-
# NinjaVision.Device.Locking — the four methods of the device, statement by statement.

`Device.CvFreenect` runs each method in one step. Here a method is what the source is: wait for the
mutex of the channel (`lock_guard`), run the statements one at a time, return and give the mutex
back. Threads are any number, each calls any method, and their steps come in any order. A poll
copies the frame pixel by pixel, in an order that OpenCV leaves open (`Scan`), while libfreenect
goes on writing the buffers.

This is `Lib.Critical` with the two channels as objects, so the one-step model is right for it:

* `exec_callbackBody`, `exec_pollBody` — a method run in one go is the method of
  `Device.CvFreenect`;
* `calls_are_atomic` — every run of the threads is a run of `hub`: same results in the order of the
  returns, same device and buffers wherever no mutex is held, same writes to each pixel in the same
  order;
* `fields_under_mutex`, `every_call_returns` — who changes a channel, and that no mutex is held for
  ever;
* `threads_refine_mailbox` — the hand-off of `Device.Handoff`, now for the calls as they return.
-/
import NinjaVision.Device.Handoff
import NinjaVision.Lib.Linearize
import Mathlib.Data.Fintype.Prod
import Mathlib.Data.List.FinRange
import Mathlib.Data.List.ProdSigma

namespace NinjaVision

open Lib.Critical (Body System Store State Action Atomic)
open Lib.Mailbox (Event Legal Superseded slot delivered consumed)

/-! ## §1 — buffers as memory. -/

/-- One pixel of one frame buffer. -/
structure Cell where
  chan : Chan
  buffer : Addr
  pixel : Pixel
  deriving DecidableEq

/-- What a cell holds. -/
abbrev Cell.Sample (l : Cell) : Type := l.chan.Sample

def Buffers.cells (s : Buffers) : (l : Cell) → l.Sample := fun l => s l.chan l.buffer l.pixel

def Buffers.ofCells (memory : (l : Cell) → l.Sample) : Buffers := fun c a p => memory ⟨c, a, p⟩

theorem ofCells_update (memory : (l : Cell) → l.Sample) (l : Cell) (v : l.Sample) :
    Buffers.ofCells (Function.update memory l v)
      = (Buffers.ofCells memory).write l.chan l.buffer l.pixel v := by
  obtain ⟨c, a, p⟩ := l
  funext c' a' p'
  by_cases hc : c' = c
  · subst hc
    by_cases hap : a' = a ∧ p' = p
    · obtain ⟨rfl, rfl⟩ := hap
      rw [Buffers.write_self]
      exact Function.update_self ..
    · rw [Buffers.write_other _ _ _ hap]
      refine Function.update_of_ne (fun heq => hap ?_) ..
      rw [Cell.mk.injEq] at heq
      exact heq.2
  · rw [Buffers.write_chan hc]
    refine Function.update_of_ne (fun heq => hc ?_) ..
    rw [Cell.mk.injEq] at heq
    exact heq.1

/-! ## §2 — the bodies. -/

/-- A call of one of the four methods, with its argument. -/
inductive Method where
  | callback (c : Chan) (buffer : Addr)
  | get (c : Chan) (output : Image c.Output)

/-- The order in which a poll copies the pixels: every one, once. -/
structure Scan where
  order : List Pixel
  nodup : order.Nodup
  complete : ∀ p, p ∈ order

/-- Row by row. -/
def Scan.rowMajor : Scan where
  order := (List.finRange imageRows).product (List.finRange imageCols)
  nodup := (List.nodup_finRange _).product (List.nodup_finRange _)
  complete _ := List.mem_product.mpr ⟨List.mem_finRange _, List.mem_finRange _⟩

/-- One pixel as `copyOut` copies it. -/
def Chan.copyPixel : (c : Chan) → c.Sample → c.Output
  | .video, v => ⟨v, v, v⟩
  | .depth, v => v

theorem copyOut_apply (c : Chan) (src : Image c.Sample) (p : Pixel) :
    c.copyOut src p = c.copyPixel (src p) := by
  cases c <;> rfl

/-- `cvtColor` or `copyTo` into the caller's `Mat`, one pixel after the other. -/
def copyPixels (c : Chan) (buffer : Addr) :
    List Pixel → Image c.Output → (Image c.Output → Body Channel Cell.Sample Answer) →
      Body Channel Cell.Sample Answer
  | [], output, k => k output
  | p :: ps, output, k =>
      .load ⟨c, buffer, p⟩ fun v =>
        copyPixels c buffer ps (Function.update output p (c.copyPixel v)) k

/-- The statements of both callbacks. -/
def callbackBody (buffer : Addr) : Body Channel Cell.Sample Answer :=
  .assign (fun ch => { ch with data := buffer }) <|
  .assign (fun ch => { ch with newFrame := true }) <|
  .ret .done

/-- The statements of both polls. -/
def pollBody (scan : Scan) (c : Chan) (output : Image c.Output) : Body Channel Cell.Sample Answer :=
  .look fun ch =>
    if ch.newFrame then
      .look fun ch => copyPixels c ch.data scan.order output fun output =>
        .assign (fun ch => { ch with newFrame := false }) <|
        .ret (.got c true output)
    else
      .ret (.got c false output)

def videoCallbackBody (video : Addr) : Body Channel Cell.Sample Answer := callbackBody video

def depthCallbackBody (depth : Addr) : Body Channel Cell.Sample Answer := callbackBody depth

def getVideoBody (scan : Scan) (output : Image Bgr) : Body Channel Cell.Sample Answer :=
  pollBody scan .video output

def getDepthBody (scan : Scan) (output : Image UInt16) : Body Channel Cell.Sample Answer :=
  pollBody scan .depth output

/-- The channel of a method, whose mutex it takes. -/
def Method.chan : Method → Chan
  | .callback c _ => c
  | .get c _ => c

def Method.body (scan : Scan) : Method → Body Channel Cell.Sample Answer
  | .callback .video video => videoCallbackBody video
  | .callback .depth depth => depthCallbackBody depth
  | .get .video output => getVideoBody scan output
  | .get .depth output => getDepthBody scan output

theorem body_callback (scan : Scan) (c : Chan) (buffer : Addr) :
    (Method.callback c buffer).body scan = callbackBody buffer := by
  cases c <;> rfl

theorem body_get (scan : Scan) (c : Chan) (output : Image c.Output) :
    (Method.get c output).body scan = pollBody scan c output := by
  cases c <;> rfl

/-- Copying loads every pixel of one buffer once. -/
theorem reads_copyPixels {c : Chan} {buffer : Addr} {ps : List Pixel} (hnodup : ps.Nodup)
    (output : Image c.Output) {k : Image c.Output → Body Channel Cell.Sample Answer}
    (hk : ∀ output P, (k output).Reads P) {P : Set Cell} (hP : ∀ p ∈ ps, ⟨c, buffer, p⟩ ∈ P) :
    (copyPixels c buffer ps output k).Reads P := by
  induction ps generalizing output P with
  | nil => exact hk output P
  | cons p ps ih =>
      obtain ⟨hp, hnodup⟩ := List.nodup_cons.mp hnodup
      refine ⟨hP p List.mem_cons_self,
        fun v => ih hnodup _ fun q hq => ⟨hP q (List.mem_cons_of_mem _ hq), ?_⟩⟩
      intro heq
      have hqp : q = p := congrArg Cell.pixel heq
      exact hp (hqp ▸ hq)

theorem reads_pollBody (scan : Scan) (c : Chan) (output : Image c.Output) :
    (pollBody scan c output).Reads {l | l.chan = c} := by
  intro ch
  dsimp only
  split
  · intro ch
    refine reads_copyPixels scan.nodup output ?_ fun _ _ => rfl
    exact fun _ _ => trivial
  · trivial

/-- The device as objects with a mutex each. -/
def deviceSystem (scan : Scan) : System Chan Method Channel Cell.Sample Answer where
  object := Method.chan
  home := Cell.chan
  body := Method.body scan
  reads m := by
    cases m with
    | callback c buffer => rw [body_callback]; trivial
    | get c output =>
        rw [body_get]
        exact reads_pollBody scan c output

/-! ## §3 — a method in one go. -/

/-- What copying leaves in the caller's `Mat`. -/
theorem exec_copyPixels (c : Chan) (buffer : Addr) (ps : List Pixel) (output : Image c.Output)
    (k : Image c.Output → Body Channel Cell.Sample Answer) (ch : Channel)
    (memory : (l : Cell) → l.Sample) :
    (copyPixels c buffer ps output k).exec ch memory =
      (k fun p => if p ∈ ps then c.copyPixel (memory ⟨c, buffer, p⟩)
        else output p).exec ch memory := by
  induction ps generalizing output with
  | nil => simp [copyPixels]
  | cons q ps ih =>
      rw [copyPixels, Body.exec, ih]
      congr 2
      funext p
      by_cases hp : p ∈ ps
      · rw [if_pos hp, if_pos (List.mem_cons_of_mem _ hp)]
      · rw [if_neg hp]
        by_cases hq : p = q
        · subst hq
          rw [Function.update_self, if_pos List.mem_cons_self]
        · rw [Function.update_of_ne hq, if_neg fun h => (List.mem_cons.mp h).elim hq hp]

/-- **The statements of a callback** leave the driver's pointer and the raised flag. -/
theorem exec_callbackBody (buffer : Addr) (ch : Channel) (memory : (l : Cell) → l.Sample) :
    (callbackBody buffer).exec ch memory = (⟨buffer, true⟩, .done) := rfl

/-- **The statements of a poll** come to the poll in one step, in whatever order the pixels are
copied. -/
theorem exec_pollBody (scan : Scan) (c : Chan) (output : Image c.Output) (d : Device)
    (memory : (l : Cell) → l.Sample) :
    (pollBody scan c output).exec (d c) memory =
      ((poll c (Buffers.ofCells memory) output d).2.2 c,
        .got c (poll c (Buffers.ofCells memory) output d).1
          (poll c (Buffers.ofCells memory) output d).2.1) := by
  cases hflag : (d c).newFrame with
  | false =>
      rw [poll_stale hflag]
      simp [pollBody, Body.exec, hflag]
  | true =>
      have hcopy : (fun p => if p ∈ scan.order then c.copyPixel (memory ⟨c, (d c).data, p⟩)
          else output p)
          = c.copyOut (Buffers.ofCells memory c (d c).data) := by
        funext p
        rw [if_pos (scan.complete p), copyOut_apply]
        rfl
      rw [poll_fresh hflag]
      simp only [pollBody, Body.exec, hflag, if_true, exec_copyPixels, hcopy, Function.update_self]

/-! ## §4 — the threads are the one-step device. -/

/-- A store as buffers and device. -/
def worldOf (b : Store Chan Channel Cell.Sample) : World := ⟨Buffers.ofCells b.memory, b.objects⟩

/-- Buffers and device as a store. -/
def storeOf (w : World) : Store Chan Channel Cell.Sample := ⟨w.device, w.buffers.cells⟩

theorem worldOf_storeOf (w : World) : worldOf (storeOf w) = w := rfl

theorem storeOf_worldOf (b : Store Chan Channel Cell.Sample) : storeOf (worldOf b) = b := rfl

/-- A step of the atomic machine as a call of the device. -/
def callOf : Atomic Method Cell.Sample → Call
  | .write l v => .driver (.write l.chan l.buffer l.pixel v)
  | .method (.callback c buffer) => .driver (.callback c buffer)
  | .method (.get c output) => .get c output

/-- The method that a call of the device runs. -/
def Call.method : Call → Option Method
  | .driver (.write _ _ _ _) => none
  | .driver (.callback c buffer) => some (.callback c buffer)
  | .get c output => some (.get c output)

/-- The results of the methods in a history of the device, in order. -/
def results (h : List (Call × Answer)) : List (Method × Answer) :=
  h.filterMap fun e => e.1.method.map fun m => (m, e.2)

theorem results_cons (e : Call × Answer) (h : List (Call × Answer)) :
    results (e :: h) = (e.1.method.map fun m => (m, e.2)).toList ++ results h := by
  cases he : e.1.method with
  | none => simp [results, he]
  | some m => simp [results, he]

/-- One step of the atomic machine is one step of `hub`. -/
theorem step_callOf (scan : Scan) (b : Store Chan Channel Cell.Sample)
    (e : Atomic Method Cell.Sample) :
    (hub.step (worldOf b) (callOf e)).1 = worldOf ((deviceSystem scan).atomic.step b e).1 ∧
      ((callOf e).method.map fun m => (m, (hub.step (worldOf b) (callOf e)).2))
        = ((deviceSystem scan).atomic.step b e).2 := by
  rcases e with ⟨l, v⟩ | ⟨c, buffer⟩ | ⟨c, output⟩
  · refine ⟨?_, rfl⟩
    show World.mk _ _ = World.mk (Buffers.ofCells (Function.update b.memory l v)) _
    rw [ofCells_update]
    rfl
  · have hbody : ((deviceSystem scan).body (.callback c buffer)).exec (b.objects c) b.memory
        = (⟨buffer, true⟩, .done) := by
      show ((Method.callback c buffer).body scan).exec _ _ = _
      rw [body_callback, exec_callbackBody]
    have hstep : (deviceSystem scan).atomic.step b (.method (.callback c buffer))
        = (b.assign c ⟨buffer, true⟩, some (.callback c buffer, .done)) := by
      show (deviceSystem scan).whole b _ = _
      simp only [System.whole]
      rw [show (deviceSystem scan).object (.callback c buffer) = c from rfl, hbody]
    rw [hstep, callOf, hub_step_driver, driver_callback]
    exact ⟨rfl, rfl⟩
  · have hbody : ((deviceSystem scan).body (.get c output)).exec (b.objects c) b.memory
        = ((poll c (worldOf b).buffers output b.objects).2.2 c,
          .got c (poll c (worldOf b).buffers output b.objects).1
            (poll c (worldOf b).buffers output b.objects).2.1) := by
      show ((Method.get c output).body scan).exec _ _ = _
      rw [body_get, exec_pollBody]
      rfl
    have hstep : (deviceSystem scan).atomic.step b (.method (.get c output))
        = (b.assign c ((poll c (worldOf b).buffers output b.objects).2.2 c),
          some (.get c output, .got c (poll c (worldOf b).buffers output b.objects).1
            (poll c (worldOf b).buffers output b.objects).2.1)) := by
      show (deviceSystem scan).whole b _ = _
      simp only [System.whole]
      rw [show (deviceSystem scan).object (.get c output) = c from rfl, hbody]
    have hdevice : (poll c (worldOf b).buffers output b.objects).2.2
        = Function.update b.objects c ((poll c (worldOf b).buffers output b.objects).2.2 c) := by
      funext c'
      by_cases hc : c' = c
      · subst hc
        rw [Function.update_self]
      · rw [Function.update_of_ne hc, poll_other hc]
    rw [hstep, callOf, hub_step_get]
    refine ⟨?_, rfl⟩
    exact congrArg (World.mk (worldOf b).buffers) hdevice

/-- **A run of the atomic machine is a run of `hub`.** -/
theorem run_callOf (scan : Scan) (b : Store Chan Channel Cell.Sample)
    (es : List (Atomic Method Cell.Sample)) :
    hub.run (worldOf b) (es.map callOf) = worldOf ((deviceSystem scan).atomic.run b es) ∧
      results (hub.trace (worldOf b) (es.map callOf))
        = Lib.Critical.returns ((deviceSystem scan).atomic.trace b es) := by
  induction es generalizing b with
  | nil => exact ⟨rfl, rfl⟩
  | cons e es ih =>
      obtain ⟨hstep, hresult⟩ := step_callOf scan b e
      obtain ⟨hrun, hresults⟩ := ih ((deviceSystem scan).atomic.step b e).1
      rw [List.map_cons, Lib.Machine.run_cons, Lib.Machine.trace_cons, hstep]
      refine ⟨hrun, ?_⟩
      rw [results_cons, hresult, hresults, Lib.Machine.trace_cons]
      cases hout : ((deviceSystem scan).atomic.step b e).2 with
      | none =>
          simp only [Lib.Critical.returns, List.filterMap_cons, Option.toList_none, List.nil_append]
      | some r =>
          simp only [Lib.Critical.returns, List.filterMap_cons, Option.toList_some,
            List.singleton_append]

section Threads

variable {T : Type} [DecidableEq T]

/-- The device with its threads. -/
abbrev Threads (T : Type) := State T Chan Method Channel Cell.Sample Answer

/-- What happens next: libfreenect writes a pixel, a thread calls a method, or a thread takes a
step. -/
abbrev ThreadStep (T : Type) := Action T Method Cell.Sample

/-- A freshly constructed device, and no thread in a method. -/
def bootThreads (own : Chan → Addr) (buffers : Buffers) : Threads T :=
  Lib.Critical.started (storeOf (boot own buffers))

/-- The threads as a machine. -/
def threads (scan : Scan) : Lib.Machine (Threads T) (ThreadStep T) (Option (Method × Answer)) :=
  (deviceSystem scan).threads

/-- The run of the one-step device behind a run of the threads. -/
def callsOf (scan : Scan) (own : Chan → Addr) (buffers : Buffers) (steps : List (ThreadStep T)) :
    List Call :=
  ((deviceSystem scan).linearized (bootThreads own buffers) (fun _ => .shut) steps).map callOf

/-- The pixel that a call of the device writes. -/
def Call.writes : Call → List ((l : Cell) × l.Sample)
  | .driver (.write c a p v) => [⟨⟨c, a, p⟩, v⟩]
  | _ => []

omit [DecidableEq T] in
theorem writes_callOf (es : List (Atomic Method Cell.Sample)) :
    (es.map callOf).flatMap Call.writes = es.flatMap Atomic.writes := by
  induction es with
  | nil => rfl
  | cons e es ih =>
      rw [List.map_cons, List.flatMap_cons, List.flatMap_cons, ih]
      rcases e with ⟨l, v⟩ | ⟨c, buffer⟩ | ⟨c, output⟩ <;> rfl

/-- The run behind the threads has their results. -/
theorem results_callsOf (scan : Scan) (own : Chan → Addr) (buffers : Buffers)
    (steps : List (ThreadStep T)) :
    results (hub.trace (boot own buffers) (callsOf scan own buffers steps))
      = Lib.Critical.returns ((threads scan).trace (bootThreads own buffers) steps) := by
  obtain ⟨hreturns, -⟩ :=
    Lib.Critical.linearized_law (T := T) (deviceSystem scan) (storeOf (boot own buffers)) steps
  obtain ⟨-, hresults⟩ := run_callOf scan (storeOf (boot own buffers))
    ((deviceSystem scan).linearized (bootThreads (T := T) own buffers) (fun _ => .shut) steps)
  rw [worldOf_storeOf] at hresults
  exact hresults.trans hreturns

/-- The run behind the threads leads to their store, wherever no mutex is held. -/
theorem run_callsOf (scan : Scan) (own : Chan → Addr) (buffers : Buffers)
    (steps : List (ThreadStep T)) {c : Chan}
    (hfree : ((threads scan).run (bootThreads own buffers) steps).lock c = none) :
    (hub.run (boot own buffers) (callsOf scan own buffers steps)).device c
        = ((threads scan).run (bootThreads own buffers) steps).store.objects c ∧
    ∀ a p, (hub.run (boot own buffers) (callsOf scan own buffers steps)).buffers c a p
          = ((threads scan).run (bootThreads own buffers) steps).store.memory ⟨c, a, p⟩ ∧
        Lib.Critical.writesTo ⟨c, a, p⟩ ((callsOf scan own buffers steps).flatMap Call.writes)
          = Lib.Critical.writesTo ⟨c, a, p⟩ (steps.flatMap Action.writes) := by
  obtain ⟨-, hstore⟩ :=
    Lib.Critical.linearized_law (T := T) (deviceSystem scan) (storeOf (boot own buffers)) steps
  obtain ⟨hrun, -⟩ := run_callOf scan (storeOf (boot own buffers))
    ((deviceSystem scan).linearized (bootThreads (T := T) own buffers) (fun _ => .shut) steps)
  rw [worldOf_storeOf] at hrun
  obtain ⟨hobjects, hmemory⟩ := hstore c hfree
  rw [callsOf, hrun, writes_callOf]
  exact ⟨hobjects, fun a p => hmemory ⟨c, a, p⟩ rfl⟩

/-- **Calls are atomic.** Every run of the threads, statement by statement and with pixels written
while they are copied, is a run of the one-step device: the same calls return the same results, in
the order in which they returned. Where no mutex is held, the channel, its buffers and the order of
the writes to each of its pixels are the same. What the run is so far is not changed by what
follows, so a call that returned keeps its place before all later ones. -/
theorem calls_are_atomic (scan : Scan) (own : Chan → Addr) (buffers : Buffers)
    (steps : List (ThreadStep T)) :
    results (hub.trace (boot own buffers) (callsOf scan own buffers steps))
      = Lib.Critical.returns ((threads scan).trace (bootThreads own buffers) steps) ∧
    (∀ c, ((threads scan).run (bootThreads own buffers) steps).lock c = none →
      (hub.run (boot own buffers) (callsOf scan own buffers steps)).device c
        = ((threads scan).run (bootThreads own buffers) steps).store.objects c ∧
      ∀ a p, (hub.run (boot own buffers) (callsOf scan own buffers steps)).buffers c a p
          = ((threads scan).run (bootThreads own buffers) steps).store.memory ⟨c, a, p⟩ ∧
        Lib.Critical.writesTo ⟨c, a, p⟩ ((callsOf scan own buffers steps).flatMap Call.writes)
          = Lib.Critical.writesTo ⟨c, a, p⟩ (steps.flatMap Action.writes)) ∧
    ∀ steps', callsOf scan own buffers steps <+: callsOf scan own buffers (steps ++ steps') := by
  refine ⟨results_callsOf scan own buffers steps, fun c => run_callsOf scan own buffers steps,
    fun steps' => ?_⟩
  rw [callsOf, callsOf, Lib.Critical.linearized_append, List.map_append]
  exact List.prefix_append ..

/-! ## §5 — the mutexes. -/

/-- **The fields of a channel are protected.** At every state of every run at most one thread is
inside a method of a channel, and only a step of that thread changes the channel's pointer or
flag. -/
theorem fields_under_mutex (scan : Scan) (own : Chan → Addr) (buffers : Buffers)
    (steps : List (ThreadStep T)) :
    (∀ t t' m m', (((threads scan).run (bootThreads own buffers) steps).thread t).section = some m →
      (((threads scan).run (bootThreads own buffers) steps).thread t').section = some m' →
      m.chan = m'.chan → t = t') ∧
    ∀ (e : ThreadStep T) (c : Chan),
      ((threads scan).step ((threads scan).run (bootThreads own buffers) steps) e).1.store.objects c
        ≠ ((threads scan).run (bootThreads own buffers) steps).store.objects c →
      ∃ t m, e = .run t ∧
        (((threads scan).run (bootThreads own buffers) steps).thread t).section = some m ∧
        m.chan = c := by
  have hlocked := Lib.Critical.locked_run (deviceSystem scan)
    (Lib.Critical.locked_started (T := T) (deviceSystem scan) (storeOf (boot own buffers))) steps
  refine ⟨fun t t' m m' ht ht' hchan => hlocked.exclusive ht ht' hchan, fun e c hne => ?_⟩
  exact Lib.Critical.changes_inside (deviceSystem scan) _ e hne

omit [DecidableEq T] in
/-- A scan visits 640 times 480 pixels. -/
theorem Scan.length (scan : Scan) : scan.order.length = 307200 := by
  have hall : scan.order.toFinset = Finset.univ := by
    ext p
    simp [scan.complete p]
  rw [← List.toFinset_card_of_nodup scan.nodup, hall, Finset.card_univ, Fintype.card_prod,
    Fintype.card_fin, Fintype.card_fin, imageRows, imageCols]

omit [DecidableEq T] in
theorem within_copyPixels (c : Chan) (buffer : Addr) (ps : List Pixel) (output : Image c.Output)
    {k : Image c.Output → Body Channel Cell.Sample Answer} {n : ℕ}
    (hk : ∀ output, (k output).Within n) :
    (copyPixels c buffer ps output k).Within (ps.length + n) := by
  induction ps generalizing output with
  | nil =>
      rw [List.length_nil, Nat.zero_add]
      exact hk output
  | cons p ps ih =>
      have hlen : (p :: ps).length + n = (ps.length + n) + 1 := by
        rw [List.length_cons]
        omega
      rw [hlen]
      exact fun v => ih _

omit [DecidableEq T] in
/-- Every method is done after 307204 steps: two looks, the pixels, the flag and the return. -/
theorem within_body (scan : Scan) (m : Method) : ((deviceSystem scan).body m).Within 307204 := by
  cases m with
  | callback c buffer =>
      show ((Method.callback c buffer).body scan).Within _
      rw [body_callback]
      trivial
  | get c output =>
      show ((Method.get c output).body scan).Within _
      rw [body_get]
      intro ch
      dsimp only
      split
      · intro ch
        have hcopy := within_copyPixels c ch.data scan.order output (n := 2)
          (k := fun output =>
            .assign (fun ch => { ch with newFrame := false }) (.ret (.got c true output)))
          fun _ => trivial
        rwa [scan.length] at hcopy
      · trivial

/-- **Every call returns.** At every state of every run, whatever thread `t` is doing, at most
614409 steps bring its call to its return: steps of its own, and, when it waits for a mutex that has
an owner, of that owner. And no thread keeps a mutex: one that is inside a method is out of it by
its 307204th step from there, however the steps of the others and libfreenect's writes come in
between. -/
theorem every_call_returns (scan : Scan) (own : Chan → Addr) (buffers : Buffers)
    (steps : List (ThreadStep T)) (t : T) :
    (∃ (t' : T) (n n' : ℕ), n + n' ≤ 614409 ∧
      (n' = 0 ∨ ∃ m, ((threads scan).run (bootThreads own buffers) steps).thread t = .waiting m ∧
        ((threads scan).run (bootThreads own buffers) steps).lock m.chan = some t') ∧
      ((threads scan).run (bootThreads own buffers)
        (steps ++ (List.replicate n' (.run t') ++ List.replicate n (.run t)))).thread t = .idle) ∧
    ∀ m, (((threads scan).run (bootThreads own buffers) steps).thread t).section = some m →
      ∀ steps' : List (ThreadStep T), 307204 ≤ steps'.countP (Action.runs t) →
        ∃ pre post, steps' = pre ++ post ∧
          ((threads scan).run (bootThreads own buffers) (steps ++ pre)).thread t = .idle ∧
          ((threads scan).run (bootThreads own buffers) (steps ++ pre)).lock m.chan = none := by
  have hlocked := Lib.Critical.locked_run (deviceSystem scan)
    (Lib.Critical.locked_started (T := T) (deviceSystem scan) (storeOf (boot own buffers))) steps
  have hbounded := Lib.Critical.bounded_run (within_body scan)
    (Lib.Critical.bounded_started (T := T) 307204 (storeOf (boot own buffers))) steps
  refine ⟨?_, fun m hm steps' hcount => ?_⟩
  · obtain ⟨t', n, n', hle, howner, hidle⟩ :=
      Lib.Critical.call_returns hlocked (within_body scan) hbounded t
    refine ⟨t', n, n', hle, howner, ?_⟩
    rw [Lib.Machine.run_append]
    exact hidle
  · obtain ⟨rest, ht⟩ := Lib.Critical.inside_of_section hm
    obtain ⟨pre, post, rfl, hidle, hfree⟩ :=
      Lib.Critical.leaves_section (deviceSystem scan) ht (hbounded.within t m rest ht) hcount
    refine ⟨pre, post, rfl, ?_⟩
    rw [Lib.Machine.run_append]
    exact ⟨hidle, hfree⟩

/-! ## §6 — the mailbox behind the threads. -/

/-- What a returned call means for the mailbox of channel `c`. -/
def resultEvent (c : Chan) : Method × Answer → Option (Event Addr)
  | (.callback c' buffer, _) => if c' = c then some (.deliver buffer) else none
  | (.get _ _, .got c' took _) => if c' = c then some (.poll took) else none
  | (.get _ _, .done) => none

omit [DecidableEq T] in
/-- The mailbox of a channel sees the results of the methods only. -/
theorem channelEvents_trace (c : Chan) (w : World) (calls : List Call) :
    channelEvents c (hub.trace w calls)
      = (results (hub.trace w calls)).filterMap (resultEvent c) := by
  induction calls generalizing w with
  | nil => rfl
  | cons call calls ih =>
      rw [Lib.Machine.trace_cons, results_cons, List.filterMap_append, ← ih]
      rcases call with (⟨c', a, p, v⟩ | ⟨c', a⟩) | ⟨c', output⟩
      · rfl
      · by_cases hc : c' = c
        · simp [channelEvents, channelEvent, resultEvent, Call.method, hc]
        · simp [channelEvents, channelEvent, resultEvent, Call.method, hc]
      · rw [hub_step_get]
        by_cases hc : c' = c
        · simp [channelEvents, channelEvent, resultEvent, Call.method, hc]
        · simp [channelEvents, channelEvent, resultEvent, Call.method, hc]

/-- The mailbox history of a channel in a run of the threads: its calls, in the order in which they
return. -/
def returnedEvents (scan : Scan) (own : Chan → Addr) (buffers : Buffers)
    (steps : List (ThreadStep T)) (c : Chan) : List (Event Addr) :=
  (Lib.Critical.returns ((threads scan).trace (bootThreads own buffers) steps)).filterMap
    (resultEvent c)

/-- **The hand-off between statements.** In every run of the threads, the calls of a channel in the
order in which they return are a legal mailbox history: a get returns true exactly when a callback
has returned since the last get that did. So no delivery is consumed twice, deliveries are consumed
in order, and each is consumed, superseded, or still pending. Where the mutex is free, flag and
pointer are the slot. -/
theorem threads_refine_mailbox (scan : Scan) (own : Chan → Addr) (buffers : Buffers)
    (steps : List (ThreadStep T)) (c : Chan) :
    Legal (returnedEvents scan own buffers steps c) ∧
    (consumed (returnedEvents scan own buffers steps c)).Pairwise (· < ·) ∧
    (∀ k < (delivered (returnedEvents scan own buffers steps c)).length,
      k ∈ consumed (returnedEvents scan own buffers steps c) ∨
      (k + 1 = (delivered (returnedEvents scan own buffers steps c)).length ∧
        (slot (returnedEvents scan own buffers steps c)).isSome = true) ∨
      Superseded (returnedEvents scan own buffers steps c) k) ∧
    (((threads scan).run (bootThreads own buffers) steps).lock c = none →
      slot (returnedEvents scan own buffers steps c)
        = (((threads scan).run (bootThreads own buffers) steps).store.objects c).slot) := by
  obtain ⟨hlegal, hslot⟩ := channel_refines own buffers c (callsOf scan own buffers steps)
  have hevents : channelEvents c (hub.trace (boot own buffers) (callsOf scan own buffers steps))
      = returnedEvents scan own buffers steps c := by
    rw [channelEvents_trace, results_callsOf, returnedEvents]
  rw [hevents] at hlegal hslot
  refine ⟨hlegal, Lib.Mailbox.consumed_pairwise hlegal, Lib.Mailbox.delivery_fate hlegal,
    fun hlock => ?_⟩
  rw [hslot, (run_callsOf scan own buffers steps hlock).1]

end Threads

end NinjaVision
