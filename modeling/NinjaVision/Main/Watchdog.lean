/-
# NinjaVision.Main.Watchdog — the "watchdog" entry over a whole deployment.

The service is respawned after each exit, and the table server keeps the last values meanwhile. So a
deployment is a list of lifetimes, each a run of a process that just started, over one table. The
entry is a call of `rand()`, and `main` never calls `srand`: every lifetime runs through the same
numbers from the first one on.

The values written over a deployment are therefore a replay of that sequence (`watchdog_values`),
and the entry changes with every processed frame exactly when no number of the replay is the one
before it (`watchdog_iff`). Two lifetimes of one frame each write the same number twice
(`watchdog_frozen`).
-/
import NinjaVision.Lib.Replay
import NinjaVision.Main.Publication

namespace NinjaVision

open Lib (ExactDouble)

variable {K : Type*} [Field K] [LinearOrder K]

/-- One lifetime of the service, cut off by an exit after any number of steps. -/
structure Lifetime where
  own : Chan → Addr
  buffers : Buffers
  events : List Event

/-! ## §1 — one lifetime. -/

/-- The Puts of a lifetime. -/
def Lifetime.puts (lib : Libraries K) (l : Lifetime) : List (Put K) :=
  NinjaVision.puts ((process lib).trace (started l.own l.buffers) l.events)

/-- The number of frames a lifetime processed, up to the Put of their watchdog. -/
def Lifetime.processed (lib : Libraries K) (l : Lifetime) : ℕ :=
  ((process lib).run (started l.own l.buffers) l.events).randCalls

theorem watchdogValue_injective (lib : Libraries ℝ) (k k' : ℕ) :
    watchdogValue lib k = watchdogValue lib k' ↔ lib.rand k = lib.rand k' := by
  simp [watchdogValue, Fin.ext_iff]

/-- A step of a process puts a watchdog exactly when it calls `rand()`. -/
theorem watchdog_step (lib : Libraries K) (s : Vision K) (e : Event) :
    (Lib.Table.valuesAt "watchdog" ((process lib).step s e).2.puts = [] ∧
      ((process lib).step s e).1.randCalls = s.randCalls) ∨
    (Lib.Table.valuesAt "watchdog" ((process lib).step s e).2.puts
      = [watchdogValue lib s.randCalls] ∧
      ((process lib).step s e).1.randCalls = s.randCalls + 1) := by
  cases e with
  | driver d => exact Or.inl ⟨rfl, rfl⟩
  | main =>
      show (Lib.Table.valuesAt "watchdog" (s.main lib).2.puts = [] ∧
        (s.main lib).1.randCalls = s.randCalls) ∨
        (Lib.Table.valuesAt "watchdog" (s.main lib).2.puts = [watchdogValue lib s.randCalls] ∧
          (s.main lib).1.randCalls = s.randCalls + 1)
      cases hpos : s.position with
      | loopHead =>
          left
          cases hflag : (s.world.device .video).newFrame with
          | false =>
              rw [main_stale lib hpos hflag]
              exact ⟨rfl, rfl⟩
          | true =>
              rw [main_fresh lib hpos hflag]
              exact ⟨rfl, rfl⟩
      | putWatchdog t =>
          right
          rw [main_putWatchdog lib hpos]
          exact ⟨rfl, rfl⟩
      | putDistances t =>
          left
          rw [main_putDistances lib hpos]
          exact ⟨rfl, rfl⟩
      | putAzimuths t =>
          left
          rw [main_putAzimuths lib hpos]
          exact ⟨rfl, rfl⟩

/-- A lifetime writes the first numbers of the sequence, one for each processed frame. -/
theorem watchdog_lifetime (lib : Libraries K) (l : Lifetime) :
    Lib.Table.valuesAt "watchdog" (l.puts lib)
      = (List.range (l.processed lib)).map (watchdogValue lib) := by
  refine (process lib).history_invariant
    (fun s h => Lib.Table.valuesAt "watchdog" (NinjaVision.puts h)
      = (List.range s.randCalls).map (watchdogValue lib)) rfl ?_ l.events
  intro s h e hvalues
  rw [puts_concat, Lib.Table.valuesAt_append, hvalues]
  rcases watchdog_step lib s e with ⟨hnone, hcalls⟩ | ⟨hone, hcalls⟩
  · rw [hnone, hcalls, List.append_nil]
  · rw [hone, hcalls, List.range_succ, List.map_append, List.map_singleton]

/-! ## §2 — a deployment. -/

/-- The Puts of a deployment. -/
def deploymentPuts (lib : Libraries K) (ls : List Lifetime) : List (Put K) :=
  ls.flatMap fun l => l.puts lib

/-- **The watchdog values of a deployment** are a replay of the `rand()` sequence. -/
theorem watchdog_values (lib : Libraries K) (ls : List Lifetime) :
    Lib.Table.valuesAt "watchdog" (deploymentPuts lib ls)
      = Lib.replay (watchdogValue lib) (ls.map fun l => l.processed lib) := by
  induction ls with
  | nil => rfl
  | cons l ls ih =>
      rw [deploymentPuts, List.flatMap_cons, Lib.Table.valuesAt_append, watchdog_lifetime,
        List.map_cons, Lib.replay_cons]
      exact congrArg _ ih

theorem deployment_type (lib : Libraries K) (ls : List Lifetime) :
    ∀ p ∈ deploymentPuts lib ls, p.1 = "watchdog" → p.2.type = .double := by
  intro p hp hkey
  obtain ⟨l, _, hl⟩ := List.mem_flatMap.mp hp
  have hty := (mem_puts lib rfl hl).2
  rwa [hkey] at hty

/-- Every processed frame of a deployment changes the entry "watchdog" of the table, which holds
`t₀` when the first lifetime starts. -/
def WatchdogAlive (lib : Libraries K) (t₀ : NetworkTable K) (ls : List Lifetime) : Prop :=
  t₀.AlwaysChanges Value.type "watchdog" (deploymentPuts lib ls)

/-- The entry before the first lifetime takes the first number as a change. -/
def FirstChanges (lib : Libraries K) (t₀ : NetworkTable K) : Prop :=
  t₀.Fits Value.type "watchdog" .double ∧ t₀ "watchdog" ≠ some (watchdogValue lib 0)

omit [LinearOrder K] in
/-- The condition on the entry before the first lifetime, from the list of values. -/
theorem firstChanges_iff (lib : Libraries K) (t₀ : NetworkTable K) (ms : List ℕ) :
    ((Lib.replay (watchdogValue lib) ms ≠ [] → t₀.Fits Value.type "watchdog" .double) ∧
        ∀ y ∈ ((Lib.replay (watchdogValue lib) ms).map some).head?, t₀ "watchdog" ≠ y) ↔
      ((∃ m ∈ ms, 0 < m) → FirstChanges lib t₀) := by
  rw [Lib.replay_ne_nil_iff, List.head?_map, Lib.head?_replay]
  by_cases hany : ∃ m ∈ ms, 0 < m
  · simp only [hany, if_true, Option.map_some, Option.mem_some_iff, forall_eq', true_imp_iff]
    rfl
  · simp [hany]

/-- **When the watchdog is alive**: no two consecutive numbers of `rand()` are equal as far as some
lifetime reaches; the last number of each nonempty lifetime but the last is not the first one of the
sequence; and, if any frame is processed, the entry before was no other type and not that first
number. -/
theorem watchdog_iff (lib : Libraries ℝ) (t₀ : NetworkTable ℝ) (ls : List Lifetime) :
    WatchdogAlive lib t₀ ls ↔
      (∀ l ∈ ls, ∀ k, k + 1 < l.processed lib → lib.rand k ≠ lib.rand (k + 1)) ∧
      (∀ m ∈ ((ls.map fun l => l.processed lib).filter (0 < ·)).dropLast,
        lib.rand (m - 1) ≠ lib.rand 0) ∧
      ((∃ l ∈ ls, 0 < l.processed lib) → FirstChanges lib t₀) := by
  -- the entries differ when the numbers do
  have hvalue : ∀ k k', some (watchdogValue lib k) ≠ some (watchdogValue lib k')
      ↔ lib.rand k ≠ lib.rand k' := by
    intro k k'
    rw [ne_eq, Option.some.injEq, watchdogValue_injective]
  have hany : (∃ m ∈ ls.map (fun l => l.processed lib), 0 < m) ↔ ∃ l ∈ ls, 0 < l.processed lib := by
    simp
  rw [WatchdogAlive, Lib.Table.alwaysChanges_iff Value.type (deployment_type lib ls),
    watchdog_values, List.isChain_cons, ← and_assoc, firstChanges_iff, hany, List.isChain_map,
    Lib.isChain_replay_iff]
  simp only [hvalue, List.forall_mem_map]
  exact and_comm.trans and_assoc

/-- **A frozen watchdog**: a service that is respawned after one frame and processes one more writes
the same number twice. -/
theorem watchdog_frozen :
    ¬ WatchdogAlive uLibraries (fun _ => none)
      [⟨fun _ => 0, uBuffers, iteration 1⟩, ⟨fun _ => 0, uBuffers, iteration 2⟩] := by
  intro halive
  -- whatever `rand()` gives first, both lifetimes put it
  have hcalls : ∀ buffer, Lifetime.processed uLibraries ⟨fun _ => 0, uBuffers, iteration buffer⟩
      = 1 := fun _ => rfl
  rw [WatchdogAlive, Lib.Table.alwaysChanges_iff Value.type (deployment_type uLibraries _),
    watchdog_values, List.map_cons, List.map_cons, hcalls, hcalls] at halive
  have hchain : List.IsChain (· ≠ ·) [none, some (watchdogValue uLibraries 0),
      some (watchdogValue uLibraries 0)] :=
    halive.2
  simp at hchain

end NinjaVision
