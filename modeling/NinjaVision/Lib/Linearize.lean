/-
# NinjaVision.Lib.Linearize — sections under mutexes are atomic, although their loads are not.

The threads of `Lib.Critical` load from a memory that is written under no mutex, in the middle of
their sections too. `linearized` lists the same calls and writes for the machine that runs each call
in one step: a call stands where it returned, and a write that hit a location which the section in
progress had already loaded waits until that section has returned. Each location is loaded at most
once in a section, so a write before the load stays before the call and one after the load comes
after it.

* `linearized_law` — that run returns the same results, call by call, agrees with the threads on
  every object whose mutex is free and on its part of the memory, and there has the same writes to
  each location in the same order;
* `linearized_append` — what is linearized so far stays: a call that returned before another was
  made, or a write between the two, keeps its place.

The simulation is `Sim`: what a section has loaded so far is what the delayed writes have not
reached yet.
-/
import NinjaVision.Lib.Critical

namespace NinjaVision.Lib.Critical

variable {T ι Loc μ σ α : Type*} {V : Loc → Type*}

/-! ## §1 — the linearized run. -/

/-- What a section in progress has loaded, and the writes that wait for its end. -/
structure Window {Loc : Type*} (V : Loc → Type*) where
  loaded : List Loc
  delayed : List ((l : Loc) × V l)

/-- The window of an object whose mutex is free. -/
def Window.shut : Window V := ⟨[], []⟩

/-- A write as a step of the atomic machine. -/
def Atomic.ofWrite (w : (l : Loc) × V l) : Atomic μ V := .write w.1 w.2

section Linearized

variable [DecidableEq T] [DecidableEq ι] [DecidableEq Loc]

/-- What one step of the threads does to the windows, and what it linearizes. -/
def System.linearize (sys : System ι μ σ V α) (s : State T ι μ σ V α) (g : ι → Window V) :
    Action T μ V → (ι → Window V) × List (Atomic μ V)
  | .write l v =>
      if l ∈ (g (sys.home l)).loaded then
        (Function.update g (sys.home l)
          { g (sys.home l) with delayed := (g (sys.home l)).delayed ++ [⟨l, v⟩] }, [])
      else (g, [.write l v])
  | .call _ _ => (g, [])
  | .run t =>
      match s.thread t with
      | .inside m (.load l _) =>
          (Function.update g (sys.object m)
            { g (sys.object m) with loaded := l :: (g (sys.object m)).loaded }, [])
      | .inside m (.ret _) =>
          (Function.update g (sys.object m) .shut,
            .method m :: (g (sys.object m)).delayed.map .ofWrite)
      | _ => (g, [])

omit [DecidableEq T] in
/-- A step linearizes writes, and the call that it returns from. -/
theorem mem_linearize (sys : System ι μ σ V α) (s : State T ι μ σ V α) (g : ι → Window V)
    {e : Action T μ V} {x : Atomic μ V} (hx : x ∈ (sys.linearize s g e).2) :
    (∃ w, x = .ofWrite w) ∨ ∃ t m a, e = .run t ∧ s.thread t = .inside m (.ret a) ∧
      x = .method m := by
  cases e with
  | write l v =>
      rw [System.linearize] at hx
      split at hx
      · exact absurd hx List.not_mem_nil
      · exact Or.inl ⟨⟨l, v⟩, List.mem_singleton.mp hx⟩
  | call t m => exact absurd hx List.not_mem_nil
  | run t =>
      simp only [System.linearize] at hx
      split at hx
      · exact absurd hx List.not_mem_nil
      · next m a ht =>
          rcases List.mem_cons.mp hx with rfl | hx
          · exact Or.inr ⟨t, m, a, rfl, ht, rfl⟩
          · obtain ⟨w, _, rfl⟩ := List.mem_map.mp hx
            exact Or.inl ⟨w, rfl⟩
      · exact absurd hx List.not_mem_nil

/-- The atomic run behind a run of the threads. -/
def System.linearized (sys : System ι μ σ V α) :
    State T ι μ σ V α → (ι → Window V) → List (Action T μ V) → List (Atomic μ V)
  | _, _, [] => []
  | s, g, e :: acts =>
      (sys.linearize s g e).2 ++
        sys.linearized (sys.threads.step s e).1 (sys.linearize s g e).1 acts

/-- The windows after a run. -/
def System.windows (sys : System ι μ σ V α) :
    State T ι μ σ V α → (ι → Window V) → List (Action T μ V) → (ι → Window V)
  | _, g, [] => g
  | s, g, e :: acts => sys.windows (sys.threads.step s e).1 (sys.linearize s g e).1 acts

/-- **Prefixes**: what is linearized of a run is not changed by what follows. -/
theorem linearized_append (sys : System ι μ σ V α) (s : State T ι μ σ V α) (g : ι → Window V)
    (acts acts' : List (Action T μ V)) :
    sys.linearized s g (acts ++ acts') = sys.linearized s g acts ++
      sys.linearized (sys.threads.run s acts) (sys.windows s g acts) acts' := by
  induction acts generalizing s g with
  | nil => rfl
  | cons e acts ih =>
      rw [List.cons_append, System.linearized, System.linearized, ih, List.append_assoc]
      rfl

end Linearized

/-! ## §2 — memory after delayed writes. -/

section Written

variable [DecidableEq Loc]

/-- A memory after a list of writes. -/
def written (memory : (l : Loc) → V l) (ws : List ((l : Loc) × V l)) : (l : Loc) → V l :=
  ws.foldl (fun m w => Function.update m w.1 w.2) memory

theorem written_concat (memory : (l : Loc) → V l) (ws : List ((l : Loc) × V l)) (l : Loc)
    (v : V l) : written memory (ws ++ [⟨l, v⟩]) = Function.update (written memory ws) l v := by
  rw [written, List.foldl_append]
  rfl

/-- Writes elsewhere do not show. -/
theorem written_other (memory : (l : Loc) → V l) {ws : List ((l : Loc) × V l)} {l : Loc}
    (h : ∀ w ∈ ws, w.1 ≠ l) : written memory ws l = memory l := by
  induction ws generalizing memory with
  | nil => rfl
  | cons w ws ih =>
      rw [written, List.foldl_cons]
      show written (Function.update memory w.1 w.2) ws l = memory l
      rw [ih _ fun w' hw' => h w' (List.mem_cons_of_mem _ hw'),
        Function.update_of_ne (h w List.mem_cons_self).symm]

/-- What a list of writes leaves at a location depends on the memory there only. -/
theorem written_congr {memory memory' : (l : Loc) → V l} {l : Loc} (h : memory l = memory' l)
    (ws : List ((l : Loc) × V l)) : written memory ws l = written memory' ws l := by
  induction ws generalizing memory memory' with
  | nil => exact h
  | cons w ws ih =>
      have hfirst : Function.update memory w.1 w.2 l = Function.update memory' w.1 w.2 l := by
        by_cases hl : l = w.1
        · subst hl
          rw [Function.update_self, Function.update_self]
        · rw [Function.update_of_ne hl, Function.update_of_ne hl, h]
      exact ih hfirst

end Written

/-! ## §3 — a section in progress. -/

/-- The atomic machine has the store `b` and has not run the method yet; the thread that runs it has
loaded the locations `loaded`, finds the fields `x`, and has `rest` ahead. Whatever the memory will
be elsewhere, the whole method run on `b` comes to the same as the rest from here. -/
structure Midway (sys : System ι μ σ V α) (b : Store ι σ V) (x : σ) (loaded : List Loc) (m : μ)
    (rest : Body σ V α) : Prop where
  reads : rest.Reads {l | sys.home l = sys.object m ∧ l ∉ loaded}
  exec : ∀ memory : (l : Loc) → V l, (∀ l ∈ loaded, memory l = b.memory l) →
    (sys.body m).exec (b.objects (sys.object m)) memory = rest.exec x memory

section Midway

variable {sys : System ι μ σ V α} {b : Store ι σ V} {x : σ} {loaded : List Loc} {m : μ}

theorem Midway.start (sys : System ι μ σ V α) (b : Store ι σ V) (m : μ) :
    Midway sys b (b.objects (sys.object m)) [] m (sys.body m) := by
  refine ⟨?_, fun _ _ => rfl⟩
  have hall : {l | sys.home l = sys.object m ∧ l ∉ ([] : List Loc)}
      = {l | sys.home l = sys.object m} := by
    ext l
    simp
  rw [hall]
  exact sys.reads m

theorem Midway.look {k : σ → Body σ V α} (h : Midway sys b x loaded m (.look k)) :
    Midway sys b x loaded m (k x) :=
  ⟨h.reads x, h.exec⟩

theorem Midway.assign {f : σ → σ} {k : Body σ V α} (h : Midway sys b x loaded m (.assign f k)) :
    Midway sys b (f x) loaded m k :=
  ⟨h.reads, h.exec⟩

/-- The location is loaded for the first time, so no write to it was delayed: the value is that of
`b`. -/
theorem Midway.load {l : Loc} {k : V l → Body σ V α} (h : Midway sys b x loaded m (.load l k)) :
    Midway sys b x (l :: loaded) m (k (b.memory l)) := by
  constructor
  · have hrest : {l' | sys.home l' = sys.object m ∧ l' ∉ l :: loaded}
        = {l' | sys.home l' = sys.object m ∧ l' ∉ loaded} \ {l} := by
      ext l'
      simp only [Set.mem_ofPred_eq, List.mem_cons, not_or, Set.mem_sdiff, Set.mem_singleton_iff]
      exact ⟨fun ⟨hh, hne, hl⟩ => ⟨⟨hh, hl⟩, hne⟩, fun ⟨⟨hh, hl⟩, hne⟩ => ⟨hh, hne, hl⟩⟩
    rw [hrest]
    exact h.reads.2 _
  · intro memory hagree
    rw [h.exec memory fun l' hl' => hagree l' (List.mem_cons_of_mem _ hl'), Body.exec,
      hagree l List.mem_cons_self]

/-- Only the fields of its object and what it has loaded matter. -/
theorem Midway.congr {b' : Store ι σ V} {rest : Body σ V α} (h : Midway sys b x loaded m rest)
    (hobjects : b'.objects (sys.object m) = b.objects (sys.object m))
    (hmemory : ∀ l ∈ loaded, b'.memory l = b.memory l) : Midway sys b' x loaded m rest := by
  refine ⟨h.reads, fun memory hagree => ?_⟩
  rw [hobjects]
  exact h.exec memory fun l hl => (hagree l hl).trans (hmemory l hl)

end Midway

/-! ## §4 — the simulation. -/

/-- The threads in state `s` with windows `g`, against the atomic machine with store `b`: delayed
writes turn its memory into theirs, an object with a free mutex is the same in both, and every
section is midway. -/
structure Sim (sys : System ι μ σ V α) [DecidableEq Loc] (s : State T ι μ σ V α) (b : Store ι σ V)
    (g : ι → Window V) : Prop where
  memory : ∀ l, written b.memory (g (sys.home l)).delayed l = s.store.memory l
  delayed : ∀ i, ∀ w ∈ (g i).delayed, w.1 ∈ (g i).loaded
  loaded : ∀ i, ∀ l ∈ (g i).loaded, sys.home l = i
  free : ∀ i, s.lock i = none → b.objects i = s.store.objects i ∧ g i = .shut
  inside : ∀ t m rest, s.thread t = .inside m rest →
    Midway sys b (s.store.objects (sys.object m)) (g (sys.object m)).loaded m rest

theorem sim_started (sys : System ι μ σ V α) [DecidableEq Loc] (store : Store ι σ V) :
    Sim sys (started store : State T ι μ σ V α) store (fun _ => .shut) where
  memory _ := rfl
  delayed _ _ hw := absurd hw List.not_mem_nil
  loaded _ _ hl := absurd hl List.not_mem_nil
  free _ _ := ⟨rfl, rfl⟩
  inside _ _ _ ht := by cases ht

section Steps

variable [DecidableEq Loc] {sys : System ι μ σ V α} {s : State T ι μ σ V α} {b : Store ι σ V}
    {g : ι → Window V}

/-- No write to a location outside of the window is delayed. -/
theorem Sim.memory_of_not_loaded (h : Sim sys s b g) {l : Loc} (hl : l ∉ (g (sys.home l)).loaded) :
    b.memory l = s.store.memory l := by
  rw [← h.memory l]
  refine (written_other _ fun w hw => ?_).symm
  rintro rfl
  exact hl (h.delayed _ w hw)

/-- A write to a location that no section in progress has loaded happens at once. -/
theorem Sim.write_now (h : Sim sys s b g) {l : Loc} (hl : l ∉ (g (sys.home l)).loaded) (v : V l) :
    Sim sys { s with store := s.store.write l v } (b.write l v) g where
  memory l' := by
    by_cases hl' : l' = l
    · subst hl'
      have hnone : ∀ w ∈ (g (sys.home l')).delayed, w.1 ≠ l' := by
        rintro w hw rfl
        exact hl (h.delayed _ w hw)
      rw [written_other _ hnone]
      exact (Function.update_self ..).trans (Function.update_self ..).symm
    · have hmemory : (b.write l v).memory l' = b.memory l' := Function.update_of_ne hl' ..
      rw [written_congr hmemory, h.memory]
      exact (Function.update_of_ne hl' ..).symm
  delayed := h.delayed
  loaded := h.loaded
  free := h.free
  inside t m rest ht := by
    refine (h.inside t m rest ht).congr rfl fun l' hl' => Function.update_of_ne ?_ ..
    rintro rfl
    rw [← h.loaded _ _ hl'] at hl'
    exact hl hl'

/-- A write to a location that a section has loaded is delayed. -/
theorem Sim.write_later [DecidableEq ι] (h : Sim sys s b g) {l : Loc}
    (hl : l ∈ (g (sys.home l)).loaded) (v : V l) :
    Sim sys { s with store := s.store.write l v } b (Function.update g (sys.home l)
      { g (sys.home l) with delayed := (g (sys.home l)).delayed ++ [⟨l, v⟩] }) := by
  -- windows load the same, so the sections are where they were
  have hloaded : ∀ i, (Function.update g (sys.home l)
      { g (sys.home l) with delayed := (g (sys.home l)).delayed ++ [⟨l, v⟩] } i).loaded
      = (g i).loaded := by
    intro i
    by_cases hi : i = sys.home l
    · rw [hi, Function.update_self]
    · rw [Function.update_of_ne hi]
  refine ⟨fun l' => ?_, fun i w hw => ?_, fun i l' hl' => ?_, fun i hi => ?_, fun t m rest ht => ?_⟩
  · show _ = Function.update s.store.memory l v l'
    by_cases hhome : sys.home l' = sys.home l
    · rw [hhome, Function.update_self, written_concat]
      by_cases hl' : l' = l
      · subst hl'
        rw [Function.update_self, Function.update_self]
      · rw [Function.update_of_ne hl', Function.update_of_ne hl', ← hhome, h.memory]
    · have hl' : l' ≠ l := fun heq => hhome (congrArg sys.home heq)
      rw [Function.update_of_ne hhome, h.memory, Function.update_of_ne hl']
  · rw [hloaded]
    by_cases hi : i = sys.home l
    · subst hi
      rw [Function.update_self] at hw
      rcases List.mem_append.mp hw with hw | hw
      · exact h.delayed _ w hw
      · rw [List.mem_singleton.mp hw]
        exact hl
    · rw [Function.update_of_ne hi] at hw
      exact h.delayed i w hw
  · rw [hloaded] at hl'
    exact h.loaded i l' hl'
  · obtain ⟨hobjects, hshut⟩ := h.free i hi
    have hne : i ≠ sys.home l := by
      rintro rfl
      rw [hshut] at hl
      exact absurd hl List.not_mem_nil
    exact ⟨hobjects, (Function.update_of_ne hne ..).trans hshut⟩
  · rw [hloaded]
    exact h.inside t m rest ht

/-- A thread that enters a section finds its object as the atomic machine has it. -/
theorem Sim.acquire [DecidableEq T] [DecidableEq ι] (h : Sim sys s b g) {t : T} {m : μ}
    (hlock : s.lock (sys.object m) = none) :
    Sim sys { s.enter t (.inside m (sys.body m)) with
      lock := Function.update s.lock (sys.object m) (some t) } b g where
  memory := h.memory
  delayed := h.delayed
  loaded := h.loaded
  free i hi := by
    have hne : i ≠ sys.object m := by
      rintro rfl
      have hnone : Function.update s.lock (sys.object m) (some t) (sys.object m) = none := hi
      rw [Function.update_self] at hnone
      cases hnone
    exact h.free i ((Function.update_of_ne hne ..).symm.trans hi)
  inside t' m' rest ht' := by
    by_cases hne : t' = t
    · subst hne
      obtain ⟨rfl, rfl⟩ := Local.inside.inj ((State.enter_self s t' _).symm.trans ht')
      obtain ⟨hobjects, hshut⟩ := h.free _ hlock
      show Midway sys b (s.store.objects (sys.object m)) _ m _
      rw [hshut, ← hobjects]
      exact Midway.start sys b m
    · exact h.inside t' m' rest ((State.enter_other s hne _).symm.trans ht')

/-- A step inside a section that changes the fields, or what is loaded, and no other object. -/
theorem Sim.inner [DecidableEq T] [DecidableEq ι] (h : Sim sys s b g) (hlocked : sys.Locked s)
    {t : T} {m : μ} {rest rest' : Body σ V α} (ht : s.thread t = .inside m rest) {x : σ}
    {loaded : List Loc} (hmidway : Midway sys b x loaded m rest')
    (hgrow : ∀ l ∈ (g (sys.object m)).loaded, l ∈ loaded)
    (hhome : ∀ l ∈ loaded, sys.home l = sys.object m) :
    Sim sys { s.enter t (.inside m rest') with store := s.store.assign (sys.object m) x } b
      (Function.update g (sys.object m) { g (sys.object m) with loaded := loaded }) := by
  have howner : s.lock (sys.object m) = some t :=
    (hlocked.owner_iff _ t).mpr ⟨m, by rw [ht]; rfl, rfl⟩
  refine ⟨fun l => ?_, fun i w hw => ?_, fun i l hl => ?_, fun i hi => ?_,
    fun t' m' rest'' ht' => ?_⟩
  · show _ = s.store.memory l
    rw [← h.memory l]
    by_cases hi : sys.home l = sys.object m
    · rw [hi, Function.update_self]
    · rw [Function.update_of_ne hi]
  · by_cases hi : i = sys.object m
    · subst hi
      rw [Function.update_self] at hw ⊢
      exact hgrow _ (h.delayed _ w hw)
    · rw [Function.update_of_ne hi] at hw ⊢
      exact h.delayed i w hw
  · by_cases hi : i = sys.object m
    · subst hi
      rw [Function.update_self] at hl
      exact hhome l hl
    · rw [Function.update_of_ne hi] at hl
      exact h.loaded i l hl
  · have hne : i ≠ sys.object m := by
      rintro rfl
      have hnone : s.lock (sys.object m) = none := hi
      rw [howner] at hnone
      cases hnone
    obtain ⟨hobjects, hshut⟩ := h.free i hi
    exact ⟨hobjects.trans (Function.update_of_ne hne ..).symm,
      (Function.update_of_ne hne ..).trans hshut⟩
  · show Midway sys b (Function.update s.store.objects (sys.object m) x (sys.object m')) _ m' rest''
    by_cases hne : t' = t
    · subst hne
      obtain ⟨rfl, rfl⟩ := Local.inside.inj ((State.enter_self s t' _).symm.trans ht')
      rw [Function.update_self, Function.update_self]
      exact hmidway
    · have hin := (State.enter_other s hne _).symm.trans ht'
      have hother := hlocked.other_object ht hin hne
      rw [Function.update_of_ne hother, Function.update_of_ne hother]
      exact h.inside t' m' rest'' hin

/-- A return: the atomic machine runs the method, then the writes that waited for it. -/
theorem Sim.release [DecidableEq T] [DecidableEq ι] (h : Sim sys s b g) (hlocked : sys.Locked s)
    {t : T} {m : μ} {a : α} (ht : s.thread t = .inside m (.ret a)) :
    sys.whole b m = (b.assign (sys.object m) (s.store.objects (sys.object m)), some (m, a)) ∧
    Sim sys { s.enter t .idle with lock := Function.update s.lock (sys.object m) none }
      { b.assign (sys.object m) (s.store.objects (sys.object m)) with
        memory := written b.memory (g (sys.object m)).delayed }
      (Function.update g (sys.object m) .shut) := by
  have hmidway := h.inside t m _ ht
  have hexec := hmidway.exec b.memory fun l _ => rfl
  refine ⟨by simp only [System.whole, hexec, Body.exec], ?_⟩
  refine ⟨fun l => ?_, fun i w hw => ?_, fun i l hl => ?_, fun i hi => ?_,
    fun t' m' rest' ht' => ?_⟩
  · show written (written b.memory (g (sys.object m)).delayed) _ l = s.store.memory l
    rw [← h.memory l]
    by_cases hi : sys.home l = sys.object m
    · rw [hi, Function.update_self]
      rfl
    · -- the writes of this window are all at home in its object
      rw [Function.update_of_ne hi]
      refine written_congr (written_other _ ?_) _
      rintro w hw rfl
      exact hi (h.loaded _ _ (h.delayed _ w hw))
  · by_cases hi : i = sys.object m
    · subst hi
      rw [Function.update_self] at hw
      exact absurd hw List.not_mem_nil
    · rw [Function.update_of_ne hi] at hw ⊢
      exact h.delayed i w hw
  · by_cases hi : i = sys.object m
    · subst hi
      rw [Function.update_self] at hl
      exact absurd hl List.not_mem_nil
    · rw [Function.update_of_ne hi] at hl
      exact h.loaded i l hl
  · show Function.update b.objects (sys.object m) (s.store.objects (sys.object m)) i
      = s.store.objects i ∧ _
    by_cases hne : i = sys.object m
    · subst hne
      exact ⟨Function.update_self .., Function.update_self ..⟩
    · obtain ⟨hobjects, hshut⟩ := h.free i ((Function.update_of_ne hne ..).symm.trans hi)
      exact ⟨(Function.update_of_ne hne ..).trans hobjects,
        (Function.update_of_ne hne ..).trans hshut⟩
  · have hne : t' ≠ t := by
      rintro rfl
      have hidle := (State.enter_self s t' (.idle : Local μ σ V α)).symm.trans ht'
      cases hidle
    have hin := (State.enter_other s hne _).symm.trans ht'
    have hother := hlocked.other_object ht hin hne
    rw [Function.update_of_ne hother]
    refine (h.inside t' m' rest' hin).congr (Function.update_of_ne hother ..) fun l hl => ?_
    refine written_other _ ?_
    rintro w hw rfl
    exact hother ((h.loaded _ _ hl).symm.trans (h.loaded _ _ (h.delayed _ w hw)))

end Steps

/-! ## §5 — steps and runs. -/

section Runs

variable [DecidableEq T] [DecidableEq ι] [DecidableEq Loc]

/-- Writes in a row, by the atomic machine. -/
theorem atomic_writes (sys : System ι μ σ V α) (b : Store ι σ V) (ws : List ((l : Loc) × V l)) :
    sys.atomic.run b (ws.map .ofWrite) = { b with memory := written b.memory ws } ∧
      returns (sys.atomic.trace b (ws.map .ofWrite)) = [] := by
  induction ws generalizing b with
  | nil => exact ⟨rfl, rfl⟩
  | cons w ws ih => exact ih (b.write w.1 w.2)

/-- **One step of the threads** is the steps of the atomic machine that it linearizes. -/
theorem sim_step {sys : System ι μ σ V α} {s : State T ι μ σ V α} {b : Store ι σ V}
    {g : ι → Window V} (h : Sim sys s b g) (hlocked : sys.Locked s) (e : Action T μ V) :
    Sim sys (sys.threads.step s e).1 (sys.atomic.run b (sys.linearize s g e).2)
      (sys.linearize s g e).1 ∧
      returns (sys.atomic.trace b (sys.linearize s g e).2) = (sys.threads.step s e).2.toList := by
  have heffect := step_effect sys s e
  generalize sys.threads.step s e = r at heffect
  obtain ⟨s', out⟩ := r
  cases heffect with
  | write l v =>
      by_cases hl : l ∈ (g (sys.home l)).loaded
      · rw [System.linearize, if_pos hl]
        exact ⟨h.write_later hl v, rfl⟩
      · rw [System.linearize, if_neg hl]
        exact ⟨h.write_now hl v, rfl⟩
  | busy m ht => exact ⟨h, rfl⟩
  | @call t m ht =>
      refine ⟨⟨h.memory, h.delayed, h.loaded, h.free, fun t' m' rest ht' => ?_⟩, rfl⟩
      have hne : t' ≠ t := by
        rintro rfl
        have hwaits := (State.enter_self s t' (.waiting m : Local μ σ V α)).symm.trans ht'
        cases hwaits
      exact h.inside t' m' rest ((State.enter_other s hne _).symm.trans ht')
  | @blocked t ht hlock =>
      have hnone : sys.linearize s' g (.run t) = (g, []) := by
        cases hthread : s'.thread t with
        | idle => simp only [System.linearize, hthread]
        | waiting m => simp only [System.linearize, hthread]
        | inside m rest => exact absurd hthread (ht m rest)
      rw [hnone]
      exact ⟨h, rfl⟩
  | @acquire t m ht hlock =>
      simp only [System.linearize, ht]
      exact ⟨h.acquire hlock, rfl⟩
  | @look t m k ht =>
      simp only [System.linearize, ht]
      have hsame := h.inner hlocked ht (h.inside t m _ ht).look (fun _ hl => hl) (h.loaded _)
      rw [Function.update_eq_self, Store.assign, Function.update_eq_self] at hsame
      exact ⟨hsame, rfl⟩
  | @assign t m f k ht =>
      simp only [System.linearize, ht]
      have hstep := h.inner hlocked ht (h.inside t m _ ht).assign (fun _ hl => hl) (h.loaded _)
      rw [Function.update_eq_self] at hstep
      exact ⟨hstep, rfl⟩
  | @load t m l k ht =>
      simp only [System.linearize, ht]
      have hmidway := h.inside t m _ ht
      obtain ⟨⟨hhome, hnew⟩, _⟩ := hmidway.reads
      have hvalue : b.memory l = s.store.memory l := h.memory_of_not_loaded (hhome.symm ▸ hnew)
      have hload : Midway sys b (s.store.objects (sys.object m)) (l :: (g (sys.object m)).loaded) m
          (k (s.store.memory l)) := hvalue ▸ hmidway.load
      have hwindow : ∀ l' ∈ l :: (g (sys.object m)).loaded, sys.home l' = sys.object m := by
        rintro l' hl'
        rcases List.mem_cons.mp hl' with rfl | hl'
        · exact hhome
        · exact h.loaded _ l' hl'
      have hstep := h.inner hlocked ht hload (fun _ hl => List.mem_cons_of_mem _ hl) hwindow
      rw [Store.assign, Function.update_eq_self] at hstep
      exact ⟨hstep, rfl⟩
  | @release t m a ht =>
      simp only [System.linearize, ht]
      obtain ⟨hwhole, hsim⟩ := h.release hlocked ht
      have hstep : sys.atomic.step b (.method m)
          = (b.assign (sys.object m) (s.store.objects (sys.object m)), some (m, a)) := hwhole
      rw [Machine.run_cons, Machine.trace_cons, hstep]
      obtain ⟨hrun, hnone⟩ :=
        atomic_writes sys (b.assign (sys.object m) (s.store.objects (sys.object m)))
        (g (sys.object m)).delayed
      refine ⟨hrun ▸ hsim, ?_⟩
      show (m, a) :: returns (sys.atomic.trace _ _) = _
      rw [hnone]
      rfl

/-- **A run of the threads** against its linearized run. -/
theorem sim_run {sys : System ι μ σ V α} {s : State T ι μ σ V α} {b : Store ι σ V}
    {g : ι → Window V} (h : Sim sys s b g) (hlocked : sys.Locked s) (acts : List (Action T μ V)) :
    Sim sys (sys.threads.run s acts) (sys.atomic.run b (sys.linearized s g acts))
      (sys.windows s g acts) ∧
      returns (sys.atomic.trace b (sys.linearized s g acts))
        = returns (sys.threads.trace s acts) := by
  induction acts generalizing s b g with
  | nil => exact ⟨h, rfl⟩
  | cons e acts ih =>
      obtain ⟨hsim, hreturns⟩ := sim_step h hlocked e
      obtain ⟨hrun, htail⟩ := ih hsim (locked_step hlocked e)
      rw [System.linearized, Machine.run_append, Machine.trace_append, returns_append, hreturns,
        htail]
      refine ⟨hrun, ?_⟩
      rw [Machine.trace_cons]
      cases hout : (sys.threads.step s e).2 with
      | none => simp only [returns, List.filterMap_cons, Option.toList_none, List.nil_append]
      | some r =>
          simp only [returns, List.filterMap_cons, Option.toList_some, List.singleton_append]

/-- The writes among the steps of the threads, and among those of the atomic machine. -/
def Action.writes : Action T μ V → List ((l : Loc) × V l)
  | .write l v => [⟨l, v⟩]
  | _ => []

def Atomic.writes : Atomic μ V → List ((l : Loc) × V l)
  | .write l v => [⟨l, v⟩]
  | .method _ => []

/-- The writes to one location, in order. -/
def writesTo (l : Loc) (ws : List ((l : Loc) × V l)) : List ((l : Loc) × V l) :=
  ws.filter fun w => w.1 = l

omit [DecidableEq T] [DecidableEq ι] in
theorem writesTo_append (l : Loc) (ws ws' : List ((l : Loc) × V l)) :
    writesTo l (ws ++ ws') = writesTo l ws ++ writesTo l ws' :=
  List.filter_append ..

omit [DecidableEq T] [DecidableEq ι] in
theorem writesTo_eq_nil {l : Loc} {ws : List ((l : Loc) × V l)} (h : ∀ w ∈ ws, w.1 ≠ l) :
    writesTo l ws = [] := by
  rw [writesTo, List.filter_eq_nil_iff]
  intro w hw
  simpa using h w hw

omit [DecidableEq T] [DecidableEq ι] [DecidableEq Loc] in
theorem writes_ofWrite (ws : List ((l : Loc) × V l)) :
    (ws.map (Atomic.ofWrite : _ → Atomic μ V)).flatMap Atomic.writes = ws := by
  induction ws with
  | nil => rfl
  | cons w ws ih =>
      rw [List.map_cons, List.flatMap_cons, ih]
      rfl

omit [DecidableEq T] in
/-- One step: the writes delayed at a location before it, and its own, are those it linearizes and
those that are delayed after it. -/
theorem writes_step {sys : System ι μ σ V α} {s : State T ι μ σ V α} {b : Store ι σ V}
    {g : ι → Window V} (h : Sim sys s b g) (e : Action T μ V) (l : Loc) :
    writesTo l (g (sys.home l)).delayed ++ writesTo l e.writes =
      writesTo l ((sys.linearize s g e).2.flatMap Atomic.writes) ++
        writesTo l ((sys.linearize s g e).1 (sys.home l)).delayed := by
  have hskip : ∀ g' : ι → Window V, (g' (sys.home l)).delayed = (g (sys.home l)).delayed →
      writesTo l (g (sys.home l)).delayed ++ writesTo l []
        = writesTo l [] ++ writesTo l (g' (sys.home l)).delayed := by
    intro g' hg'
    rw [hg']
    exact List.append_nil _
  cases e with
  | write l' v =>
      by_cases hl' : l' ∈ (g (sys.home l')).loaded
      · rw [System.linearize, if_pos hl']
        dsimp only
        by_cases hhome : sys.home l = sys.home l'
        · rw [hhome, Function.update_self, List.flatMap_nil]
          exact (writesTo_append ..).symm
        · have hne : ∀ w ∈ (Action.write l' v : Action T μ V).writes, w.1 ≠ l := by
            intro w hw
            rw [List.mem_singleton.mp hw]
            exact fun heq => hhome (congrArg sys.home heq.symm)
          rw [writesTo_eq_nil hne, Function.update_of_ne hhome]
          exact hskip g rfl
      · rw [System.linearize, if_neg hl', List.flatMap_singleton]
        show _ ++ writesTo l [⟨l', v⟩] = writesTo l [⟨l', v⟩] ++ _
        by_cases heq : l' = l
        · -- nothing is delayed at a location that is not loaded
          subst heq
          have hnone : ∀ w ∈ (g (sys.home l')).delayed, w.1 ≠ l' := by
            rintro w hw rfl
            exact hl' (h.delayed _ w hw)
          rw [writesTo_eq_nil hnone]
          exact (List.append_nil _).symm
        · have hne : ∀ w ∈ ([⟨l', v⟩] : List ((l : Loc) × V l)), w.1 ≠ l := by
            intro w hw
            rw [List.mem_singleton.mp hw]
            exact heq
          rw [writesTo_eq_nil hne]
          exact List.append_nil _
  | call t m => exact hskip g rfl
  | run t =>
      cases hthread : s.thread t with
      | idle => simp only [System.linearize, hthread]; exact hskip g rfl
      | waiting m => simp only [System.linearize, hthread]; exact hskip g rfl
      | inside m rest =>
          cases rest with
          | look k => simp only [System.linearize, hthread]; exact hskip g rfl
          | assign f k => simp only [System.linearize, hthread]; exact hskip g rfl
          | load l' k =>
              simp only [System.linearize, hthread]
              refine hskip _ ?_
              by_cases hhome : sys.home l = sys.object m
              · rw [hhome, Function.update_self]
              · rw [Function.update_of_ne hhome]
          | ret a =>
              simp only [System.linearize, hthread]
              rw [List.flatMap_cons, writes_ofWrite]
              show _ ++ writesTo l [] = writesTo l (g (sys.object m)).delayed ++ _
              by_cases hhome : sys.home l = sys.object m
              · rw [hhome, Function.update_self]
                rfl
              · have hne : ∀ w ∈ (g (sys.object m)).delayed, w.1 ≠ l := by
                  rintro w hw rfl
                  exact hhome (h.loaded _ _ (h.delayed _ w hw))
                rw [writesTo_eq_nil hne, Function.update_of_ne hhome]
                exact hskip g rfl

/-- **Writes keep their order** at every location. -/
theorem writes_run {sys : System ι μ σ V α} {s : State T ι μ σ V α} {b : Store ι σ V}
    {g : ι → Window V} (h : Sim sys s b g) (hlocked : sys.Locked s) (acts : List (Action T μ V))
    (l : Loc) :
    writesTo l (g (sys.home l)).delayed ++ writesTo l (acts.flatMap Action.writes) =
      writesTo l ((sys.linearized s g acts).flatMap Atomic.writes) ++
        writesTo l (sys.windows s g acts (sys.home l)).delayed := by
  induction acts generalizing s b g with
  | nil => exact List.append_nil _
  | cons e acts ih =>
      have htail := ih (sim_step h hlocked e).1 (locked_step hlocked e)
      rw [List.flatMap_cons, writesTo_append, ← List.append_assoc, writes_step h e l,
        System.linearized, List.flatMap_append, writesTo_append, List.append_assoc,
        List.append_assoc, htail]
      rfl

/-- **Sections are atomic.** The linearized run returns what the threads returned, call by call.
Wherever a mutex is free, the object and its part of the memory are as the threads left them, and
every write to that part is in the linearized run, in order. -/
theorem linearized_law (sys : System ι μ σ V α) (store : Store ι σ V) (acts : List (Action T μ V)) :
    returns (sys.atomic.trace store (sys.linearized (started store) (fun _ => .shut) acts))
      = returns (sys.threads.trace (started store) acts) ∧
    ∀ i, (sys.threads.run (started store) acts).lock i = none →
      (sys.atomic.run store (sys.linearized (started store) (fun _ => .shut) acts)).objects i
        = (sys.threads.run (started store) acts).store.objects i ∧
      ∀ l, sys.home l = i →
        (sys.atomic.run store (sys.linearized (started store) (fun _ => .shut) acts)).memory l
          = (sys.threads.run (started store) acts).store.memory l ∧
        writesTo l ((sys.linearized (started store) (fun _ => .shut) acts).flatMap Atomic.writes)
          = writesTo l (acts.flatMap Action.writes) := by
  have hsim := sim_started (T := T) sys store
  have hlocked := locked_started (T := T) sys store
  obtain ⟨hrun, hreturns⟩ := sim_run hsim hlocked acts
  refine ⟨hreturns, fun i hfree => ?_⟩
  obtain ⟨hobjects, hshut⟩ := hrun.free i hfree
  refine ⟨hobjects, ?_⟩
  rintro l rfl
  have hwrites := writes_run hsim hlocked acts l
  rw [hshut] at hwrites
  refine ⟨?_, (List.append_nil _).symm.trans hwrites.symm⟩
  rw [← hrun.memory l, hshut]
  rfl

/-! ## §6 — where the calls stand. -/

omit [DecidableEq T] in
/-- What a returning step linearizes starts with its call. -/
theorem linearize_return (sys : System ι μ σ V α) {s : State T ι μ σ V α} (g : ι → Window V) {t : T}
    {m : μ} {a : α} (ht : s.thread t = .inside m (.ret a)) :
    sys.linearize s g (.run t) = (Function.update g (sys.object m) .shut,
      .method m :: (g (sys.object m)).delayed.map .ofWrite) := by
  simp only [System.linearize, ht]

omit [DecidableEq T] in
/-- A step linearizes a call as the first thing it does, when it returns from it. -/
theorem linearize_method (sys : System ι μ σ V α) {s : State T ι μ σ V α} {g : ι → Window V}
    {e : Action T μ V} {pre : List (Atomic μ V)} {m : μ} {post : List (Atomic μ V)}
    (h : (sys.linearize s g e).2 = pre ++ .method m :: post) :
    pre = [] ∧ ∃ t a, e = .run t ∧ s.thread t = .inside m (.ret a) := by
  have hmem : .method m ∈ (sys.linearize s g e).2 := by simp [h]
  rcases mem_linearize sys s g hmem with ⟨w, hw⟩ | ⟨t, m', a, rfl, ht, hm⟩
  · cases hw
  · obtain rfl := Atomic.method.inj hm
    rw [linearize_return sys g ht] at h
    cases pre with
    | nil => exact ⟨rfl, t, a, rfl, ht⟩
    | cons x pre =>
        -- behind the call there are only writes
        have hwrites := (List.cons.inj h).2
        have hcall : .method m
            ∈ (g (sys.object m)).delayed.map (Atomic.ofWrite : _ → Atomic μ V) := by
          simp [hwrites]
        obtain ⟨w, _, hw⟩ := List.mem_map.mp hcall
        cases hw

/-- **Each call of the linearized run was returned from by one step.** -/
theorem linearized_split (sys : System ι μ σ V α) {s : State T ι μ σ V α} {g : ι → Window V}
    {acts : List (Action T μ V)} {pre : List (Atomic μ V)} {m : μ} {post : List (Atomic μ V)}
    (h : sys.linearized s g acts = pre ++ .method m :: post) :
    ∃ before t a after, acts = before ++ .run t :: after ∧ sys.linearized s g before = pre ∧
      (sys.threads.run s before).thread t = .inside m (.ret a) := by
  induction acts generalizing s g pre with
  | nil => exact absurd h (by simp [System.linearized])
  | cons e acts ih =>
      rw [System.linearized] at h
      -- the call is linearized by the first step, or by one of the rest
      have hrest : ∀ pre', pre = (sys.linearize s g e).2 ++ pre' →
          sys.linearized (sys.threads.step s e).1 (sys.linearize s g e).1 acts
            = pre' ++ .method m :: post →
          ∃ before t a after, e :: acts = before ++ .run t :: after ∧
            sys.linearized s g before = pre ∧
            (sys.threads.run s before).thread t = .inside m (.ret a) := by
        rintro pre' rfl htail
        obtain ⟨before, t, a, after, rfl, rfl, ht⟩ := ih htail
        exact ⟨e :: before, t, a, after, rfl, rfl, ht⟩
      rcases List.append_eq_append_iff.mp h with ⟨pre', rfl, htail⟩ | ⟨mid, hfirst, htail⟩
      · exact hrest pre' rfl htail
      · cases mid with
        | nil =>
            refine hrest [] ?_ htail.symm
            rw [hfirst, List.append_nil, List.append_nil]
        | cons x mid =>
            obtain ⟨rfl, -⟩ := List.cons.inj htail
            obtain ⟨rfl, t, a, rfl, ht⟩ := linearize_method sys hfirst
            exact ⟨[], t, a, acts, rfl, rfl, ht⟩

/-- Sections whose bodies load nothing have loaded nothing. -/
def Unloaded (sys : System ι μ σ V α) (s : State T ι μ σ V α) (g : ι → Window V) : Prop :=
  ∀ t m rest, s.thread t = .inside m rest → (sys.body m).Reads ∅ →
    rest.Reads ∅ ∧ (g (sys.object m)).loaded = []

omit [DecidableEq T] in
/-- A write or a call leaves what is loaded. -/
theorem linearize_loaded (sys : System ι μ σ V α) (s : State T ι μ σ V α) (g : ι → Window V)
    {e : Action T μ V} (h : ∀ t, e ≠ .run t) (i : ι) :
    ((sys.linearize s g e).1 i).loaded = (g i).loaded := by
  cases e with
  | write l v =>
      rw [System.linearize]
      split
      · dsimp only
        by_cases hi : i = sys.home l
        · rw [hi, Function.update_self]
        · rw [Function.update_of_ne hi]
      · rfl
  | call t m => rfl
  | run t => exact absurd rfl (h t)

omit [DecidableEq T] in
/-- So does a step of a thread that is neither a load nor a return. -/
theorem linearize_loaded_run (sys : System ι μ σ V α) (s : State T ι μ σ V α) (g : ι → Window V)
    {t : T} (hload : ∀ m l k, s.thread t ≠ .inside m (.load l k))
    (hret : ∀ m a, s.thread t ≠ .inside m (.ret a)) (i : ι) :
    ((sys.linearize s g (.run t)).1 i).loaded = (g i).loaded := by
  -- the equation of the last branch, whose side conditions are the two hypotheses
  simp only [System.linearize]

theorem unloaded_step {sys : System ι μ σ V α} {s : State T ι μ σ V α} {b : Store ι σ V}
    {g : ι → Window V} (h : Unloaded sys s g) (hsim : Sim sys s b g) (hlocked : sys.Locked s)
    (e : Action T μ V) : Unloaded sys (sys.threads.step s e).1 (sys.linearize s g e).1 := by
  have heffect := step_effect sys s e
  generalize sys.threads.step s e = r at heffect
  obtain ⟨s', out⟩ := r
  intro t' m' rest' ht' hnone
  -- a section that was there before the step, when the step changes no window or that of another
  -- object
  have hkeep : s.thread t' = .inside m' rest' →
      ((sys.linearize s g e).1 (sys.object m')).loaded = (g (sys.object m')).loaded →
      rest'.Reads ∅ ∧ ((sys.linearize s g e).1 (sys.object m')).loaded = [] := by
    intro hin hsame
    rw [hsame]
    exact h t' m' rest' hin hnone
  -- the thread of the step itself, inside the same section as before
  have hinner : ∀ {t : T} {m : μ} {rest rest'' : Body σ V α}, s.thread t = .inside m rest →
      (s.enter t (.inside m rest'')).thread t' = .inside m' rest' →
        (rest.Reads ∅ → rest''.Reads ∅) →
      (∀ i, ((sys.linearize s g e).1 i).loaded = (g i).loaded) →
      rest'.Reads ∅ ∧ ((sys.linearize s g e).1 (sys.object m')).loaded = [] := by
    intro t m rest rest'' ht hin hreads hsame
    by_cases hne : t' = t
    · subst hne
      obtain ⟨rfl, rfl⟩ := Local.inside.inj ((State.enter_self s t' _).symm.trans hin)
      obtain ⟨hrest, hnil⟩ := h t' m rest ht hnone
      exact ⟨hreads hrest, (hsame _).trans hnil⟩
    · exact hkeep ((State.enter_other s hne _).symm.trans hin) (hsame _)
  cases heffect with
  | write l v => exact hkeep ht' (linearize_loaded sys _ g (by nofun) _)
  | busy m ht => exact hkeep ht' (linearize_loaded sys _ g (by nofun) _)
  | @call t m ht =>
      have hne : t' ≠ t := by
        rintro rfl
        cases (State.enter_self s t' (.waiting m : Local μ σ V α)).symm.trans ht'
      have hin := (State.enter_other s hne _).symm.trans ht'
      exact hkeep hin (linearize_loaded sys _ g (by nofun) _)
  | @blocked t ht hlock =>
      exact hkeep ht' (linearize_loaded_run sys _ g (fun m l k => ht m _) (fun m a => ht m _) _)
  | @acquire t m ht hlock =>
      have hsame : ∀ i, ((sys.linearize s g (.run t)).1 i).loaded = (g i).loaded :=
        linearize_loaded_run sys s g (by rw [ht]; nofun) (by rw [ht]; nofun)
      by_cases hne : t' = t
      · subst hne
        obtain ⟨rfl, rfl⟩ := Local.inside.inj ((State.enter_self s t' _).symm.trans ht')
        refine ⟨hnone, (hsame _).trans ?_⟩
        rw [(hsim.free _ hlock).2]
        rfl
      · exact hkeep ((State.enter_other s hne _).symm.trans ht') (hsame _)
  | @look t m k ht =>
      refine hinner ht ht' (fun hreads => hreads _) ?_
      exact linearize_loaded_run sys s g (by rw [ht]; nofun) (by rw [ht]; nofun)
  | @assign t m f k ht =>
      refine hinner ht ht' (fun hreads => hreads) ?_
      exact linearize_loaded_run sys s g (by rw [ht]; nofun) (by rw [ht]; nofun)
  | @load t m l k ht =>
      by_cases hne : t' = t
      · subst hne
        obtain ⟨rfl, -⟩ := Local.inside.inj ((State.enter_self s t' _).symm.trans ht')
        -- a section that loads nothing is not at a load
        exact absurd (h t' m _ ht hnone).1.1 (Set.notMem_empty l)
      · have hin := (State.enter_other s hne _).symm.trans ht'
        refine hkeep hin ?_
        simp only [System.linearize, ht]
        rw [Function.update_of_ne (hlocked.other_object ht hin hne)]
  | @release t m a ht =>
      have hne : t' ≠ t := by
        rintro rfl
        cases (State.enter_self s t' (.idle : Local μ σ V α)).symm.trans ht'
      have hin := (State.enter_other s hne _).symm.trans ht'
      refine hkeep hin ?_
      rw [linearize_return sys g ht]
      dsimp only
      rw [Function.update_of_ne (hlocked.other_object ht hin hne)]

theorem unloaded_run {sys : System ι μ σ V α} {s : State T ι μ σ V α} {b : Store ι σ V}
    {g : ι → Window V} (h : Unloaded sys s g) (hsim : Sim sys s b g) (hlocked : sys.Locked s)
    (acts : List (Action T μ V)) :
    Unloaded sys (sys.threads.run s acts) (sys.windows s g acts) := by
  induction acts generalizing s b g with
  | nil => exact h
  | cons e acts ih =>
      have hstep := unloaded_step h hsim hlocked e
      exact ih hstep (sim_step hsim hlocked e).1 (locked_step hlocked e)

/-- A step that returns from a call puts it at the end of what is linearized so far, and the writes
that waited for it behind it. -/
theorem linearized_return (sys : System ι μ σ V α) {s : State T ι μ σ V α} {g : ι → Window V}
    {acts : List (Action T μ V)} {t : T} {m : μ} {a : α}
    (ht : (sys.threads.run s acts).thread t = .inside m (.ret a)) :
    sys.linearized s g (acts ++ [.run t]) = sys.linearized s g acts ++
      .method m :: (sys.windows s g acts (sys.object m)).delayed.map .ofWrite := by
  rw [linearized_append, System.linearized, linearize_return sys _ ht, System.linearized,
    List.append_nil]

/-- **A call that loads nothing stands alone**: no write waited for it. -/
theorem linearized_unloaded (sys : System ι μ σ V α) (store : Store ι σ V)
    {acts : List (Action T μ V)} {t : T} {m : μ} {a : α} (hnone : (sys.body m).Reads ∅)
    (ht : (sys.threads.run (started store) acts).thread t = .inside m (.ret a)) :
    sys.linearized (started store) (fun _ => .shut) (acts ++ [.run t])
      = sys.linearized (started store) (fun _ => .shut) acts ++ [.method m] := by
  have hsim := sim_started (T := T) sys store
  have hlocked := locked_started (T := T) sys store
  have hstart : Unloaded sys (started store : State T ι μ σ V α) fun _ => .shut :=
    fun _ _ _ ht => by cases ht
  have hloaded := (unloaded_run hstart hsim hlocked acts t m _ ht hnone).2
  have hwindow := (sim_run hsim hlocked acts).1.delayed (sys.object m)
  rw [hloaded] at hwindow
  rw [linearized_return sys ht,
    List.eq_nil_iff_forall_not_mem.mpr fun w hw => List.not_mem_nil (hwindow w hw), List.map_nil]

end Runs

end NinjaVision.Lib.Critical
