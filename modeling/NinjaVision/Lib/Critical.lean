/-
# NinjaVision.Lib.Critical — methods under mutexes, one statement at a time.

Objects, each with a mutex; threads that call their methods; and a memory that is written from
outside at any time, under no mutex. A method body is a sequence of single steps (`Body`): a look at
the fields of its object, an assignment to them, or a load of one location of the memory. A thread
waits for the mutex, runs the body with the steps of all other threads and all writes in between,
and returns (`System.threads`). The same methods can also be run in one step each (`System.atomic`).

* `Locked` — a thread is between the two ends of a section exactly while it owns the mutex of the
  object;
* `leaves_section`, `call_returns` — a section whose body is bounded ends after that many steps of
  its thread, and no call waits for ever;
* `call_alone` — a call whose thread runs alone is one step of `System.atomic`.

What relates the two machines in all other runs is in `Lib.Linearize`.
-/
import NinjaVision.Lib.Machine
import Mathlib.Data.Set.Insert
import Mathlib.Logic.Function.Basic

namespace NinjaVision.Lib.Critical

variable {T ι Loc μ σ α : Type*} {V : Loc → Type*}

/-! ## §1 — method bodies. -/

/-- A method body, for an object with fields `σ` and a memory that holds a `V l` at `l`. -/
inductive Body (σ : Type*) {Loc : Type*} (V : Loc → Type*) (α : Type*) where
  | ret (a : α)
  | look (k : σ → Body σ V α)
  | assign (f : σ → σ) (k : Body σ V α)
  | load (l : Loc) (k : V l → Body σ V α)

/-- The body run in one go: the fields it leaves and what it returns. -/
def Body.exec : Body σ V α → σ → ((l : Loc) → V l) → σ × α
  | .ret a, s, _ => (s, a)
  | .look k, s, memory => (k s).exec s memory
  | .assign f k, s, memory => k.exec (f s) memory
  | .load l k, s, memory => (k (memory l)).exec s memory

/-- The body loads locations of `P` only, each at most once. -/
def Body.Reads : Body σ V α → Set Loc → Prop
  | .ret _, _ => True
  | .look k, P => ∀ s, (k s).Reads P
  | .assign _ k, P => k.Reads P
  | .load l k, P => l ∈ P ∧ ∀ v, (k v).Reads (P \ {l})

/-- The body returns in at most that many steps, the return included. -/
def Body.Within : Body σ V α → ℕ → Prop
  | _, 0 => False
  | .ret _, _ + 1 => True
  | .look k, n + 1 => ∀ s, (k s).Within n
  | .assign _ k, n + 1 => k.Within n
  | .load _ k, n + 1 => ∀ v, (k v).Within n

/-! ## §2 — objects, threads and memory. -/

/-- The objects' methods. A method loads only from the part of the memory that belongs to its
object, and no location twice. -/
structure System (ι μ σ : Type*) {Loc : Type*} (V : Loc → Type*) (α : Type*) where
  object : μ → ι
  home : Loc → ι
  body : μ → Body σ V α
  reads : ∀ m, (body m).Reads {l | home l = object m}

/-- The fields of all objects and the memory. -/
structure Store (ι σ : Type*) {Loc : Type*} (V : Loc → Type*) where
  objects : ι → σ
  memory : (l : Loc) → V l

/-- Where a thread is. -/
inductive Local (μ σ : Type*) {Loc : Type*} (V : Loc → Type*) (α : Type*) where
  | idle
  | waiting (m : μ)
  | inside (m : μ) (rest : Body σ V α)

/-- Store, owners of the mutexes, and threads. -/
structure State (T ι μ σ : Type*) {Loc : Type*} (V : Loc → Type*) (α : Type*) where
  store : Store ι σ V
  lock : ι → Option T
  thread : T → Local μ σ V α

/-- No thread is in a method. -/
def started (store : Store ι σ V) : State T ι μ σ V α := ⟨store, fun _ => none, fun _ => .idle⟩

/-- What happens next: a write from outside, a call by an idle thread, or the next step of a
thread. -/
inductive Action (T μ : Type*) {Loc : Type*} (V : Loc → Type*) where
  | write (l : Loc) (v : V l)
  | call (t : T) (m : μ)
  | run (t : T)

/-- What happens next when methods are single steps. -/
inductive Atomic (μ : Type*) {Loc : Type*} (V : Loc → Type*) where
  | write (l : Loc) (v : V l)
  | method (m : μ)

def Store.write [DecidableEq Loc] (b : Store ι σ V) (l : Loc) (v : V l) : Store ι σ V :=
  { b with memory := Function.update b.memory l v }

def Store.assign [DecidableEq ι] (b : Store ι σ V) (i : ι) (x : σ) : Store ι σ V :=
  { b with objects := Function.update b.objects i x }

def State.enter [DecidableEq T] (s : State T ι μ σ V α) (t : T) (l : Local μ σ V α) :
    State T ι μ σ V α :=
  { s with thread := Function.update s.thread t l }

@[simp] theorem State.enter_self [DecidableEq T] (s : State T ι μ σ V α) (t : T)
    (l : Local μ σ V α) : (s.enter t l).thread t = l := Function.update_self ..

theorem State.enter_other [DecidableEq T] (s : State T ι μ σ V α) {t t' : T} (h : t' ≠ t)
    (l : Local μ σ V α) : (s.enter t l).thread t' = s.thread t' := Function.update_of_ne h ..

/-- The results returned in a history, in order. -/
def returns {κ : Type*} (h : List (κ × Option (μ × α))) : List (μ × α) := h.filterMap Prod.snd

theorem returns_append {κ : Type*} (h h' : List (κ × Option (μ × α))) :
    returns (h ++ h') = returns h ++ returns h' :=
  List.filterMap_append

section Machines

variable [DecidableEq T] [DecidableEq ι] [DecidableEq Loc]

/-- The next step of a thread. One that waits for a mutex with an owner stays where it is. -/
def System.runThread (sys : System ι μ σ V α) (s : State T ι μ σ V α) (t : T) :
    State T ι μ σ V α × Option (μ × α) :=
  match s.thread t with
  | .idle => (s, none)
  | .waiting m =>
      match s.lock (sys.object m) with
      | some _ => (s, none)
      | none =>
          ({ s.enter t (.inside m (sys.body m)) with
              lock := Function.update s.lock (sys.object m) (some t) }, none)
  | .inside m (.ret a) =>
      ({ s.enter t .idle with lock := Function.update s.lock (sys.object m) none }, some (m, a))
  | .inside m (.look k) => (s.enter t (.inside m (k (s.store.objects (sys.object m)))), none)
  | .inside m (.assign f k) =>
      ({ s.enter t (.inside m k) with
          store := s.store.assign (sys.object m) (f (s.store.objects (sys.object m))) }, none)
  | .inside m (.load l k) => (s.enter t (.inside m (k (s.store.memory l))), none)

/-- One step; a step that returns from a method answers with the method and its result. -/
def System.step (sys : System ι μ σ V α) (s : State T ι μ σ V α) :
    Action T μ V → State T ι μ σ V α × Option (μ × α)
  | .write l v => ({ s with store := s.store.write l v }, none)
  | .call t m =>
      match s.thread t with
      | .idle => (s.enter t (.waiting m), none)
      | _ => (s, none)
  | .run t => sys.runThread s t

/-- The threads as a machine. -/
def System.threads (sys : System ι μ σ V α) :
    Machine (State T ι μ σ V α) (Action T μ V) (Option (μ × α)) :=
  ⟨sys.step⟩

/-- A method in one step. -/
def System.whole (sys : System ι μ σ V α) (b : Store ι σ V) (m : μ) :
    Store ι σ V × Option (μ × α) :=
  let r := (sys.body m).exec (b.objects (sys.object m)) b.memory
  (b.assign (sys.object m) r.1, some (m, r.2))

/-- The same methods with every call in one step. -/
def System.atomic (sys : System ι μ σ V α) :
    Machine (Store ι σ V) (Atomic μ V) (Option (μ × α)) where
  step b
    | .write l v => (b.write l v, none)
    | .method m => sys.whole b m

/-! ## §3 — what one step does. -/

/-- The effects of a step, with what must hold for each. -/
inductive Effect (sys : System ι μ σ V α) (s : State T ι μ σ V α) :
    Action T μ V → State T ι μ σ V α → Option (μ × α) → Prop
  | write (l : Loc) (v : V l) : Effect sys s (.write l v) { s with store := s.store.write l v } none
  | busy {t : T} (m : μ) (ht : s.thread t ≠ .idle) : Effect sys s (.call t m) s none
  | call {t : T} (m : μ) (ht : s.thread t = .idle) :
      Effect sys s (.call t m) (s.enter t (.waiting m)) none
  | blocked {t : T} (ht : ∀ m rest, s.thread t ≠ .inside m rest)
      (hlock : ∀ m, s.thread t = .waiting m → s.lock (sys.object m) ≠ none) :
      Effect sys s (.run t) s none
  | acquire {t : T} {m : μ} (ht : s.thread t = .waiting m) (hlock : s.lock (sys.object m) = none) :
      Effect sys s (.run t) { s.enter t (.inside m (sys.body m)) with
        lock := Function.update s.lock (sys.object m) (some t) } none
  | look {t : T} {m : μ} {k : σ → Body σ V α} (ht : s.thread t = .inside m (.look k)) :
      Effect sys s (.run t) (s.enter t (.inside m (k (s.store.objects (sys.object m))))) none
  | assign {t : T} {m : μ} {f : σ → σ} {k : Body σ V α}
      (ht : s.thread t = .inside m (.assign f k)) :
      Effect sys s (.run t) { s.enter t (.inside m k) with
        store := s.store.assign (sys.object m) (f (s.store.objects (sys.object m))) } none
  | load {t : T} {m : μ} {l : Loc} {k : V l → Body σ V α}
      (ht : s.thread t = .inside m (.load l k)) :
      Effect sys s (.run t) (s.enter t (.inside m (k (s.store.memory l)))) none
  | release {t : T} {m : μ} {a : α} (ht : s.thread t = .inside m (.ret a)) :
      Effect sys s (.run t)
        { s.enter t .idle with lock := Function.update s.lock (sys.object m) none }
        (some (m, a))

/-- **Every step has one of these effects.** -/
theorem step_effect (sys : System ι μ σ V α) (s : State T ι μ σ V α) (e : Action T μ V) :
    Effect sys s e (sys.threads.step s e).1 (sys.threads.step s e).2 := by
  show Effect sys s e (sys.step s e).1 (sys.step s e).2
  cases e with
  | write l v => exact .write l v
  | call t m =>
      cases ht : s.thread t with
      | idle =>
          simp only [System.step, ht]
          exact .call m ht
      | waiting m' =>
          simp only [System.step, ht]
          exact .busy m (by rw [ht]; nofun)
      | inside m' rest =>
          simp only [System.step, ht]
          exact .busy m (by rw [ht]; nofun)
  | run t =>
      cases ht : s.thread t with
      | idle =>
          simp only [System.step, System.runThread, ht]
          exact .blocked (by rw [ht]; nofun) (by rw [ht]; nofun)
      | waiting m =>
          cases hlock : s.lock (sys.object m) with
          | none =>
              simp only [System.step, System.runThread, ht, hlock]
              exact .acquire ht hlock
          | some t' =>
              simp only [System.step, System.runThread, ht, hlock]
              refine .blocked (by rw [ht]; nofun) fun m' hm' => ?_
              rw [ht, Local.waiting.injEq] at hm'
              rw [← hm', hlock]
              nofun
      | inside m rest =>
          cases rest with
          | ret a =>
              simp only [System.step, System.runThread, ht]
              exact .release ht
          | look k =>
              simp only [System.step, System.runThread, ht]
              exact .look ht
          | assign f k =>
              simp only [System.step, System.runThread, ht]
              exact .assign ht
          | load l k =>
              simp only [System.step, System.runThread, ht]
              exact .load ht

/-- The return from a method. -/
theorem step_return (sys : System ι μ σ V α) {s : State T ι μ σ V α} {t : T} {m : μ} {a : α}
    (ht : s.thread t = .inside m (.ret a)) :
    sys.threads.step s (.run t) =
      ({ s.enter t .idle with
        lock := Function.update s.lock (sys.object m) none }, some (m, a)) := by
  show sys.runThread s t = _
  simp only [System.runThread, ht]

/-- A step answers exactly when it returns from a method. -/
theorem step_returns_iff (sys : System ι μ σ V α) (s : State T ι μ σ V α) (e : Action T μ V)
    {m : μ} {a : α} :
    (sys.threads.step s e).2 = some (m, a) ↔ ∃ t, e = .run t ∧ s.thread t = .inside m (.ret a) := by
  constructor
  · intro hout
    have heffect := step_effect sys s e
    generalize sys.threads.step s e = r at heffect hout
    obtain ⟨s', out⟩ := r
    cases heffect with
    | @release t m' a' ht =>
        obtain ⟨rfl, rfl⟩ := Prod.mk.inj (Option.some.inj hout)
        exact ⟨t, rfl, ht⟩
    | _ => cases hout
  · rintro ⟨t, rfl, ht⟩
    rw [step_return sys ht]

/-! ## §4 — mutual exclusion. -/

/-- The method a thread is inside of. -/
def Local.section : Local μ σ V α → Option μ
  | .inside m _ => some m
  | _ => none

omit [DecidableEq T] [DecidableEq ι] [DecidableEq Loc] in
theorem inside_of_section {l : Local μ σ V α} {m : μ} (h : l.section = some m) :
    ∃ rest, l = .inside m rest := by
  cases l with
  | idle => cases h
  | waiting m => cases h
  | inside m' rest =>
      rw [Local.section, Option.some.injEq] at h
      exact ⟨rest, by rw [h]⟩

omit [DecidableEq ι] [DecidableEq Loc] in
theorem section_enter (s : State T ι μ σ V α) (t : T) (l : Local μ σ V α) (t' : T) :
    ((s.enter t l).thread t').section = if t' = t then l.section else (s.thread t').section := by
  by_cases h : t' = t
  · subst h
    rw [State.enter_self, if_pos rfl]
  · rw [State.enter_other s h, if_neg h]

/-- A thread owns the mutex of an object exactly while it is inside a method of the object. -/
structure System.Locked (sys : System ι μ σ V α) (s : State T ι μ σ V α) : Prop where
  owner_iff : ∀ i t, s.lock i = some t ↔ ∃ m, (s.thread t).section = some m ∧ sys.object m = i

omit [DecidableEq T] [DecidableEq ι] [DecidableEq Loc] in
theorem locked_started (sys : System ι μ σ V α) (store : Store ι σ V) :
    sys.Locked (started store : State T ι μ σ V α) := by
  refine ⟨fun i t => ?_⟩
  constructor
  · intro h
    exact absurd h (Option.some_ne_none t).symm
  · rintro ⟨m, h, _⟩
    exact absurd h (Option.some_ne_none m).symm

omit [DecidableEq T] [DecidableEq ι] [DecidableEq Loc] in
/-- Steps that keep owners and sections keep `Locked`. -/
theorem System.Locked.congr {sys : System ι μ σ V α} {s s' : State T ι μ σ V α} (h : sys.Locked s)
    (hlock : s'.lock = s.lock) (hsection : ∀ t, (s'.thread t).section = (s.thread t).section) :
    sys.Locked s' := by
  refine ⟨fun i t => ?_⟩
  rw [hlock, hsection]
  exact h.owner_iff i t

omit [DecidableEq ι] [DecidableEq Loc] in
/-- A step inside a section stays inside. -/
theorem section_inner {s : State T ι μ σ V α} {t : T} {m : μ} {rest : Body σ V α}
    (ht : s.thread t = .inside m rest) (rest' : Body σ V α) (t' : T) :
    ((s.enter t (.inside m rest')).thread t').section = (s.thread t').section := by
  rw [section_enter]
  split
  · next h => rw [h, ht]; rfl
  · rfl

theorem locked_step {sys : System ι μ σ V α} {s : State T ι μ σ V α} (h : sys.Locked s)
    (e : Action T μ V) : sys.Locked (sys.threads.step s e).1 := by
  have heffect := step_effect sys s e
  generalize sys.threads.step s e = r at heffect
  obtain ⟨s', out⟩ := r
  cases heffect with
  | write l v => exact h.congr rfl fun _ => rfl
  | busy m ht => exact h
  | @call t m ht =>
      refine h.congr rfl fun t' => (section_enter s t _ t').trans ?_
      split
      · next heq => rw [heq, ht]; rfl
      · rfl
  | blocked ht hlock => exact h
  | @acquire t m ht hlock =>
      have hout : (s.thread t).section = none := by rw [ht]; rfl
      refine ⟨fun i t' => ?_⟩
      show Function.update s.lock (sys.object m) (some t) i = some t' ↔
        ∃ m', ((s.enter t (.inside m (sys.body m))).thread t').section = some m' ∧ sys.object m' = i
      rw [section_enter]
      by_cases hi : i = sys.object m
      · subst hi
        rw [Function.update_self, Option.some.injEq]
        by_cases ht' : t' = t
        · subst ht'
          rw [if_pos rfl]
          exact ⟨fun _ => ⟨m, rfl, rfl⟩, fun _ => rfl⟩
        · -- the mutex was free, so no other thread is inside
          rw [if_neg ht', ← h.owner_iff, hlock]
          exact ⟨fun heq => absurd heq.symm ht', nofun⟩
      · rw [Function.update_of_ne hi, h.owner_iff]
        by_cases ht' : t' = t
        · subst ht'
          rw [if_pos rfl, hout]
          constructor
          · rintro ⟨m', hm', _⟩
            cases hm'
          · rintro ⟨m', hm', rfl⟩
            rw [Local.section, Option.some.injEq] at hm'
            exact absurd (congrArg sys.object hm'.symm) hi
        · rw [if_neg ht']
  | look ht => exact h.congr rfl (section_inner ht _)
  | assign ht => exact h.congr rfl (section_inner ht _)
  | load ht => exact h.congr rfl (section_inner ht _)
  | @release t m a ht =>
      have hin : (s.thread t).section = some m := by rw [ht]; rfl
      have howner : s.lock (sys.object m) = some t := (h.owner_iff _ t).mpr ⟨m, hin, rfl⟩
      refine ⟨fun i t' => ?_⟩
      show Function.update s.lock (sys.object m) none i = some t' ↔
        ∃ m', ((s.enter t .idle).thread t').section = some m' ∧ sys.object m' = i
      rw [section_enter]
      by_cases ht' : t' = t
      · subst ht'
        rw [if_pos rfl]
        constructor
        · intro hlock
          by_cases hi : i = sys.object m
          · rw [hi, Function.update_self] at hlock
            cases hlock
          · -- inside one method, a thread owns no second mutex
            rw [Function.update_of_ne hi] at hlock
            obtain ⟨m', hm', rfl⟩ := (h.owner_iff i t').mp hlock
            rw [hin, Option.some.injEq] at hm'
            exact absurd (congrArg sys.object hm'.symm) hi
        · rintro ⟨m', hm', _⟩
          cases hm'
      · rw [if_neg ht', ← h.owner_iff]
        by_cases hi : i = sys.object m
        · rw [hi, Function.update_self, howner, Option.some.injEq]
          exact ⟨nofun, fun heq => absurd heq.symm ht'⟩
        · rw [Function.update_of_ne hi]

/-- **Every run keeps the mutexes**: at any state a thread is inside a method exactly if it owns the
mutex. -/
theorem locked_run (sys : System ι μ σ V α) {s : State T ι μ σ V α} (h : sys.Locked s)
    (acts : List (Action T μ V)) : sys.Locked (sys.threads.run s acts) := by
  induction acts generalizing s with
  | nil => exact h
  | cons e acts ih => exact ih (locked_step h e)

omit [DecidableEq T] [DecidableEq ι] [DecidableEq Loc] in
/-- **Mutual exclusion.** -/
theorem System.Locked.exclusive {sys : System ι μ σ V α} {s : State T ι μ σ V α} (h : sys.Locked s)
    {t t' : T} {m m' : μ} (ht : (s.thread t).section = some m)
    (ht' : (s.thread t').section = some m') (hobject : sys.object m = sys.object m') : t = t' := by
  have howner : s.lock (sys.object m) = some t := (h.owner_iff _ t).mpr ⟨m, ht, rfl⟩
  have howner' : s.lock (sys.object m) = some t' := (h.owner_iff _ t').mpr ⟨m', ht', hobject.symm⟩
  exact Option.some.inj (howner.symm.trans howner')

omit [DecidableEq T] [DecidableEq ι] [DecidableEq Loc] in
/-- Two threads inside sections are at two objects. -/
theorem System.Locked.other_object {sys : System ι μ σ V α} {s : State T ι μ σ V α}
    (h : sys.Locked s) {t t' : T} {m m' : μ} {rest rest' : Body σ V α}
    (ht : s.thread t = .inside m rest) (ht' : s.thread t' = .inside m' rest') (hne : t' ≠ t) :
    sys.object m' ≠ sys.object m := by
  intro hobject
  have hin : (s.thread t).section = some m := by rw [ht]; rfl
  have hin' : (s.thread t').section = some m' := by rw [ht']; rfl
  exact hne (h.exclusive hin' hin hobject)

/-- Only a thread inside a method of the object changes its fields. -/
theorem changes_inside (sys : System ι μ σ V α) (s : State T ι μ σ V α) (e : Action T μ V) {i : ι}
    (hne : (sys.threads.step s e).1.store.objects i ≠ s.store.objects i) :
    ∃ t m, e = .run t ∧ (s.thread t).section = some m ∧ sys.object m = i := by
  have heffect := step_effect sys s e
  generalize sys.threads.step s e = r at heffect hne
  obtain ⟨s', out⟩ := r
  cases heffect with
  | @assign t m f k ht =>
      refine ⟨t, m, rfl, by rw [ht]; rfl, ?_⟩
      by_contra hi
      exact hne (Function.update_of_ne (Ne.symm hi) ..)
  | write l v => exact absurd rfl hne
  | busy m ht => exact absurd rfl hne
  | call m ht => exact absurd rfl hne
  | blocked ht hlock => exact absurd rfl hne
  | acquire ht hlock => exact absurd rfl hne
  | look ht => exact absurd rfl hne
  | load ht => exact absurd rfl hne
  | release ht => exact absurd rfl hne

/-- The method a thread has called and not returned from. -/
def Local.called : Local μ σ V α → Option μ
  | .idle => none
  | .waiting m => some m
  | .inside m _ => some m

/-- A thread is in the call it was in before the step, or the step was its call. -/
theorem called_step (sys : System ι μ σ V α) (s : State T ι μ σ V α) (e : Action T μ V) {t : T}
    {m : μ} (h : ((sys.threads.step s e).1.thread t).called = some m) :
    (s.thread t).called = some m ∨ e = .call t m := by
  have heffect := step_effect sys s e
  generalize sys.threads.step s e = r at heffect h
  obtain ⟨s', out⟩ := r
  -- one thread moves to `l`; the others stay in their calls
  have hmoved : ∀ (t' : T) (l : Local μ σ V α), ((s.enter t' l).thread t).called = some m →
      (s.thread t).called = some m ∨ t = t' ∧ l.called = some m := by
    intro t' l hcalled
    by_cases hne : t = t'
    · subst hne
      rw [State.enter_self] at hcalled
      exact Or.inr ⟨rfl, hcalled⟩
    · rw [State.enter_other s hne] at hcalled
      exact Or.inl hcalled
  -- inside its call the thread stays in the same one
  have hsame : ∀ {t' : T} {l : Local μ σ V α}, ((s.enter t' l).thread t).called = some m →
      (s.thread t').called = l.called → (s.thread t).called = some m := by
    intro t' l hcalled hl
    rcases hmoved t' l hcalled with hold | ⟨rfl, hnew⟩
    · exact hold
    · rw [hl, hnew]
  cases heffect with
  | write l v => exact Or.inl h
  | busy m' ht' => exact Or.inl h
  | @call t' m' ht' =>
      rcases hmoved t' _ h with hold | ⟨rfl, hnew⟩
      · exact Or.inl hold
      · rw [← Option.some.inj hnew]
        exact Or.inr rfl
  | blocked ht' hlock => exact Or.inl h
  | acquire ht' hlock => exact Or.inl (hsame h (by rw [ht']; rfl))
  | look ht' => exact Or.inl (hsame h (by rw [ht']; rfl))
  | assign ht' => exact Or.inl (hsame h (by rw [ht']; rfl))
  | load ht' => exact Or.inl (hsame h (by rw [ht']; rfl))
  | @release t' m' a ht' =>
      rcases hmoved t' _ h with hold | ⟨_, hnew⟩
      · exact Or.inl hold
      · cases hnew

/-! ## §5 — sections end. -/

omit [DecidableEq T] [DecidableEq ι] [DecidableEq Loc] in
/-- A body takes at least one step. -/
theorem Body.Within.succ {rest : Body σ V α} {n : ℕ} (h : rest.Within n) : ∃ k, n = k + 1 := by
  cases n with
  | zero => cases rest <;> exact absurd h id
  | succ n => exact ⟨n, rfl⟩

omit [DecidableEq T] [DecidableEq ι] [DecidableEq Loc] in
theorem Body.Within.mono {rest : Body σ V α} {n n' : ℕ} (h : rest.Within n) (hle : n ≤ n') :
    rest.Within n' := by
  induction rest generalizing n n' with
  | ret a =>
      obtain ⟨k, rfl⟩ := h.succ
      obtain ⟨j, rfl⟩ := Nat.exists_eq_succ_of_ne_zero (show n' ≠ 0 by omega)
      trivial
  | look k ih =>
      obtain ⟨i, rfl⟩ := h.succ
      obtain ⟨j, rfl⟩ := Nat.exists_eq_succ_of_ne_zero (show n' ≠ 0 by omega)
      exact fun s => ih s (h s) (by omega)
  | assign f k ih =>
      obtain ⟨i, rfl⟩ := h.succ
      obtain ⟨j, rfl⟩ := Nat.exists_eq_succ_of_ne_zero (show n' ≠ 0 by omega)
      have hk : k.Within i := h
      exact ih hk (by omega)
  | load l k ih =>
      obtain ⟨i, rfl⟩ := h.succ
      obtain ⟨j, rfl⟩ := Nat.exists_eq_succ_of_ne_zero (show n' ≠ 0 by omega)
      exact fun v => ih v (h v) (by omega)

/-- The action is a step of thread `t`. -/
def Action.runs (t : T) : Action T μ V → Bool
  | .run t' => decide (t' = t)
  | _ => false

/-- What any step does to a thread inside a bounded section: nothing, when it is not its own step;
else the section is one step shorter, or over. -/
theorem section_step (sys : System ι μ σ V α) {s : State T ι μ σ V α} {t : T} {m : μ}
    {rest : Body σ V α} {n : ℕ} (ht : s.thread t = .inside m rest) (hn : rest.Within n)
    (e : Action T μ V) :
    (e.runs t = false ∧ (sys.threads.step s e).1.thread t = .inside m rest) ∨
    (e.runs t = true ∧ ∃ rest' n', n = n' + 1 ∧
      (sys.threads.step s e).1.thread t = .inside m rest' ∧
      rest'.Within n') ∨
    (e.runs t = true ∧ (sys.threads.step s e).1.thread t = .idle ∧
      (sys.threads.step s e).1.lock (sys.object m) = none) := by
  have heffect := step_effect sys s e
  generalize sys.threads.step s e = r at heffect
  obtain ⟨s', out⟩ := r
  obtain ⟨n', rfl⟩ := hn.succ
  -- a step of another thread, which leaves this one where it is
  have hother : ∀ {t' : T} (l : Local μ σ V α), t' ≠ t →
      (Action.run t' : Action T μ V).runs t = false ∧ (s.enter t' l).thread t = .inside m rest := by
    intro t' l hne
    exact ⟨decide_eq_false hne, (State.enter_other s hne.symm l).trans ht⟩
  cases heffect with
  | write l v => exact Or.inl ⟨rfl, ht⟩
  | busy m' ht' => exact Or.inl ⟨rfl, ht⟩
  | @call t' m' ht' =>
      have hne : t ≠ t' := by rintro rfl; rw [ht] at ht'; cases ht'
      exact Or.inl ⟨rfl, (State.enter_other s hne _).trans ht⟩
  | @blocked t' ht' hlock =>
      have hne : t' ≠ t := by rintro rfl; exact ht' m rest ht
      exact Or.inl ⟨decide_eq_false hne, ht⟩
  | @acquire t' m' ht' hlock =>
      have hne : t' ≠ t := by rintro rfl; rw [ht] at ht'; cases ht'
      exact Or.inl (hother _ hne)
  | @look t' m' k ht' =>
      by_cases hne : t' = t
      · subst hne
        obtain ⟨rfl, rfl⟩ := Local.inside.inj (ht.symm.trans ht')
        exact Or.inr (Or.inl ⟨decide_eq_true rfl, _, n', rfl, State.enter_self .., hn _⟩)
      · exact Or.inl (hother _ hne)
  | @assign t' m' f k ht' =>
      by_cases hne : t' = t
      · subst hne
        obtain ⟨rfl, rfl⟩ := Local.inside.inj (ht.symm.trans ht')
        exact Or.inr (Or.inl ⟨decide_eq_true rfl, _, n', rfl, State.enter_self .., hn⟩)
      · exact Or.inl (hother _ hne)
  | @load t' m' l k ht' =>
      by_cases hne : t' = t
      · subst hne
        obtain ⟨rfl, rfl⟩ := Local.inside.inj (ht.symm.trans ht')
        exact Or.inr (Or.inl ⟨decide_eq_true rfl, _, n', rfl, State.enter_self .., hn _⟩)
      · exact Or.inl (hother _ hne)
  | @release t' m' a ht' =>
      by_cases hne : t' = t
      · subst hne
        obtain ⟨rfl, rfl⟩ := Local.inside.inj (ht.symm.trans ht')
        exact Or.inr (Or.inr ⟨decide_eq_true rfl, State.enter_self .., Function.update_self ..⟩)
      · exact Or.inl (hother _ hne)

/-- **Bounded sections end**: however its steps are interleaved with others, a thread inside a
section of at most `n` steps is out of it, and the mutex free, by its `n`-th step. -/
theorem leaves_section (sys : System ι μ σ V α) {s : State T ι μ σ V α} {t : T} {m : μ}
    {rest : Body σ V α} {n : ℕ} (ht : s.thread t = .inside m rest) (hn : rest.Within n)
    {acts : List (Action T μ V)} (hcount : n ≤ acts.countP (Action.runs t)) :
    ∃ pre post, acts = pre ++ post ∧ (sys.threads.run s pre).thread t = .idle ∧
      (sys.threads.run s pre).lock (sys.object m) = none := by
  induction acts generalizing s rest n with
  | nil =>
      obtain ⟨k, rfl⟩ := hn.succ
      simp at hcount
  | cons e acts ih =>
      rcases section_step sys ht hn e with
          ⟨hruns, ht'⟩ | ⟨hruns, rest', n', rfl, ht', hn'⟩ | ⟨hruns, hidle, hfree⟩
      · rw [List.countP_cons_of_neg (by rw [hruns]; exact Bool.false_ne_true)] at hcount
        obtain ⟨pre, post, rfl, hend⟩ := ih ht' hn hcount
        exact ⟨e :: pre, post, rfl, hend⟩
      · rw [List.countP_cons_of_pos hruns] at hcount
        obtain ⟨pre, post, rfl, hend⟩ := ih ht' hn' (by omega)
        exact ⟨e :: pre, post, rfl, hend⟩
      · exact ⟨[e], acts, rfl, hidle, hfree⟩

/-! ## §6 — no call is stuck. -/

/-- Every section still to be run takes at most `N` steps. -/
structure Bounded (N : ℕ) (s : State T ι μ σ V α) : Prop where
  within : ∀ t m rest, s.thread t = .inside m rest → rest.Within N

omit [DecidableEq T] [DecidableEq ι] [DecidableEq Loc] in
theorem bounded_started (N : ℕ) (store : Store ι σ V) :
    Bounded N (started store : State T ι μ σ V α) :=
  ⟨fun _ _ _ ht => by cases ht⟩

omit [DecidableEq ι] [DecidableEq Loc] in
theorem Bounded.enter {N : ℕ} {s : State T ι μ σ V α} (h : Bounded N s) (t : T) {l : Local μ σ V α}
    (hl : ∀ m rest, l = .inside m rest → rest.Within N) : Bounded N (s.enter t l) := by
  refine ⟨fun t' m rest ht' => ?_⟩
  by_cases hne : t' = t
  · subst hne
    rw [State.enter_self] at ht'
    exact hl m rest ht'
  · rw [State.enter_other s hne] at ht'
    exact h.within t' m rest ht'

omit [DecidableEq ι] [DecidableEq Loc] in
/-- The rest of a bounded section is bounded. -/
theorem Bounded.inner {N : ℕ} {s : State T ι μ σ V α} (h : Bounded N s) (t : T) (m : μ)
    {rest : Body σ V α} {k : ℕ} (hrest : rest.Within k) (hk : k ≤ N) :
    Bounded N (s.enter t (.inside m rest)) := by
  refine h.enter t fun m' rest' heq => ?_
  obtain ⟨rfl, rfl⟩ := Local.inside.inj heq
  exact hrest.mono hk

theorem bounded_step {sys : System ι μ σ V α} {N : ℕ} (hN : ∀ m, (sys.body m).Within N)
    {s : State T ι μ σ V α} (h : Bounded N s) (e : Action T μ V) :
    Bounded N (sys.threads.step s e).1 := by
  have heffect := step_effect sys s e
  generalize sys.threads.step s e = r at heffect
  obtain ⟨s', out⟩ := r
  cases heffect with
  | write l v => exact ⟨h.within⟩
  | busy m ht => exact h
  | @call t m ht => exact h.enter t nofun
  | blocked ht hlock => exact h
  | @acquire t m ht hlock => exact ⟨(h.inner t m (hN m) le_rfl).within⟩
  | @look t m k ht =>
      have hin := h.within t m _ ht
      obtain ⟨n, rfl⟩ := hin.succ
      exact h.inner t m (hin _) (by omega)
  | @assign t m f k ht =>
      have hin := h.within t m _ ht
      obtain ⟨n, rfl⟩ := hin.succ
      have hk : k.Within n := hin
      exact ⟨(h.inner t m hk (by omega)).within⟩
  | @load t m l k ht =>
      have hin := h.within t m _ ht
      obtain ⟨n, rfl⟩ := hin.succ
      exact h.inner t m (hin _) (by omega)
  | @release t m a ht => exact ⟨(h.enter t (l := .idle) nofun).within⟩

theorem bounded_run {sys : System ι μ σ V α} {N : ℕ} (hN : ∀ m, (sys.body m).Within N)
    {s : State T ι μ σ V α} (h : Bounded N s) (acts : List (Action T μ V)) :
    Bounded N (sys.threads.run s acts) := by
  induction acts generalizing s with
  | nil => exact h
  | cons e acts ih => exact ih (bounded_step hN h e)

/-- The steps of one thread leave the others where they are. -/
theorem run_other (sys : System ι μ σ V α) (s : State T ι μ σ V α) {t t' : T} (hne : t' ≠ t)
    (n : ℕ) : (sys.threads.run s (List.replicate n (.run t))).thread t' = s.thread t' := by
  induction n generalizing s with
  | zero => rfl
  | succ n ih =>
      rw [List.replicate_succ, Machine.run_cons, ih]
      have heffect := step_effect sys s (.run t)
      generalize sys.threads.step s (.run t) = r at heffect
      obtain ⟨s', out⟩ := r
      cases heffect with
      | blocked ht hlock => rfl
      | acquire ht hlock => exact State.enter_other s hne _
      | look ht => exact State.enter_other s hne _
      | assign ht => exact State.enter_other s hne _
      | load ht => exact State.enter_other s hne _
      | release ht => exact State.enter_other s hne _

/-- A thread inside a section of at most `N` steps returns when it runs alone. -/
theorem returns_alone (sys : System ι μ σ V α) {s : State T ι μ σ V α} {t : T} {m : μ}
    {rest : Body σ V α} {N : ℕ} (ht : s.thread t = .inside m rest) (hN : rest.Within N) :
    ∃ n ≤ N, (sys.threads.run s (List.replicate n (.run t))).thread t = .idle ∧
      (sys.threads.run s (List.replicate n (.run t))).lock (sys.object m) = none := by
  have hcount : N ≤ (List.replicate N (Action.run t : Action T μ V)).countP (Action.runs t) := by
    have hruns : (Action.run t : Action T μ V).runs t = true := decide_eq_true rfl
    rw [List.countP_replicate, if_pos hruns]
  obtain ⟨pre, post, hsplit, hidle, hfree⟩ := leaves_section sys ht hN hcount
  obtain ⟨hlen, hpre, _⟩ := List.replicate_eq_append_iff.mp hsplit
  refine ⟨pre.length, by omega, ?_⟩
  rw [← hpre]
  exact ⟨hidle, hfree⟩

/-- **No call is stuck**: whatever a thread is doing, its call returns after at most `2 * N + 1`
steps of its own and of the owner of the mutex it waits for; of its own only, if it waits for
none. -/
theorem call_returns {sys : System ι μ σ V α} {s : State T ι μ σ V α} (hlocked : sys.Locked s)
    {N : ℕ} (hN : ∀ m, (sys.body m).Within N) (hbounded : Bounded N s) (t : T) :
    ∃ (t' : T) (n n' : ℕ), n + n' ≤ 2 * N + 1 ∧
      (n' = 0 ∨ ∃ m, s.thread t = .waiting m ∧ s.lock (sys.object m) = some t') ∧
      (sys.threads.run s (List.replicate n' (.run t') ++ List.replicate n (.run t))).thread t
        = .idle := by
  -- once it waits for a free mutex, it enters and runs through
  have henter : ∀ {s : State T ι μ σ V α} {m : μ}, s.thread t = .waiting m →
      s.lock (sys.object m) = none →
      ∃ n ≤ N + 1, (sys.threads.run s (List.replicate n (.run t))).thread t = .idle := by
    intro s m ht hlock
    have hin : (sys.threads.step s (.run t)).1.thread t = .inside m (sys.body m) := by
      show (sys.runThread s t).1.thread t = _
      simp only [System.runThread, ht, hlock]
      exact State.enter_self ..
    obtain ⟨n, hn, hidle, _⟩ := returns_alone sys hin (hN m)
    exact ⟨n + 1, by omega, by rw [List.replicate_succ, Machine.run_cons]; exact hidle⟩
  cases ht : s.thread t with
  | idle => exact ⟨t, 0, 0, by omega, Or.inl rfl, ht⟩
  | inside m rest =>
      obtain ⟨n, hn, hidle, _⟩ := returns_alone sys ht (hbounded.within t m rest ht)
      exact ⟨t, n, 0, by omega, Or.inl rfl, hidle⟩
  | waiting m =>
      cases hlock : s.lock (sys.object m) with
      | none =>
          obtain ⟨n, hn, hidle⟩ := henter ht hlock
          exact ⟨t, n, 0, by omega, Or.inl rfl, hidle⟩
      | some t' =>
          obtain ⟨m', hm', hobject⟩ := (hlocked.owner_iff _ _).mp hlock
          obtain ⟨rest', ht'⟩ := inside_of_section hm'
          have hne : t ≠ t' := by rintro rfl; rw [ht] at ht'; cases ht'
          obtain ⟨n', hn', _, hfree⟩ := returns_alone sys ht' (hbounded.within t' m' rest' ht')
          rw [hobject] at hfree
          have hwaits := (run_other sys s hne n').trans ht
          obtain ⟨n, hn, hidle⟩ := henter hwaits hfree
          exact ⟨t', n, n', by omega, Or.inr ⟨m, rfl, hlock⟩,
            by rw [Machine.run_append]; exact hidle⟩

/-! ## §7 — a call that nothing interrupts. -/

/-- No thread is in a call, and the store is `b`. -/
structure Quiet (s : State T ι μ σ V α) (b : Store ι σ V) : Prop where
  store : s.store = b
  lock : ∀ i, s.lock i = none
  thread : ∀ t, s.thread t = .idle

omit [DecidableEq T] [DecidableEq ι] [DecidableEq Loc] in
theorem quiet_started (store : Store ι σ V) : Quiet (started store : State T ι μ σ V α) store :=
  ⟨rfl, fun _ => rfl, fun _ => rfl⟩

omit [DecidableEq T] [DecidableEq ι] [DecidableEq Loc] in
theorem inside_busy {s : State T ι μ σ V α} {t : T} {m : μ} {rest : Body σ V α}
    (ht : s.thread t = .inside m rest) : s.thread t ≠ .idle := by
  rw [ht]
  nofun

/-- A thread that is in a call, and is for `n` steps after its next one, is in it for `n + 1`
steps. -/
theorem busy_succ (sys : System ι μ σ V α) {s s' : State T ι μ σ V α} {t : T}
    (ht : s.thread t ≠ .idle) (hstep : sys.threads.step s (.run t) = (s', none)) {n : ℕ}
    (hbusy : ∀ k ≤ n, (sys.threads.run s' (List.replicate k (.run t))).thread t ≠ .idle) :
    ∀ k ≤ n + 1, (sys.threads.run s (List.replicate k (.run t))).thread t ≠ .idle := by
  intro k hk
  cases k with
  | zero => exact ht
  | succ k =>
      rw [List.replicate_succ, Machine.run_cons, hstep]
      exact hbusy k (by omega)

/-- A section that runs alone comes to its return with what its body leaves in one go. -/
theorem runs_to_return (sys : System ι μ σ V α) {s : State T ι μ σ V α} {t : T} {m : μ}
    {rest : Body σ V α} (ht : s.thread t = .inside m rest) :
    ∃ n, sys.threads.run s (List.replicate n (.run t)) =
        ⟨s.store.assign (sys.object m)
          (rest.exec (s.store.objects (sys.object m)) s.store.memory).1, s.lock,
          Function.update s.thread t
            (.inside m (.ret (rest.exec (s.store.objects (sys.object m)) s.store.memory).2))⟩ ∧
      ∀ k ≤ n, (sys.threads.run s (List.replicate k (.run t))).thread t ≠ .idle := by
  induction rest generalizing s with
  | ret a =>
      refine ⟨0, ?_, fun k hk => ?_⟩
      · rw [List.replicate_zero, Machine.run_nil, Body.exec, Store.assign, Function.update_eq_self,
          ← ht, Function.update_eq_self]
      · obtain rfl := Nat.le_zero.mp hk
        exact inside_busy ht
  | look k ih =>
      have hstep : sys.threads.step s (.run t) =
          (s.enter t (.inside m (k (s.store.objects (sys.object m)))), none) := by
        show sys.runThread s t = _
        simp only [System.runThread, ht]
      obtain ⟨n, hrun, hbusy⟩ := ih _ (State.enter_self s t _)
      refine ⟨n + 1, ?_, busy_succ sys (inside_busy ht) hstep hbusy⟩
      rw [List.replicate_succ, Machine.run_cons, hstep, hrun, State.enter, Function.update_idem]
      rfl
  | assign f k ih =>
      have hstep : sys.threads.step s (.run t) =
          ({ s.enter t (.inside m k) with
              store := s.store.assign (sys.object m) (f (s.store.objects (sys.object m))) },
            none) := by
        show sys.runThread s t = _
        simp only [System.runThread, ht]
      obtain ⟨n, hrun, hbusy⟩ := ih (s := { s.enter t (.inside m k) with
        store := s.store.assign (sys.object m) (f (s.store.objects (sys.object m))) })
        (State.enter_self s t _)
      have hfields :
          (s.store.assign (sys.object m) (f (s.store.objects (sys.object m)))).objects
              (sys.object m)
            = f (s.store.objects (sys.object m)) := Function.update_self ..
      refine ⟨n + 1, ?_, busy_succ sys (inside_busy ht) hstep hbusy⟩
      rw [List.replicate_succ, Machine.run_cons, hstep, hrun, State.enter, Function.update_idem,
        hfields]
      simp only [Store.assign, Function.update_idem]
      rfl
  | load l k ih =>
      have hstep : sys.threads.step s (.run t)
          = (s.enter t (.inside m (k (s.store.memory l))), none) := by
        show sys.runThread s t = _
        simp only [System.runThread, ht]
      obtain ⟨n, hrun, hbusy⟩ := ih _ (State.enter_self s t _)
      refine ⟨n + 1, ?_, busy_succ sys (inside_busy ht) hstep hbusy⟩
      rw [List.replicate_succ, Machine.run_cons, hstep, hrun, State.enter, Function.update_idem]
      rfl

/-- **A call that nothing interrupts** is one step of the atomic machine: it is on its way for `n`
steps of its thread, and the next one returns. -/
theorem call_alone (sys : System ι μ σ V α) {s : State T ι μ σ V α} {b : Store ι σ V}
    (h : Quiet s b) (t : T) (m : μ) :
    ∃ (n : ℕ) (a : α),
      (∀ k ≤ n, (sys.threads.run s (.call t m :: List.replicate k (.run t))).thread t ≠ .idle) ∧
      (sys.threads.run s (.call t m :: List.replicate n (.run t))).thread t = .inside m (.ret a) ∧
      Quiet
        (sys.threads.step (sys.threads.run s (.call t m :: List.replicate n (.run t))) (.run t)).1
        (sys.whole b m).1 ∧
      (sys.whole b m).2 = some (m, a) := by
  obtain ⟨rfl, hlock, hthread⟩ := h
  have hcall : sys.threads.step s (.call t m) = (s.enter t (.waiting m), none) := by
    show sys.step s (.call t m) = _
    simp only [System.step, hthread]
  have henter : sys.threads.step (s.enter t (.waiting m)) (.run t) =
      ({ (s.enter t (.waiting m)).enter t (.inside m (sys.body m)) with
        lock := Function.update s.lock (sys.object m) (some t) }, none) := by
    show sys.runThread _ t = _
    have hfree : (s.enter t (.waiting m)).lock (sys.object m) = none := hlock _
    simp only [System.runThread, State.enter_self, hfree]
    rfl
  obtain ⟨n, hrun, hbusy⟩ := runs_to_return sys
    (s := { (s.enter t (.waiting m)).enter t (.inside m (sys.body m)) with
      lock := Function.update s.lock (sys.object m) (some t) })
    (State.enter_self _ t (.inside m (sys.body m)))
  refine ⟨n + 1, ((sys.body m).exec (s.store.objects (sys.object m)) s.store.memory).2,
    fun k hk => ?_, ?_, ?_, rfl⟩
  · rw [Machine.run_cons, hcall]
    cases k with
    | zero =>
        show (s.enter t (.waiting m)).thread t ≠ .idle
        rw [State.enter_self]
        nofun
    | succ k =>
        rw [List.replicate_succ, Machine.run_cons, henter]
        exact hbusy k (by omega)
  · rw [List.replicate_succ, Machine.run_cons, hcall, Machine.run_cons, henter, hrun]
    exact Function.update_self ..
  · rw [List.replicate_succ, Machine.run_cons, hcall, Machine.run_cons, henter, hrun,
      step_return sys (m := m) (Function.update_self ..)]
    refine ⟨rfl, fun i => ?_, fun t' => ?_⟩
    · show Function.update (Function.update s.lock _ _) _ _ i = none
      rw [Function.update_idem]
      by_cases hi : i = sys.object m
      · rw [hi, Function.update_self]
      · rw [Function.update_of_ne hi]
        exact hlock i
    · by_cases ht' : t' = t
      · rw [ht']
        exact Function.update_self ..
      · have hother := ((s.enter t (.waiting m)).enter_other ht' (.inside m (sys.body m))).trans
          (s.enter_other ht' (.waiting m))
        exact ((Function.update_of_ne ht' ..).trans (Function.update_of_ne ht' ..)).trans
          (hother.trans (hthread t'))

end Machines

end NinjaVision.Lib.Critical
