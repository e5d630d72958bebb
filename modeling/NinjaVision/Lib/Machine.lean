/-
# NinjaVision.Lib.Machine — machines that answer every input, their runs and histories.

A machine takes an input in a state and gives the next state and an answer. `run` is the state after
a list of inputs and `trace` the list of inputs with their answers. What holds in every reachable
state, together with the history that led there, is proved by one rule, `history_invariant`: it
holds of the start with no history, and every step keeps it.

Two runs are compared by one rule each for the two ways they can differ: `lockstep`, when their
inputs are alike one by one, and `erase`, when one of them leaves out inputs that the other has.
-/
import Mathlib.Data.List.Forall2
import Mathlib.Data.List.Induction

namespace NinjaVision.Lib

/-- An entry of a history with one more entry at its end is that entry, or stands in what came
before. -/
theorem concat_split {α : Type*} {h pre post : List α} {e e' : α}
    (heq : h ++ [e] = pre ++ e' :: post) :
    (post = [] ∧ pre = h ∧ e' = e) ∨ ∃ post', post = post' ++ [e] ∧ h = pre ++ e' :: post' := by
  rcases List.eq_nil_or_concat post with rfl | ⟨post', x, rfl⟩
  · obtain ⟨rfl, he⟩ := List.append_inj' heq rfl
    exact Or.inl ⟨rfl, rfl, (List.singleton_inj.mp he).symm⟩
  · have hsplit : h ++ [e] = (pre ++ e' :: post') ++ [x] := by rw [heq]; simp
    obtain ⟨rfl, hx⟩ := List.append_inj' hsplit rfl
    obtain rfl := List.singleton_inj.mp hx
    exact Or.inr ⟨post', by simp, rfl⟩

/-- A list of positive length has a last entry. -/
theorem exists_concat {α : Type*} {l : List α} {n : ℕ} (h : l.length = n + 1) :
    ∃ pre e, l = pre ++ [e] ∧ pre.length = n := by
  rcases List.eq_nil_or_concat l with rfl | ⟨pre, e, rfl⟩
  · simp at h
  · exact ⟨pre, e, by simp, by simpa using h⟩

/-- A deterministic machine: one step consumes an input and gives an answer. -/
structure Machine (σ ι ο : Type*) where
  step : σ → ι → σ × ο

namespace Machine

variable {σ ι ο : Type*} (m : Machine σ ι ο)

/-- The state after a list of inputs. -/
def run : σ → List ι → σ
  | s, [] => s
  | s, i :: is => run (m.step s i).1 is

/-- The inputs of a run with the answers they got. -/
def trace : σ → List ι → List (ι × ο)
  | _, [] => []
  | s, i :: is => (i, (m.step s i).2) :: trace (m.step s i).1 is

@[simp] theorem run_nil (s : σ) : m.run s [] = s := rfl

@[simp] theorem run_cons (s : σ) (i : ι) (is : List ι) :
    m.run s (i :: is) = m.run (m.step s i).1 is := rfl

@[simp] theorem trace_nil (s : σ) : m.trace s [] = [] := rfl

@[simp] theorem trace_cons (s : σ) (i : ι) (is : List ι) :
    m.trace s (i :: is) = (i, (m.step s i).2) :: m.trace (m.step s i).1 is := rfl

theorem run_append (s : σ) (is js : List ι) : m.run s (is ++ js) = m.run (m.run s is) js := by
  induction is generalizing s with
  | nil => rfl
  | cons i is ih => exact ih (m.step s i).1

theorem run_concat (s : σ) (is : List ι) (i : ι) :
    m.run s (is ++ [i]) = (m.step (m.run s is) i).1 := by
  rw [run_append]; rfl

theorem trace_append (s : σ) (is js : List ι) :
    m.trace s (is ++ js) = m.trace s is ++ m.trace (m.run s is) js := by
  induction is generalizing s with
  | nil => rfl
  | cons i is ih => exact congrArg _ (ih (m.step s i).1)

theorem trace_concat (s : σ) (is : List ι) (i : ι) :
    m.trace s (is ++ [i]) = m.trace s is ++ [(i, (m.step (m.run s is) i).2)] := by
  rw [trace_append]; rfl

/-- **The invariant rule**: a property of state and history that holds at the start and is kept by
every step holds after every run. -/
theorem history_invariant {s₀ : σ} (I : σ → List (ι × ο) → Prop) (hinit : I s₀ [])
    (hstep : ∀ s h i, I s h → I (m.step s i).1 (h ++ [(i, (m.step s i).2)])) (is : List ι) :
    I (m.run s₀ is) (m.trace s₀ is) := by
  induction is using List.reverseRecOn with
  | nil => exact hinit
  | append_singleton is i ih =>
      rw [run_concat, trace_concat]
      exact hstep _ _ i ih

/-- **The lockstep rule**: when alike steps in related states give related states and show the same,
then so do runs over inputs that are alike one by one. -/
theorem lockstep {β : Type*} {R : σ → σ → Prop} {Alike : ι → ι → Prop} {seen : ο → List β}
    (hstep : ∀ s s' i i', R s s' → Alike i i' →
      R (m.step s i).1 (m.step s' i').1 ∧ seen (m.step s i).2 = seen (m.step s' i').2)
    {s s' : σ} (h : R s s') {is is' : List ι} (hinputs : List.Forall₂ Alike is is') :
    R (m.run s is) (m.run s' is') ∧
      (m.trace s is).flatMap (fun e => seen e.2) = (m.trace s' is').flatMap fun e => seen e.2 := by
  induction hinputs generalizing s s' with
  | nil => exact ⟨h, rfl⟩
  | cons hi _ ih =>
      obtain ⟨hnext, hseen⟩ := hstep _ _ _ _ h hi
      obtain ⟨hrun, hlater⟩ := ih hnext
      refine ⟨hrun, ?_⟩
      rw [trace_cons, trace_cons, List.flatMap_cons, List.flatMap_cons, hseen, hlater]

/-- **The erasure rule**: when the inputs that are not kept do nothing that the relation sees, and
the others do the same on both sides, then a run and the run without them agree on all that is
kept. -/
theorem erase {R : σ → σ → Prop} {keep : ι → Bool}
    (hskip : ∀ s s' i, R s s' → keep i = false → R (m.step s i).1 s')
    (hstep : ∀ s s' i, R s s' → keep i = true →
      R (m.step s i).1 (m.step s' i).1 ∧ (m.step s i).2 = (m.step s' i).2)
    {s s' : σ} (h : R s s') (is : List ι) :
    R (m.run s is) (m.run s' (is.filter keep)) ∧
      (m.trace s is).filter (fun e => keep e.1) = m.trace s' (is.filter keep) := by
  induction is generalizing s s' with
  | nil => exact ⟨h, rfl⟩
  | cons i is ih =>
      cases hi : keep i with
      | false =>
          rw [List.filter_cons_of_neg (by simp [hi]), trace_cons,
            List.filter_cons_of_neg (by simp [hi])]
          exact ih (hskip s s' i h hi)
      | true =>
          obtain ⟨hnext, hanswer⟩ := hstep s s' i h hi
          rw [List.filter_cons_of_pos hi, trace_cons, List.filter_cons_of_pos (by simp [hi]),
            trace_cons, hanswer, (ih hnext).2]
          exact ⟨(ih hnext).1, rfl⟩

end Machine

end NinjaVision.Lib
