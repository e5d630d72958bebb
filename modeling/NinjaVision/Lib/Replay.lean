/-
# NinjaVision.Lib.Replay — a sequence that starts over.

`replay f ms` is the first `m` values of `f`, for one `m` of the list after the other: what a
generator gives that is restarted from the same seed. `isChain_replay_iff` says when a relation
holds from each value to the next: inside each stretch, and from the end of each nonempty stretch
but the last back to `f 0`.
-/
import Mathlib.Data.List.Chain
import Mathlib.Data.List.Range

namespace NinjaVision.Lib

variable {α : Type*}

/-- The first `m` values of `f`, for each `m` in turn. -/
def replay (f : ℕ → α) (ms : List ℕ) : List α := ms.flatMap fun m => (List.range m).map f

@[simp] theorem replay_nil (f : ℕ → α) : replay f [] = [] := rfl

@[simp] theorem replay_cons (f : ℕ → α) (m : ℕ) (ms : List ℕ) :
    replay f (m :: ms) = (List.range m).map f ++ replay f ms := rfl

/-- Empty stretches leave no trace. -/
theorem replay_filter (f : ℕ → α) (ms : List ℕ) : replay f (ms.filter (0 < ·)) = replay f ms := by
  induction ms with
  | nil => rfl
  | cons m ms ih =>
      by_cases hm : 0 < m
      · rw [List.filter_cons_of_pos (by simpa using hm), replay_cons, replay_cons, ih]
      · obtain rfl : m = 0 := by omega
        rw [List.filter_cons_of_neg (by simp), replay_cons, ih]
        rfl

theorem head?_replay_cons (f : ℕ → α) {m : ℕ} (hm : 0 < m) (ms : List ℕ) :
    (replay f (m :: ms)).head? = some (f 0) := by
  obtain ⟨k, rfl⟩ := Nat.exists_eq_succ_of_ne_zero hm.ne'
  rw [replay_cons, List.range_succ_eq_map]
  rfl

/-- A replay is empty, or starts with the first value. -/
theorem head?_replay (f : ℕ → α) (ms : List ℕ) :
    (replay f ms).head? = if ∃ m ∈ ms, 0 < m then some (f 0) else none := by
  induction ms with
  | nil => simp
  | cons m ms ih =>
      by_cases hm : 0 < m
      · rw [head?_replay_cons f hm, if_pos ⟨m, List.mem_cons_self, hm⟩]
      · obtain rfl : m = 0 := by omega
        rw [replay_cons, List.range_zero, List.map_nil, List.nil_append, ih]
        simp

theorem replay_ne_nil_iff (f : ℕ → α) (ms : List ℕ) : replay f ms ≠ [] ↔ ∃ m ∈ ms, 0 < m := by
  rw [ne_eq, ← List.head?_eq_none_iff, head?_replay]
  split
  · next h => simpa using h
  · next h => simpa using h

theorem getLast?_stretch (f : ℕ → α) {m : ℕ} (hm : 0 < m) :
    ((List.range m).map f).getLast? = some (f (m - 1)) := by
  obtain ⟨k, rfl⟩ := Nat.exists_eq_succ_of_ne_zero hm.ne'
  rw [List.range_succ, List.map_append, List.map_singleton, List.getLast?_concat]
  rfl

theorem isChain_stretch_iff (R : α → α → Prop) (f : ℕ → α) (m : ℕ) :
    List.IsChain R ((List.range m).map f) ↔ ∀ k, k + 1 < m → R (f k) (f (k + 1)) := by
  rw [List.isChain_map, List.isChain_range]
  constructor
  · intro h k hk
    exact h k (by omega)
  · intro h k hk
    exact h k (by omega)

/-- The chain over nonempty stretches: inside each, and from each but the last to the start. -/
theorem isChain_replay_of_pos (R : α → α → Prop) (f : ℕ → α) {ms : List ℕ}
    (hpos : ∀ m ∈ ms, 0 < m) :
    List.IsChain R (replay f ms) ↔
      (∀ m ∈ ms, ∀ k, k + 1 < m → R (f k) (f (k + 1))) ∧
        ∀ m ∈ ms.dropLast, R (f (m - 1)) (f 0) := by
  induction ms with
  | nil => simp
  | cons m ms ih =>
      have hm := hpos m List.mem_cons_self
      rw [replay_cons, List.isChain_append, isChain_stretch_iff,
        ih fun n hn => hpos n (List.mem_cons_of_mem _ hn), getLast?_stretch f hm]
      cases ms with
      | nil => simp
      | cons m' ms =>
          -- the next stretch is nonempty, so it is `f 0` that follows the end of this one
          rw [head?_replay_cons f (hpos m' (by simp)), List.dropLast_cons_cons]
          simp only [Option.mem_some_iff, forall_eq', List.forall_mem_cons]
          exact ⟨fun ⟨h, ⟨h', hd⟩, hr⟩ => ⟨⟨h, h'⟩, hr, hd⟩,
            fun ⟨⟨h, h'⟩, hr, hd⟩ => ⟨h, ⟨h', hd⟩, hr⟩⟩

/-- **When a relation holds from each value of a replay to the next.** -/
theorem isChain_replay_iff (R : α → α → Prop) (f : ℕ → α) (ms : List ℕ) :
    List.IsChain R (replay f ms) ↔ (∀ m ∈ ms, ∀ k, k + 1 < m → R (f k) (f (k + 1))) ∧
      ∀ m ∈ (ms.filter (0 < ·)).dropLast, R (f (m - 1)) (f 0) := by
  rw [← replay_filter,
    isChain_replay_of_pos R f fun m hm => by simpa using (List.mem_filter.mp hm).2]
  refine and_congr_left fun _ => ?_
  constructor
  · intro h m hm k hk
    exact h m (List.mem_filter.mpr ⟨hm, by simp; omega⟩) k hk
  · intro h m hm
    exact h m (List.mem_filter.mp hm).1

end NinjaVision.Lib
