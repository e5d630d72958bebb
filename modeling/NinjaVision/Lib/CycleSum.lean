/-
# NinjaVision.Lib.CycleSum — sums over the consecutive pairs of a closed list.

A list `[a₀, …, aₙ₋₁]` read as a cycle has the consecutive pairs `(a₀,a₁), …, (aₙ₋₁,a₀)`.
`cycleSum f` adds `f` over them. The three laws a closed sum obeys are here: the start of the cycle
does not matter (`cycleSum_rotated`), walking it backwards flips the arguments of `f`
(`cycleSum_reverse`), and a summand that is a difference of end values telescopes to nothing
(`cycleSum_telescope`).

The second half is about cycles as relations (Mathlib's `Cycle.Chain`): two duplicate-free cycles
that follow one functional successor relation and meet in a point are rotations of each other.
-/
import Mathlib.Algebra.Group.Basic
import Mathlib.Data.List.Cycle
import Mathlib.Tactic.Abel
import Mathlib.Tactic.Ring

namespace NinjaVision.Lib

variable {α β M : Type*}

/-! ## §1 — open chains. -/

/-- The sum of `f` over the consecutive pairs of `a :: l`. -/
def chainSum [AddCommMonoid M] (f : α → α → M) : α → List α → M
  | _, [] => 0
  | a, b :: l => f a b + chainSum f b l

@[simp] theorem chainSum_nil [AddCommMonoid M] (f : α → α → M) (a : α) : chainSum f a [] = 0 := rfl

@[simp] theorem chainSum_cons [AddCommMonoid M] (f : α → α → M) (a b : α) (l : List α) :
    chainSum f a (b :: l) = f a b + chainSum f b l := rfl

/-- A chain may be summed in two parts, up to one of its points and on from there. -/
theorem chainSum_append [AddCommMonoid M] (f : α → α → M) (a b : α) (l l' : List α) :
    chainSum f a (l ++ b :: l') = chainSum f a (l ++ [b]) + chainSum f b l' := by
  induction l generalizing a with
  | nil => simp
  | cons x l ih => simp only [List.cons_append, chainSum_cons, ih, add_assoc]

theorem chainSum_concat [AddCommMonoid M] (f : α → α → M) (a b c : α) (l : List α) :
    chainSum f a (l ++ [b, c]) = chainSum f a (l ++ [b]) + f b c := by
  rw [chainSum_append, chainSum_cons, chainSum_nil, add_zero]

/-- Walking a chain from its other end flips the arguments of the summand. -/
theorem chainSum_reverse [AddCommMonoid M] (f : α → α → M) (a b : α) (l : List α) :
    chainSum f b (l.reverse ++ [a]) = chainSum (fun x y => f y x) a (l ++ [b]) := by
  induction l generalizing a with
  | nil => simp
  | cons x l ih =>
      have hsplit : (x :: l).reverse ++ [a] = l.reverse ++ [x, a] := by simp
      rw [hsplit, chainSum_concat, ih x, List.cons_append, chainSum_cons, add_comm]

theorem chainSum_map [AddCommMonoid M] (f : β → β → M) (g : α → β) (a : α) (l : List α) :
    chainSum f (g a) (l.map g) = chainSum (fun x y => f (g x) (g y)) a l := by
  induction l generalizing a with
  | nil => rfl
  | cons x l ih => simp only [List.map_cons, chainSum_cons, ih]

theorem chainSum_add [AddCommMonoid M] (f g : α → α → M) (a : α) (l : List α) :
    chainSum (fun x y => f x y + g x y) a l = chainSum f a l + chainSum g a l := by
  induction l generalizing a with
  | nil => simp
  | cons x l ih =>
      simp only [chainSum_cons, ih]
      exact add_add_add_comm _ _ _ _

/-- A chain of differences leaves only its two ends. -/
theorem chainSum_telescope [AddCommGroup M] (g : α → M) (a b : α) (l : List α) :
    chainSum (fun x y => g y - g x) a (l ++ [b]) = g b - g a := by
  induction l generalizing a with
  | nil => simp
  | cons x l ih =>
      rw [List.cons_append, chainSum_cons, ih]
      abel

theorem chainSum_eq_zero [AddCommMonoid M] {f : α → α → M} {s : List α}
    (h : ∀ x ∈ s, ∀ y ∈ s, f x y = 0) :
    ∀ {a : α} {l : List α}, a ∈ s → (∀ x ∈ l, x ∈ s) → chainSum f a l = 0
  | _, [], _, _ => rfl
  | a, b :: l, ha, hl => by
      have hb : b ∈ s := hl b (by simp)
      rw [chainSum_cons, h a ha b hb,
        chainSum_eq_zero h hb (fun x hx => hl x (List.mem_cons_of_mem _ hx)), add_zero]

/-! ## §2 — closed chains. -/

/-- The sum of `f` over the consecutive pairs of a closed list, the pair from the last element back
to the first included. -/
def cycleSum [AddCommMonoid M] (f : α → α → M) : List α → M
  | [] => 0
  | a :: l => chainSum f a (l ++ [a])

@[simp] theorem cycleSum_nil [AddCommMonoid M] (f : α → α → M) : cycleSum f [] = 0 := rfl

theorem cycleSum_cons [AddCommMonoid M] (f : α → α → M) (a : α) (l : List α) :
    cycleSum f (a :: l) = chainSum f a (l ++ [a]) := rfl

/-- A loop that starts with the last element as "previous" adds the closed sum. -/
theorem chainSum_getLast [AddCommMonoid M] (f : α → α → M) (a : α) (l : List α) :
    chainSum f ((a :: l).getLast (by simp)) (a :: l) = cycleSum f (a :: l) := by
  rcases List.eq_nil_or_concat l with rfl | ⟨l', b, rfl⟩
  · simp [cycleSum_cons]
  · have hlast : (a :: l'.concat b).getLast (by simp) = b := by simp
    have hclosed : l'.concat b ++ [a] = l' ++ [b, a] := by simp
    rw [hlast, cycleSum_cons, hclosed, chainSum_concat, chainSum_cons, List.concat_eq_append,
      add_comm]

theorem cycleSum_rotate_one [AddCommMonoid M] (f : α → α → M) (l : List α) :
    cycleSum f (l.rotate 1) = cycleSum f l := by
  match l with
  | [] => simp
  | [a] => simp
  | a :: b :: l =>
      rw [List.rotate_cons_succ, List.rotate_zero, List.cons_append, cycleSum_cons, cycleSum_cons,
        List.append_assoc]
      show chainSum f b (l ++ [a, b]) = _
      rw [chainSum_concat, List.cons_append, chainSum_cons, add_comm]

/-- **The start does not matter**: a closed sum is the same over every rotation. -/
theorem cycleSum_rotated [AddCommMonoid M] (f : α → α → M) {l l' : List α} (h : l ~r l') :
    cycleSum f l = cycleSum f l' := by
  obtain ⟨n, rfl⟩ := h
  induction n with
  | zero => rw [List.rotate_zero]
  | succ n ih => rw [← List.rotate_rotate, cycleSum_rotate_one, ih]

/-- A cycle read backwards from the same point. -/
theorem reverse_cons_rotated (a : α) (l : List α) : (a :: l).reverse ~r a :: l.reverse := by
  rw [List.reverse_cons]
  exact List.isRotated_concat a l.reverse

/-- **Backwards**: reversing the cycle flips the arguments of the summand. -/
theorem cycleSum_reverse [AddCommMonoid M] (f : α → α → M) (l : List α) :
    cycleSum f l.reverse = cycleSum (fun x y => f y x) l := by
  cases l with
  | nil => rfl
  | cons a l =>
      rw [cycleSum_rotated f (reverse_cons_rotated a l), cycleSum_cons, cycleSum_cons,
        chainSum_reverse]

theorem cycleSum_map [AddCommMonoid M] (f : β → β → M) (g : α → β) (l : List α) :
    cycleSum f (l.map g) = cycleSum (fun x y => f (g x) (g y)) l := by
  cases l with
  | nil => rfl
  | cons a l =>
      have hmap : l.map g ++ [g a] = (l ++ [a]).map g := by simp
      rw [List.map_cons, cycleSum_cons, hmap, chainSum_map, cycleSum_cons]

theorem cycleSum_add [AddCommMonoid M] (f g : α → α → M) (l : List α) :
    cycleSum (fun x y => f x y + g x y) l = cycleSum f l + cycleSum g l := by
  cases l with
  | nil => simp
  | cons a l => exact chainSum_add f g a _

/-- **Telescoping**: a closed sum of differences vanishes. -/
theorem cycleSum_telescope [AddCommGroup M] (g : α → M) (l : List α) :
    cycleSum (fun x y => g y - g x) l = 0 := by
  cases l with
  | nil => rfl
  | cons a l => rw [cycleSum_cons, chainSum_telescope, sub_self]

/-- Summands that differ by a difference of end values have the same closed sum. -/
theorem cycleSum_congr_telescope [AddCommGroup M] {f f' : α → α → M} (g : α → M)
    (h : ∀ x y, f x y = f' x y + (g y - g x)) (l : List α) : cycleSum f l = cycleSum f' l := by
  have hf : f = fun x y => f' x y + (g y - g x) := funext fun x => funext fun y => h x y
  rw [hf, cycleSum_add, cycleSum_telescope, add_zero]

theorem cycleSum_eq_zero [AddCommMonoid M] {f : α → α → M} {l : List α}
    (h : ∀ x ∈ l, ∀ y ∈ l, f x y = 0) : cycleSum f l = 0 := by
  cases l with
  | nil => rfl
  | cons a l =>
      refine chainSum_eq_zero h (List.mem_cons_self) fun x hx => ?_
      rcases List.mem_append.mp hx with hx | hx
      · exact List.mem_cons_of_mem _ hx
      · exact List.mem_singleton.mp hx ▸ List.mem_cons_self

theorem cycleSum_mul_left {R : Type*} [CommRing R] (c : R) (f : α → α → R) (l : List α) :
    cycleSum (fun x y => c * f x y) l = c * cycleSum f l := by
  have hchain : ∀ (a : α) (l : List α),
      chainSum (fun x y => c * f x y) a l = c * chainSum f a l := by
    intro a l
    induction l generalizing a with
    | nil => simp
    | cons x l ih => simp only [chainSum_cons, ih, mul_add]
  cases l with
  | nil => simp
  | cons a l => exact hchain a _

/-! ## §3 — cycles that follow a functional successor relation. -/

/-- Two chains from one point back to `a` that follow a functional relation and avoid `a` on the way
are equal. The induction walks both lists at once. -/
theorem chain_unique {R : α → α → Prop} (hR : ∀ x y z, R x y → R x z → y = z) {a : α} :
    ∀ {c : α} {l l' : List α}, List.IsChain R (c :: (l ++ [a])) →
      List.IsChain R (c :: (l' ++ [a])) →
      a ∉ l → a ∉ l' → l = l'
  | _, [], [], _, _, _, _ => rfl
  | c, [], y :: l', h, h', _, ha' => by
      -- one walk is back at `a` while the other goes on: its next point is `a` too, which it avoids
      have hy : a = y := hR c a y (List.isChain_cons_cons.mp h).1 (List.isChain_cons_cons.mp h').1
      exact absurd (hy ▸ List.mem_cons_self) ha'
  | c, x :: l, [], h, h', ha, _ => by
      have hx : a = x := hR c a x (List.isChain_cons_cons.mp h').1 (List.isChain_cons_cons.mp h).1
      exact absurd (hx ▸ List.mem_cons_self) ha
  | c, x :: l, y :: l', h, h', ha, ha' => by
      obtain ⟨hcx, hl⟩ := List.isChain_cons_cons.mp h
      obtain ⟨hcy, hl'⟩ := List.isChain_cons_cons.mp h'
      obtain rfl := hR c x y hcx hcy
      rw [chain_unique hR hl hl' (fun hm => ha (List.mem_cons_of_mem _ hm))
        (fun hm => ha' (List.mem_cons_of_mem _ hm))]

/-- Every element of a list can be rotated to its front. -/
theorem rotated_cons_of_mem {a : α} {l : List α} (h : a ∈ l) : ∃ t, l ~r a :: t := by
  obtain ⟨s, t, rfl⟩ := List.append_of_mem h
  have hrot : s ++ a :: t ~r a :: t ++ s := List.isRotated_append
  exact ⟨t ++ s, hrot⟩

/-- **One functional successor, one cycle**: duplicate-free cycles that follow the same functional
relation and share a point are rotations of each other. -/
theorem cycle_unique {R : α → α → Prop} (hR : ∀ x y z, R x y → R x z → y = z) {l l' : List α}
    (hl : Cycle.Chain R l) (hl' : Cycle.Chain R l') (hn : l.Nodup) (hn' : l'.Nodup)
    {a : α} (ha : a ∈ l) (ha' : a ∈ l') : l ~r l' := by
  obtain ⟨t, ht⟩ := rotated_cons_of_mem ha
  obtain ⟨t', ht'⟩ := rotated_cons_of_mem ha'
  rw [Cycle.coe_eq_coe.mpr ht, Cycle.chain_coe_cons] at hl
  rw [Cycle.coe_eq_coe.mpr ht', Cycle.chain_coe_cons] at hl'
  have hat : a ∉ t := (List.nodup_cons.mp (ht.nodup_iff.mp hn)).1
  have hat' : a ∉ t' := (List.nodup_cons.mp (ht'.nodup_iff.mp hn')).1
  have htt : t = t' := chain_unique hR hl hl' hat hat'
  exact ht.trans (htt ▸ ht'.symm)

/-- Every point of a cycle that follows `R` has a successor and a predecessor on it. -/
theorem cycle_neighbours {R : α → α → Prop} {l : List α} (hl : Cycle.Chain R l) {a : α}
    (ha : a ∈ l) : (∃ b ∈ l, R a b) ∧ ∃ b ∈ l, R b a := by
  obtain ⟨t, ht⟩ := rotated_cons_of_mem ha
  rw [Cycle.coe_eq_coe.mpr ht, Cycle.chain_coe_cons] at hl
  refine ⟨?_, ?_⟩
  · cases t with
    | nil => exact ⟨a, ha, (List.isChain_cons_cons.mp hl).1⟩
    | cons b t =>
        exact ⟨b, ht.mem_iff.mpr (by simp), (List.isChain_cons_cons.mp hl).1⟩
  · rcases List.eq_nil_or_concat t with rfl | ⟨t', b, rfl⟩
    · exact ⟨a, ha, (List.isChain_cons_cons.mp hl).1⟩
    · have hsplit : a :: (t'.concat b ++ [a]) = (a :: t') ++ b :: [a] := by simp
      rw [hsplit, List.isChain_append_cons_cons] at hl
      exact ⟨b, ht.mem_iff.mpr (by simp), hl.2.1⟩

theorem cycle_chain_map {R : β → β → Prop} (f : α → β) {l : List α} :
    Cycle.Chain R (l.map f : List β) ↔ Cycle.Chain (fun x y => R (f x) (f y)) (l : Cycle α) := by
  rw [← Cycle.map_coe, Cycle.chain_map]

/-- A cycle that follows `R` follows the flipped relation when it is read backwards. -/
theorem cycle_chain_reverse {R : α → α → Prop} {l : List α} :
    Cycle.Chain R (l.reverse : List α) ↔ Cycle.Chain (fun x y => R y x) (l : Cycle α) := by
  cases l with
  | nil => rfl
  | cons a l =>
      have hrev : a :: (l.reverse ++ [a]) = (a :: (l ++ [a])).reverse := by simp
      rw [Cycle.coe_eq_coe.mpr (reverse_cons_rotated a l), Cycle.chain_coe_cons,
        Cycle.chain_coe_cons, hrev, List.isChain_reverse]

end NinjaVision.Lib
