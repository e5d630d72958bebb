/-
# NinjaVision.Lib.Planar — signed areas and convex hulls of planar point lists.

Points over an ordered commutative ring, with the two bilinear forms everything is read from:
`cross` (twice the signed area of a triangle) and `dot`. `twiceArea` is the shoelace sum of a closed
list.

A list is the **hull cycle** of a point set when it is duplicate free and each of its closing pairs
is a hull edge: every point of the set lies strictly to the left of the edge or on the edge itself.
That is the textbook description of "the hull vertices in cyclic order", and it is met in the
degenerate cases too (one point, a segment). Two facts carry the rest:

* `HullCycle.rotated` — a point set has only one hull cycle, up to the start vertex; so the hull
  *area* is a function of the set (`IsHull.abs_twiceArea_eq`), whatever list an algorithm returns;
* `IsHull.map` — a rigid map, orientation preserving or not, takes a hull to a hull, and
  `twiceArea_map` takes the area along.

The uniqueness proof finds a common vertex first: the lexicographically least vertex of a hull cycle
is the least point of the whole set. From there the hull edge relation is functional.
-/
import NinjaVision.Lib.CycleSum
import Mathlib.Algebra.Order.Ring.Abs
import Mathlib.Data.Set.Image
import Mathlib.Tactic.Linarith
import Mathlib.Tactic.LinearCombination

namespace NinjaVision.Lib

/-! ## §1 — points and the two forms. -/

/-- A point of the plane over `K`. -/
@[ext] structure Point (K : Type*) where
  x : K
  y : K
  deriving DecidableEq, Repr

variable {K : Type*}

section Forms

variable [CommRing K]

/-- Determinant of two position vectors: one summand of the shoelace formula. -/
def det (p q : Point K) : K := p.x * q.y - p.y * q.x

/-- Twice the signed area of the triangle `o a b`; positive when `b` lies to the left of `o → a`. -/
def cross (o a b : Point K) : K := (a.x - o.x) * (b.y - o.y) - (a.y - o.y) * (b.x - o.x)

/-- Scalar product of `a - o` and `b - o`. -/
def dot (o a b : Point K) : K := (a.x - o.x) * (b.x - o.x) + (a.y - o.y) * (b.y - o.y)

theorem cross_swap (o a b : Point K) : cross o b a = -cross o a b := by
  unfold cross; ring

theorem cross_flip (a b p : Point K) : cross b a p = -cross a b p := by
  unfold cross; ring

theorem cross_cyclic (a b p : Point K) : cross a b p = cross b p a := by
  unfold cross; ring

theorem dot_comm (o a b : Point K) : dot o b a = dot o a b := by
  unfold dot; ring

@[simp] theorem cross_left_self (o b : Point K) : cross o o b = 0 := by
  unfold cross; ring

/-- The shoelace sum of a closed vertex list: twice its signed area. -/
def twiceArea (l : List (Point K)) : K := cycleSum det l

/-- The shoelace sum may be taken about any origin. -/
theorem twiceArea_eq_cross (o : Point K) (l : List (Point K)) :
    twiceArea l = cycleSum (cross o) l :=
  cycleSum_congr_telescope (fun p => det o p) (fun a b => by unfold det cross; ring) l

theorem twiceArea_rotated {l l' : List (Point K)} (h : l ~r l') : twiceArea l = twiceArea l' :=
  cycleSum_rotated det h

theorem twiceArea_reverse (l : List (Point K)) : twiceArea l.reverse = -twiceArea l := by
  have hflip : (fun a b : Point K => det b a) = fun a b => (-1) * det a b := by
    funext a b
    unfold det; ring
  rw [twiceArea, cycleSum_reverse, hflip, cycleSum_mul_left, neg_one_mul, twiceArea]

/-- A closed list whose points are all on one line has no area. -/
theorem twiceArea_collinear {l : List (Point K)}
    (h : ∀ o ∈ l, ∀ a ∈ l, ∀ b ∈ l, cross o a b = 0) : twiceArea l = 0 := by
  cases l with
  | nil => rfl
  | cons o t =>
      rw [twiceArea_eq_cross o]
      exact cycleSum_eq_zero (h o List.mem_cons_self)

/-! ## §2 — rigid maps. -/

/-- A rigid map: it keeps scalar products, and keeps (`σ = 1`) or flips (`σ = -1`) orientation. -/
structure Rigid (f : Point K → Point K) (σ : K) : Prop where
  unit : σ = 1 ∨ σ = -1
  injective : Function.Injective f
  cross : ∀ a b p, cross (f a) (f b) (f p) = σ * cross a b p
  dot : ∀ o a b, dot (f o) (f a) (f b) = dot o a b

/-- A rigid map scales the shoelace sum by its sign. -/
theorem twiceArea_map {f : Point K → Point K} {σ : K} (hf : Rigid f σ) (l : List (Point K)) :
    twiceArea (l.map f) = σ * twiceArea l := by
  cases l with
  | nil => simp [twiceArea]
  | cons o t =>
      have hcross : (fun a b => Lib.cross (f o) (f a) (f b)) = fun a b => σ * Lib.cross o a b :=
        funext fun a => funext fun b => hf.cross o a b
      rw [twiceArea_eq_cross (f o), cycleSum_map, hcross, cycleSum_mul_left, ← twiceArea_eq_cross]

/-- Translation by `(dx, dy)`. -/
def translate (dx dy : K) (p : Point K) : Point K := ⟨p.x + dx, p.y + dy⟩

/-- Reflection in the vertical line that exchanges the columns `0` and `m`. -/
def reflect (m : K) (p : Point K) : Point K := ⟨m - p.x, p.y⟩

/-- Reflection in the horizontal line that exchanges the rows `0` and `m`. -/
def flipRows (m : K) (p : Point K) : Point K := ⟨p.x, m - p.y⟩

theorem translate_rigid (dx dy : K) : Rigid (translate dx dy) (1 : K) where
  unit := Or.inl rfl
  injective p q h := by
    simp only [translate, Point.mk.injEq, add_left_inj] at h
    exact Point.ext h.1 h.2
  cross a b p := by simp only [Lib.cross, translate]; ring
  dot o a b := by simp only [Lib.dot, translate]; ring

theorem reflect_rigid (m : K) : Rigid (reflect m) (-1 : K) where
  unit := Or.inr rfl
  injective p q h := by
    simp only [reflect, Point.mk.injEq, sub_right_inj] at h
    exact Point.ext h.1 h.2
  cross a b p := by simp only [Lib.cross, reflect]; ring
  dot o a b := by simp only [Lib.dot, reflect]; ring

theorem flipRows_rigid (m : K) : Rigid (flipRows m) (-1 : K) where
  unit := Or.inr rfl
  injective p q h := by
    simp only [flipRows, Point.mk.injEq, sub_right_inj] at h
    exact Point.ext h.1 h.2
  cross a b p := by simp only [Lib.cross, flipRows]; ring
  dot o a b := by simp only [Lib.dot, flipRows]; ring

end Forms

/-! ## §3 — the lexicographic order. -/

section Lex

variable [LinearOrder K]

/-- Column first, then row. -/
def LexLe (p q : Point K) : Prop := p.x < q.x ∨ p.x = q.x ∧ p.y ≤ q.y

theorem LexLe.total (p q : Point K) : LexLe p q ∨ LexLe q p := by
  rcases lt_trichotomy p.x q.x with h | h | h
  · exact Or.inl (Or.inl h)
  · rcases le_total p.y q.y with hy | hy
    · exact Or.inl (Or.inr ⟨h, hy⟩)
    · exact Or.inr (Or.inr ⟨h.symm, hy⟩)
  · exact Or.inr (Or.inl h)

theorem LexLe.trans {p q r : Point K} (hpq : LexLe p q) (hqr : LexLe q r) : LexLe p r := by
  rcases hpq with h | ⟨hx, hy⟩
  · rcases hqr with h' | ⟨hx', _⟩
    · exact Or.inl (h.trans h')
    · exact Or.inl (hx' ▸ h)
  · rcases hqr with h' | ⟨hx', hy'⟩
    · exact Or.inl (hx ▸ h')
    · exact Or.inr ⟨hx.trans hx', hy.trans hy'⟩

theorem LexLe.antisymm {p q : Point K} (hpq : LexLe p q) (hqp : LexLe q p) : p = q := by
  rcases hpq with h | ⟨hx, hy⟩
  · rcases hqp with h' | ⟨hx', _⟩
    · exact absurd (h.trans h') (lt_irrefl _)
    · exact absurd h (hx' ▸ lt_irrefl _)
  · rcases hqp with h' | ⟨_, hy'⟩
    · exact absurd h' (hx ▸ lt_irrefl _)
    · exact Point.ext hx (le_antisymm hy hy')

/-- Every nonempty list has a lexicographically least element. -/
theorem exists_lexLeast : ∀ {l : List (Point K)}, l ≠ [] → ∃ v ∈ l, ∀ u ∈ l, LexLe v u
  | [], h => absurd rfl h
  | [a], _ => ⟨a, by simp, fun u hu => List.mem_singleton.mp hu ▸ Or.inr ⟨rfl, le_rfl⟩⟩
  | a :: b :: l, _ => by
      obtain ⟨v, hv, hmin⟩ := exists_lexLeast (List.cons_ne_nil b l)
      rcases LexLe.total a v with h | h
      · refine ⟨a, by simp, fun u hu => ?_⟩
        rcases List.mem_cons.mp hu with rfl | hu
        · exact Or.inr ⟨rfl, le_rfl⟩
        · exact h.trans (hmin u hu)
      · refine ⟨v, List.mem_cons_of_mem _ hv, fun u hu => ?_⟩
        rcases List.mem_cons.mp hu with rfl | hu
        · exact h
        · exact hmin u hu

end Lex

/-! ## §4 — hull cycles. -/

variable [CommRing K] [LinearOrder K]

/-- The point `p` lies on the closed segment from `a` to `b`: on their line, and not outside the
disk over the segment. -/
def OnSegment (a b p : Point K) : Prop := cross a b p = 0 ∧ dot p a b ≤ 0

instance (a b p : Point K) : Decidable (OnSegment a b p) :=
  inferInstanceAs (Decidable (cross a b p = 0 ∧ dot p a b ≤ 0))

/-- `a → b` is a hull edge of `S`: both ends belong to `S`, and every point of `S` lies strictly to
the left of the edge or on it. -/
structure HullEdge (S : Set (Point K)) (a b : Point K) : Prop where
  source_mem : a ∈ S
  target_mem : b ∈ S
  support : ∀ p ∈ S, 0 < cross a b p ∨ OnSegment a b p

/-- The vertices of the hull of `S`, each once, in the order in which its edges follow each
other. -/
structure HullCycle (S : Set (Point K)) (H : List (Point K)) : Prop where
  nonempty : S.Nonempty → H ≠ []
  nodup : H.Nodup
  edges : Cycle.Chain (HullEdge S) (H : Cycle (Point K))

/-- `H` lists the hull vertices of `S` in cyclic order, from any start and in either direction. -/
def IsHull (S : Set (Point K)) (H : List (Point K)) : Prop := HullCycle S H ∨ HullCycle S H.reverse

/-- A hull cycle written out from its first vertex, in a form that evaluates. -/
theorem hullCycle_cons {S : Set (Point K)} {a : Point K} {t : List (Point K)}
    (hn : (a :: t).Nodup) (he : List.IsChain (HullEdge S) (a :: (t ++ [a]))) :
    HullCycle S (a :: t) where
  nonempty _ := by simp
  nodup := hn
  edges := (Cycle.chain_coe_cons _ _ _).mpr he

theorem HullCycle.eq_nil {H : List (Point K)} (hH : HullCycle (∅ : Set (Point K)) H) : H = [] := by
  cases H with
  | nil => rfl
  | cons a t =>
      exact absurd (cycle_neighbours hH.edges List.mem_cons_self).1.choose_spec.2.source_mem id

theorem OnSegment.symm {a b p : Point K} (h : OnSegment a b p) : OnSegment b a p := by
  refine ⟨?_, ?_⟩
  · rw [cross_flip, h.1, neg_zero]
  · rw [dot_comm]; exact h.2

/-! ## §5 — hulls move with rigid maps. -/

theorem OnSegment.map {f : Point K → Point K} {σ : K} (hf : Rigid f σ) {a b p : Point K}
    (h : OnSegment a b p) : OnSegment (f a) (f b) (f p) := by
  refine ⟨?_, ?_⟩
  · rw [hf.cross, h.1, mul_zero]
  · rw [hf.dot]; exact h.2

theorem HullEdge.map {S : Set (Point K)} {f : Point K → Point K} (hf : Rigid f 1) {a b : Point K}
    (h : HullEdge S a b) : HullEdge (f '' S) (f a) (f b) where
  source_mem := Set.mem_image_of_mem f h.source_mem
  target_mem := Set.mem_image_of_mem f h.target_mem
  support := by
    rintro _ ⟨p, hp, rfl⟩
    rw [hf.cross, one_mul]
    exact (h.support p hp).imp_right (OnSegment.map hf)

/-- An orientation flipping map turns hull edges around. -/
theorem HullEdge.map_flip {S : Set (Point K)} {f : Point K → Point K} (hf : Rigid f (-1))
    {a b : Point K} (h : HullEdge S a b) : HullEdge (f '' S) (f b) (f a) where
  source_mem := Set.mem_image_of_mem f h.target_mem
  target_mem := Set.mem_image_of_mem f h.source_mem
  support := by
    rintro _ ⟨p, hp, rfl⟩
    rw [cross_flip, hf.cross, neg_one_mul, neg_neg]
    exact (h.support p hp).imp_right fun hseg => (hseg.map hf).symm

theorem HullCycle.map {S : Set (Point K)} {H : List (Point K)} {f : Point K → Point K}
    (hf : Rigid f 1) (h : HullCycle S H) : HullCycle (f '' S) (H.map f) where
  nonempty hne := by simpa using h.nonempty (Set.image_nonempty.mp hne)
  nodup := h.nodup.map hf.injective
  edges := (cycle_chain_map f).mpr (h.edges.imp fun _ _ hab => hab.map hf)

theorem HullCycle.map_flip {S : Set (Point K)} {H : List (Point K)} {f : Point K → Point K}
    (hf : Rigid f (-1)) (h : HullCycle S H) : HullCycle (f '' S) (H.map f).reverse where
  nonempty hne := by simpa using h.nonempty (Set.image_nonempty.mp hne)
  nodup := List.nodup_reverse.mpr (h.nodup.map hf.injective)
  edges := by
    rw [cycle_chain_reverse, cycle_chain_map]
    exact h.edges.imp fun _ _ hab => hab.map_flip hf

/-- **Hulls move with the point set** under every rigid map. -/
theorem IsHull.map {S : Set (Point K)} {H : List (Point K)} {f : Point K → Point K} {σ : K}
    (hf : Rigid f σ) (h : IsHull S H) : IsHull (f '' S) (H.map f) := by
  rcases hf.unit with rfl | rfl
  · rcases h with h | h
    · exact Or.inl (h.map hf)
    · exact Or.inr (List.map_reverse ▸ h.map hf)
  · rcases h with h | h
    · exact Or.inr (h.map_flip hf)
    · have hrev : H.map f = (H.reverse.map f).reverse := by
        rw [List.map_reverse, List.reverse_reverse]
      exact Or.inl (hrev ▸ h.map_flip hf)

/-! ## §6 — the successor of a hull vertex. -/

section Unique

variable [IsStrictOrderedRing K]

/-- Each of two points lies on the segment from `a` to the other only when they are equal: the sum
of the two scalar products is the square of their distance. -/
theorem eq_of_onSegment {a b c : Point K} (h : OnSegment a b c) (h' : OnSegment a c b) : b = c := by
  have hdot := h.2
  have hdot' := h'.2
  unfold dot at hdot hdot'
  have hx := mul_self_nonneg (b.x - c.x)
  have hy := mul_self_nonneg (b.y - c.y)
  have hsum : (b.x - c.x) * (b.x - c.x) + (b.y - c.y) * (b.y - c.y) ≤ 0 := by linarith
  have hx0 : (b.x - c.x) * (b.x - c.x) = 0 := by linarith
  have hy0 : (b.y - c.y) * (b.y - c.y) = 0 := by linarith
  exact Point.ext (sub_eq_zero.mp (mul_self_eq_zero.mp hx0))
    (sub_eq_zero.mp (mul_self_eq_zero.mp hy0))

/-- **The hull edge relation is functional**: a vertex has one successor. -/
theorem HullEdge.unique {S : Set (Point K)} (a b c : Point K) (hb : HullEdge S a b)
    (hc : HullEdge S a c) : b = c := by
  -- if one of `b`, `c` were strictly left of the edge to the other, the other would be strictly
  -- right
  have hcb := hb.support c hc.target_mem
  have hbc := hc.support b hb.target_mem
  have hneg : cross a c b = -cross a b c := cross_swap a b c
  rcases hcb with hcb | hcb
  · rcases hbc with hbc | hbc
    · exact absurd (hneg ▸ hbc) (by linarith)
    · exact absurd (hneg ▸ hbc.1) (by linarith)
  · rcases hbc with hbc | hbc
    · rw [hneg, hcb.1, neg_zero] at hbc
      exact absurd hbc (lt_irrefl 0)
    · exact eq_of_onSegment hcb hbc

/-! ## §7 — the lexicographically least vertex. -/

/-- A vector strictly in the lexicographic half plane. -/
def LexPos (x y : K) : Prop := 0 < x ∨ x = 0 ∧ 0 < y

/-- A vector in the closed lexicographic half plane. -/
def LexNonneg (x y : K) : Prop := 0 < x ∨ x = 0 ∧ 0 ≤ y

theorem lexNonneg_sub {p q : Point K} (h : LexLe p q) : LexNonneg (q.x - p.x) (q.y - p.y) := by
  rcases h with h | ⟨hx, hy⟩
  · exact Or.inl (sub_pos.mpr h)
  · exact Or.inr ⟨by rw [hx, sub_self], sub_nonneg.mpr hy⟩

theorem lexPos_sub {p q : Point K} (h : ¬ LexLe q p) : LexPos (q.x - p.x) (q.y - p.y) := by
  unfold LexLe at h
  rcases lt_trichotomy p.x q.x with hx | hx | hx
  · exact Or.inl (sub_pos.mpr hx)
  · have hy : ¬ q.y ≤ p.y := fun hy => h (Or.inr ⟨hx.symm, hy⟩)
    exact Or.inr ⟨by rw [hx, sub_self], sub_pos.mpr (not_le.mp hy)⟩
  · exact absurd (Or.inl hx) h

/-- Parallel vectors of the lexicographic half plane point the same way. -/
theorem dot_nonneg_of_parallel {qx qy rx ry : K} (hq : LexPos qx qy) (hr : LexNonneg rx ry)
    (hpar : qx * ry - qy * rx = 0) : 0 ≤ qx * rx + qy * ry := by
  rcases hq with hq | ⟨rfl, hq⟩
  · have hrx : 0 ≤ rx := by
      rcases hr with hr | ⟨rfl, _⟩
      · exact hr.le
      · exact le_rfl
    -- `r` is `rx / qx` times `q`, so the product has the sign of `rx`
    have hkey : qx * (qx * rx + qy * ry) = rx * (qx * qx + qy * qy) := by
      linear_combination qy * hpar
    have hnonneg : 0 ≤ qx * (qx * rx + qy * ry) := by
      rw [hkey]
      exact mul_nonneg hrx (add_nonneg (mul_self_nonneg _) (mul_self_nonneg _))
    exact nonneg_of_mul_nonneg_right hnonneg hq
  · have hrx : rx = 0 := by
      have hmul : qy * rx = 0 := by linarith
      exact (mul_eq_zero.mp hmul).resolve_left hq.ne'
    have hry : 0 ≤ ry := by
      rcases hr with hr | ⟨_, hr⟩
      · exact absurd hrx hr.ne'
      · exact hr
    rw [hrx, mul_zero, zero_add]
    exact mul_nonneg hq.le hry

/-- Turning is transitive in the lexicographic half plane: from `s` left to `q` and from `q` left to
`r` is left from `s` to `r`. -/
theorem turn_trans {qx qy rx ry sx sy : K} (hq : LexPos qx qy) (hr : LexNonneg rx ry)
    (hs : LexNonneg sx sy) (hsq : 0 < sx * qy - sy * qx) (hqr : 0 < qx * ry - qy * rx) :
    0 < sx * ry - sy * rx := by
  have hrx : 0 ≤ rx := by
    rcases hr with hr | ⟨rfl, _⟩
    · exact hr.le
    · exact le_rfl
  rcases hq with hq | ⟨rfl, hq⟩
  · have hsx : 0 < sx := by
      rcases hs with hs | ⟨rfl, hs⟩
      · exact hs
      · have := mul_nonneg hs hq.le
        exact absurd hsq (by linarith)
    -- times `qx`, the turn from `s` to `r` is a combination of the two given turns
    have hkey : qx * (sx * ry - sy * rx) = sx * (qx * ry - qy * rx) + rx * (sx * qy - sy * qx) := by
      ring
    have hpos : 0 < qx * (sx * ry - sy * rx) := by
      rw [hkey]
      exact add_pos_of_pos_of_nonneg (mul_pos hsx hqr) (mul_nonneg hrx hsq.le)
    exact (mul_pos_iff_of_pos_left hq).mp hpos
  · have := mul_nonneg hq.le hrx
    exact absurd hqr (by linarith)

/-- A point lexicographically below both ends of a segment is not on it. -/
theorem not_onSegment_of_lex {v w p : Point K} (hvw : LexLe v w) (hp : ¬ LexLe v p) :
    ¬ OnSegment v w p := by
  rintro ⟨hcross, hdot⟩
  have hq := lexPos_sub hp
  have hr := lexNonneg_sub hvw
  have hpar : (v.x - p.x) * (w.y - v.y) - (v.y - p.y) * (w.x - v.x) = 0 := by
    unfold cross at hcross
    linear_combination hcross
  have hnn := dot_nonneg_of_parallel hq hr hpar
  have hsq : 0 < (v.x - p.x) * (v.x - p.x) + (v.y - p.y) * (v.y - p.y) := by
    rcases hq with hq | ⟨_, hq⟩
    · exact add_pos_of_pos_of_nonneg (mul_pos hq hq) (mul_self_nonneg _)
    · exact add_pos_of_nonneg_of_pos (mul_self_nonneg _) (mul_pos hq hq)
  unfold dot at hdot
  linarith

/-- **The least vertex of a hull cycle is the least point of the set.** A smaller point would lie
strictly left of both edges at that vertex, which puts the predecessor to the right of the outgoing
edge. -/
theorem HullCycle.lexLeast {S : Set (Point K)} {H : List (Point K)} (hH : HullCycle S H)
    {v : Point K} (hv : v ∈ H) (hmin : ∀ u ∈ H, LexLe v u) : ∀ p ∈ S, LexLe v p := by
  intro p hp
  by_contra hlt
  obtain ⟨⟨w, hw, hvw⟩, u, hu, huv⟩ := cycle_neighbours hH.edges hv
  have hleft : 0 < cross v w p :=
    (hvw.support p hp).resolve_right (not_onSegment_of_lex (hmin w hw) hlt)
  have hleft' : 0 < cross u v p :=
    (huv.support p hp).resolve_right fun h => not_onSegment_of_lex (hmin u hu) hlt h.symm
  -- with `q` the vector from `p` to `v`, the predecessor turns left to `q` and `q` left to the
  -- successor
  have hturn : 0 < (u.x - v.x) * (w.y - v.y) - (u.y - v.y) * (w.x - v.x) := by
    refine turn_trans (lexPos_sub hlt) (lexNonneg_sub (hmin w hw)) (lexNonneg_sub (hmin u hu)) ?_ ?_
    · unfold cross at hleft'; linarith
    · unfold cross at hleft; linarith
  have hright : cross v w u < 0 := by
    unfold cross; linarith
  rcases hvw.support u huv.source_mem with h | h
  · exact absurd (h.trans hright) (lt_irrefl 0)
  · exact absurd h.1 hright.ne

/-! ## §8 — a point set has one hull. -/

/-- **Hull cycles are unique up to the start vertex.** -/
theorem HullCycle.rotated {S : Set (Point K)} {H H' : List (Point K)} (hH : HullCycle S H)
    (hH' : HullCycle S H') (hne : S.Nonempty) : H ~r H' := by
  obtain ⟨v, hv, hmin⟩ := exists_lexLeast (hH.nonempty hne)
  obtain ⟨v', hv', hmin'⟩ := exists_lexLeast (hH'.nonempty hne)
  have hvS : v ∈ S := (cycle_neighbours hH.edges hv).1.choose_spec.2.source_mem
  have hvS' : v' ∈ S := (cycle_neighbours hH'.edges hv').1.choose_spec.2.source_mem
  have hvv : v = v' := LexLe.antisymm (hH.lexLeast hv hmin v' hvS') (hH'.lexLeast hv' hmin' v hvS)
  exact cycle_unique HullEdge.unique hH.edges hH'.edges hH.nodup hH'.nodup hv (hvv ▸ hv')

theorem HullCycle.twiceArea_eq {S : Set (Point K)} {H H' : List (Point K)} (hH : HullCycle S H)
    (hH' : HullCycle S H') : twiceArea H = twiceArea H' := by
  rcases S.eq_empty_or_nonempty with rfl | hne
  · rw [hH.eq_nil, hH'.eq_nil]
  · exact twiceArea_rotated (hH.rotated hH' hne)

/-- **The hull area is a function of the point set**: any two lists of its hull vertices in cyclic
order have the same absolute shoelace sum. -/
theorem IsHull.abs_twiceArea_eq {S : Set (Point K)} {H H' : List (Point K)} (hH : IsHull S H)
    (hH' : IsHull S H') : |twiceArea H| = |twiceArea H'| := by
  rcases hH with hH | hH <;> rcases hH' with hH' | hH' <;> have h := hH.twiceArea_eq hH'
  · rw [h]
  · rw [h, twiceArea_reverse, abs_neg]
  · rw [← h, twiceArea_reverse, abs_neg]
  · rw [twiceArea_reverse, twiceArea_reverse, neg_inj] at h
    rw [h]

/-! ## §9 — the hull of a box. -/

/-- **The hull of a set that fills a box at its corners** is the cycle of the four corners: every
point inside lies left of each side, or on it. -/
theorem hullCycle_corners {S : Set (Point K)} {x₀ y₀ x₁ y₁ : K} (hx : x₀ < x₁) (hy : y₀ < y₁)
    (h₀₀ : ⟨x₀, y₀⟩ ∈ S) (h₁₀ : ⟨x₁, y₀⟩ ∈ S) (h₁₁ : ⟨x₁, y₁⟩ ∈ S) (h₀₁ : ⟨x₀, y₁⟩ ∈ S)
    (hbox : ∀ p ∈ S, x₀ ≤ p.x ∧ p.x ≤ x₁ ∧ y₀ ≤ p.y ∧ p.y ≤ y₁) :
    HullCycle S [⟨x₀, y₀⟩, ⟨x₁, y₀⟩, ⟨x₁, y₁⟩, ⟨x₀, y₁⟩] := by
  have hw : 0 < x₁ - x₀ := sub_pos.mpr hx
  have hh : 0 < y₁ - y₀ := sub_pos.mpr hy
  refine hullCycle_cons ?_ ?_
  · simp [hx.ne, hx.ne', hy.ne]
  · simp only [List.cons_append, List.nil_append, List.isChain_cons_cons, List.isChain_singleton,
      and_true]
    refine ⟨⟨h₀₀, h₁₀, ?_⟩, ⟨h₁₀, h₁₁, ?_⟩, ⟨h₁₁, h₀₁, ?_⟩, ⟨h₀₁, h₀₀, ?_⟩⟩
    all_goals
      intro p hp
      obtain ⟨hl, hr, ht, hb⟩ := hbox p hp
      have hlr := mul_nonneg (sub_nonneg.mpr hl) (sub_nonneg.mpr hr)
      have htb := mul_nonneg (sub_nonneg.mpr ht) (sub_nonneg.mpr hb)
      -- the cross product at a side is its length times the distance to it; `hlr`, `htb` place a
      -- point on it
      unfold OnSegment cross dot
    · rcases ht.eq_or_lt with he | hlt
      · right; constructor <;> simp only [← he] <;> linarith
      · left; have := mul_pos hw (sub_pos.mpr hlt); simp only; linarith
    · rcases hr.eq_or_lt with he | hlt
      · right; constructor <;> simp only [he] <;> linarith
      · left; have := mul_pos hh (sub_pos.mpr hlt); simp only; linarith
    · rcases hb.eq_or_lt with he | hlt
      · right; constructor <;> simp only [he] <;> linarith
      · left; have := mul_pos hw (sub_pos.mpr hlt); simp only; linarith
    · rcases hl.eq_or_lt with he | hlt
      · right; constructor <;> simp only [← he] <;> linarith
      · left; have := mul_pos hh (sub_pos.mpr hlt); simp only; linarith

end Unique

end NinjaVision.Lib
