/-
# NinjaVision.Lib.HullExists — every finite point set has a hull cycle.

The hull edges are followed from the lexicographically least point. A vertex `b` that all other
points lie beyond, seen from some `a`, is a `Corner`, and so is where a hull edge arrives
(`HullEdge.corner`). From a corner all other points are in one half plane, so turning orders them:
`Sweep b p q`, `q` lies left of the ray from `b` through `p` or on it no further than `p`. This is
total and transitive (`Beyond.total`, `Beyond.trans`), the first point of the sweep is the end of a
hull edge (`Corner.exists_edge`), and no two corners have an edge to the same point
(`HullEdge.source_unique`). So the successor is an injection of the finite set of corners, and its
orbit closes.
-/
import NinjaVision.Lib.HullBounds
import Mathlib.Data.Set.Finite.Basic
import Mathlib.Dynamics.PeriodicPts.Lemmas

namespace NinjaVision.Lib

variable {K : Type*} [CommRing K] [LinearOrder K] [IsStrictOrderedRing K]

/-! ## §1 — what lies beyond a vertex. -/

/-- Arriving at `b` from `a`, the point `p` is on the left, or straight behind. -/
def Beyond (a b p : Point K) : Prop := LexPos (cross a b p) (dot b a p)

omit [IsStrictOrderedRing K] in
theorem Beyond.ne {a b p : Point K} (h : Beyond a b p) : a ≠ b := by
  rintro rfl
  have hcross : cross a a p = 0 := cross_left_self a p
  have hdot : dot a a p = 0 := by unfold dot; ring
  unfold Beyond LexPos at h
  rw [hcross, hdot] at h
  rcases h with h | ⟨_, h⟩
  · exact lt_irrefl 0 h
  · exact lt_irrefl 0 h

omit [IsStrictOrderedRing K] in
theorem Beyond.lexNonneg {a b p : Point K} (h : Beyond a b p) :
    LexNonneg (cross a b p) (dot b a p) :=
  h.imp_right fun hline => ⟨hline.1, hline.2.le⟩

omit [LinearOrder K] [IsStrictOrderedRing K] in
/-- Seen along the edge that arrives, turns are those about `b`, scaled. -/
theorem cross_along (a b p q : Point K) :
    cross a b p * dot b a q - dot b a p * cross a b q = dot b a a * cross b p q := by
  unfold cross dot; ring

omit [LinearOrder K] [IsStrictOrderedRing K] in
theorem dot_along (a b p q : Point K) :
    cross a b p * cross a b q + dot b a p * dot b a q = dot b a a * dot b p q := by
  unfold cross dot; ring

/-- Two points beyond `b` are not on opposite sides of it. -/
theorem Beyond.dot_nonneg {a b p q : Point K} (hp : Beyond a b p) (hq : Beyond a b q)
    (hline : cross b p q = 0) : 0 ≤ dot b p q := by
  have hpar : cross a b p * dot b a q - dot b a p * cross a b q = 0 := by
    rw [cross_along, hline, mul_zero]
  have hnonneg := dot_nonneg_of_parallel hp hq.lexNonneg hpar
  rw [dot_along] at hnonneg
  exact nonneg_of_mul_nonneg_right hnonneg (dot_self_pos hp.ne.symm)

/-- Turning about `b` is transitive beyond it. -/
theorem Beyond.turn_trans {a b p q r : Point K} (hp : Beyond a b p) (hq : Beyond a b q)
    (hr : Beyond a b r) (hpq : 0 < cross b p q) (hqr : 0 < cross b q r) : 0 < cross b p r := by
  have hlength : 0 < dot b a a := dot_self_pos hp.ne.symm
  have hpq' := mul_pos hlength hpq
  have hqr' := mul_pos hlength hqr
  rw [← cross_along] at hpq' hqr'
  have hpos := Lib.turn_trans hq hr.lexNonneg hp.lexNonneg hpq' hqr'
  rw [cross_along] at hpos
  exact (mul_pos_iff_of_pos_left hlength).mp hpos

/-! ## §2 — the sweep about a vertex. -/

/-- The point `q` is left of the ray from `b` through `p`, or on it and not further than `p`. -/
def Sweep (b p q : Point K) : Prop := 0 < cross b p q ∨ OnSegment b p q

theorem onSegment_iff_length {b p q : Point K} :
    OnSegment b p q ↔ cross b p q = 0 ∧ dot b q q ≤ dot b p q := by
  have hdot : dot q b p = dot b q q - dot b p q := by unfold dot; ring
  rw [OnSegment, hdot, sub_nonpos]

/-- **The sweep is total** on what lies beyond `b`. -/
theorem Beyond.total {a b p q : Point K} (hp : Beyond a b p) (hq : Beyond a b q) :
    Sweep b p q ∨ Sweep b q p := by
  rcases lt_trichotomy (cross b p q) 0 with hright | hline | hleft
  · right; left
    rw [cross_swap]
    exact neg_pos.mpr hright
  · have hdot := hp.dot_nonneg hq hline
    have hline' : cross b q p = 0 := by rw [cross_swap, hline, neg_zero]
    -- on one ray the product of the lengths is the scalar product
    have hsquare : dot b p q * dot b p q = dot b p p * dot b q q := by
      unfold cross dot at *
      linear_combination (-((p.x - b.x) * (q.y - b.y) - (p.y - b.y) * (q.x - b.x))) * hline
    have hpp : 0 ≤ dot b p p := add_nonneg (mul_self_nonneg _) (mul_self_nonneg _)
    have hqq : 0 ≤ dot b q q := add_nonneg (mul_self_nonneg _) (mul_self_nonneg _)
    rcases le_total (dot b q q) (dot b p p) with hle | hle
    · left; right
      refine onSegment_iff_length.mpr ⟨hline, ?_⟩
      apply (mul_self_le_mul_self_iff hqq hdot).mpr
      rw [hsquare]
      exact mul_le_mul_of_nonneg_right hle hqq
    · right; right
      refine onSegment_iff_length.mpr ⟨hline', ?_⟩
      rw [dot_comm b p q]
      apply (mul_self_le_mul_self_iff hpp hdot).mpr
      rw [hsquare]
      exact mul_le_mul_of_nonneg_left hle hpp
  · left; left
    exact hleft

/-- **The sweep is transitive** on what lies beyond `b`. -/
theorem Beyond.trans {a b p q r : Point K} (hp : Beyond a b p) (hq : Beyond a b q)
    (hr : Beyond a b r) (hqb : q ≠ b) (hrb : r ≠ b) (hpq : Sweep b p q) (hqr : Sweep b q r) :
    Sweep b p r := by
  have hq₀ : 0 < dot b q q := dot_self_pos hqb.symm
  have hr₀ : 0 < dot b r r := dot_self_pos hrb.symm
  have hcross : dot b q q * cross b p r = cross b p q * dot b q r + dot b p q * cross b q r := by
    unfold cross dot; ring
  have hdot : dot b q q * dot b p r = dot b p q * dot b q r - cross b p q * cross b q r := by
    unfold cross dot; ring
  rcases hpq with hpq | hpq <;> rcases hqr with hqr | hqr
  · exact Or.inl (hp.turn_trans hq hr hpq hqr)
  · left
    obtain ⟨hline, hlength⟩ := onSegment_iff_length.mp hqr
    have hpos := mul_pos hpq (hr₀.trans_le hlength)
    rw [hline, mul_zero, add_zero] at hcross
    rw [← hcross] at hpos
    exact (mul_pos_iff_of_pos_left hq₀).mp hpos
  · left
    obtain ⟨hline, hlength⟩ := onSegment_iff_length.mp hpq
    have hpos := mul_pos (hq₀.trans_le hlength) hqr
    rw [hline, zero_mul, zero_add] at hcross
    rw [← hcross] at hpos
    exact (mul_pos_iff_of_pos_left hq₀).mp hpos
  · right
    obtain ⟨hline, hlength⟩ := onSegment_iff_length.mp hpq
    obtain ⟨hline', hlength'⟩ := onSegment_iff_length.mp hqr
    rw [hline, hline', zero_mul, mul_zero, add_zero] at hcross
    rw [hline, zero_mul, sub_zero] at hdot
    refine onSegment_iff_length.mpr ⟨(mul_eq_zero.mp hcross).resolve_left hq₀.ne', ?_⟩
    apply le_of_mul_le_mul_left _ hq₀
    rw [hdot]
    exact mul_le_mul hlength hlength' hr₀.le (hq₀.le.trans hlength)

/-- A nonempty list of points beyond `b` has one from which the sweep meets all the others. -/
theorem exists_first {a b : Point K} : ∀ {l : List (Point K)}, l ≠ [] →
    (∀ p ∈ l, p ≠ b ∧ Beyond a b p) →
    ∃ c ∈ l, ∀ p ∈ l, Sweep b c p
  | [], h, _ => absurd rfl h
  | [c], _, _ => ⟨c, by simp, fun p hp => List.mem_singleton.mp hp ▸ Or.inr (onSegment_right b p)⟩
  | c :: d :: l, _, hbeyond => by
      obtain ⟨e, he, hfirst⟩ :=
        exists_first (List.cons_ne_nil d l) fun p hp => hbeyond p (List.mem_cons_of_mem c hp)
      have hc := hbeyond c List.mem_cons_self
      have he' := hbeyond e (List.mem_cons_of_mem c he)
      rcases hc.2.total he'.2 with hce | hec
      · refine ⟨c, List.mem_cons_self, fun p hp => ?_⟩
        rcases List.mem_cons.mp hp with rfl | hp
        · exact Or.inr (onSegment_right b p)
        · have hp' := hbeyond p (List.mem_cons_of_mem c hp)
          exact hc.2.trans he'.2 hp'.2 he'.1 hp'.1 hce (hfirst p hp)
      · refine ⟨e, List.mem_cons_of_mem c he, fun p hp => ?_⟩
        rcases List.mem_cons.mp hp with rfl | hp
        · exact hec
        · exact hfirst p hp

/-! ## §3 — corners and the edges between them. -/

/-- All other points of the set lie beyond `b`, seen from somewhere. -/
def Corner (S : Set (Point K)) (b : Point K) : Prop := b ∈ S ∧ ∃ a, ∀ p ∈ S, p ≠ b → Beyond a b p

/-- Seen from above, all points lie beyond the least one. -/
theorem corner_of_lexLeast {S : Set (Point K)} {v : Point K} (hv : v ∈ S)
    (hmin : ∀ p ∈ S, LexLe v p) : Corner S v := by
  refine ⟨hv, ⟨v.x, v.y + 1⟩, fun p hp hne => ?_⟩
  have hcross : cross ⟨v.x, v.y + 1⟩ v p = p.x - v.x := by unfold cross; ring
  have hdot : dot v ⟨v.x, v.y + 1⟩ p = p.y - v.y := by unfold dot; ring
  unfold Beyond
  rw [hcross, hdot]
  exact lexPos_sub fun hle => hne (hle.antisymm (hmin p hp))

/-- A hull edge arrives at a corner. -/
theorem HullEdge.corner {S : Set (Point K)} {a b : Point K} (h : HullEdge S a b) : Corner S b := by
  refine ⟨h.target_mem, a, fun p hp hne => ?_⟩
  rcases h.support p hp with hleft | ⟨hline, hdot⟩
  · exact Or.inl hleft
  · have hbehind : dot b a p = dot b p p - dot p a b := by unfold dot; ring
    refine Or.inr ⟨hline, ?_⟩
    rw [hbehind]
    linarith [dot_self_pos hne.symm]

/-- **From a corner there is a hull edge.** -/
theorem Corner.exists_edge {S : Set (Point K)} (hS : S.Finite) {b : Point K} (h : Corner S b) :
    ∃ c, HullEdge S b c := by
  obtain ⟨hb, a, hbeyond⟩ := h
  have hothers : (S \ {b}).Finite := hS.subset Set.sdiff_subset
  have hmem : ∀ p, p ∈ hothers.toFinset.toList ↔ p ∈ S ∧ p ≠ b := by simp
  by_cases hnil : hothers.toFinset.toList = []
  · refine ⟨b, hb, hb, fun p hp => Or.inr ?_⟩
    have hpb : p = b := by
      by_contra hne
      have hp := (hmem p).mpr ⟨hp, hne⟩
      rw [hnil] at hp
      exact List.not_mem_nil hp
    rw [hpb]
    exact onSegment_left b b
  · obtain ⟨c, hc, hfirst⟩ := exists_first (a := a) hnil fun p hp =>
      ⟨((hmem p).mp hp).2, hbeyond p ((hmem p).mp hp).1 ((hmem p).mp hp).2⟩
    refine ⟨c, hb, ((hmem c).mp hc).1, fun p hp => ?_⟩
    by_cases hpb : p = b
    · rw [hpb]
      exact Or.inr (onSegment_left b c)
    · exact hfirst p ((hmem p).mpr ⟨hp, hpb⟩)

/-- A vertex has one predecessor. -/
theorem HullEdge.source_unique {S : Set (Point K)} {a b c : Point K} (ha : HullEdge S a c)
    (hb : HullEdge S b c) : a = b := by
  have hflip := reflect_rigid (0 : K)
  exact hflip.injective (HullEdge.unique _ _ _ (ha.map_flip hflip) (hb.map_flip hflip))

/-! ## §4 — the hull. -/

/-- **Every finite point set has a hull cycle.** -/
theorem exists_hullCycle {S : Set (Point K)} (hS : S.Finite) : ∃ H, HullCycle S H := by
  rcases S.eq_empty_or_nonempty with rfl | hne
  · exact ⟨[], fun h => absurd h Set.not_nonempty_empty, List.nodup_nil, trivial⟩
  · have hlist : hS.toFinset.toList ≠ [] := by simpa using hne.ne_empty
    obtain ⟨v, hv, hmin⟩ := exists_lexLeast hlist
    have hcorner : Corner S v :=
      corner_of_lexLeast (by simpa using hv) fun p hp => hmin p (by simpa using hp)
    -- the successor of a corner, an injection of a finite set
    choose next hnext using fun b : {b // Corner S b} => b.2.exists_edge hS
    let succ : {b // Corner S b} → {b // Corner S b} := fun b => ⟨next b, (hnext b).corner⟩
    have hinjective : Function.Injective succ := by
      intro b c hbc
      have hends : next b = next c := Subtype.ext_iff.mp hbc
      exact Subtype.ext ((hends ▸ hnext b).source_unique (hnext c))
    have hfinite : Finite {b // Corner S b} :=
      (hS.subset fun b (hb : Corner S b) => hb.1).to_subtype
    have hperiodic := hinjective.mem_periodicPts ⟨v, hcorner⟩
    let orbit :=
      (List.range (Function.minimalPeriod succ ⟨v, hcorner⟩)).map fun n => succ^[n] ⟨v, hcorner⟩
    have horbit : Function.periodicOrbit succ ⟨v, hcorner⟩ = (orbit : Cycle {b // Corner S b}) :=
      rfl
    refine ⟨orbit.map Subtype.val, fun _ => ?_, ?_, ?_⟩
    · have hself := Function.self_mem_periodicOrbit hperiodic
      rw [horbit, Cycle.mem_coe_iff] at hself
      exact List.ne_nil_of_mem (List.mem_map_of_mem hself)
    · have hnodup := Function.nodup_periodicOrbit (f := succ) (x := ⟨v, hcorner⟩)
      rw [horbit, Cycle.nodup_coe_iff] at hnodup
      exact hnodup.map Subtype.val_injective
    · rw [cycle_chain_map, ← horbit, Function.periodicOrbit_chain' _ hperiodic]
      intro n
      rw [Function.iterate_succ_apply']
      exact hnext _

end NinjaVision.Lib
