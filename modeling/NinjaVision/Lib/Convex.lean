/-
# NinjaVision.Lib.Convex — convex cycles, and what may be left out of a closed walk.

`Thin a l m` says that the walk `m` is the walk `l` from `a` with some points left out, each on the
segment between the kept points around it; `ThinCycle` is the same for closed lists, from any start.
What is left out carries no area (`ThinCycle.twiceArea_eq`): between two kept points all points are
on one line.

`ConvexTrace` is the closed walk around a convex polygon: any three of its points, in list order,
make a turn to the same side or none. Three in list order say that it goes round once; for the
neighbours alone a star would do. Straight runs, repeated points and walks on one line are allowed.

The two meet in `ConvexTrace.thin`: the hull cycle of a convex trace is the trace itself, without
some points on the segments between the hull vertices. Read from the least vertex, the trace passes
through the hull vertices in their order, and what it passes in between cannot lie off the hull
edge.
-/
import NinjaVision.Lib.Planar

namespace NinjaVision.Lib

variable {K : Type*} [CommRing K] [LinearOrder K]

/-! ## §1 — walks with points left out. -/

/-- From `a`, the walk `m` is the walk `l` without points on the segments between those it keeps. -/
inductive Thin : Point K → List (Point K) → List (Point K) → Prop
  | nil (a : Point K) : Thin a [] []
  | keep {a b : Point K} {ds l m : List (Point K)} (hds : ∀ d ∈ ds, OnSegment a b d)
      (h : Thin b l m) :
      Thin a (ds ++ b :: l) (b :: m)

/-- The same for closed lists, written from a common point that is kept. -/
def ThinCycle (c k : List (Point K)) : Prop :=
  (c = [] ∧ k = []) ∨ ∃ a l m, c ~r a :: l ∧ k ~r a :: m ∧ Thin a (l ++ [a]) (m ++ [a])

theorem Thin.eq_nil {a : Point K} {l : List (Point K)} (h : Thin a l []) : l = [] := by
  cases h; rfl

theorem Thin.split {a b : Point K} {l m : List (Point K)} (h : Thin a l (b :: m)) :
    ∃ ds l', l = ds ++ b :: l' ∧ (∀ d ∈ ds, OnSegment a b d) ∧ Thin b l' m := by
  cases h with
  | keep hds h => exact ⟨_, _, rfl, hds, h⟩

/-- A thinned walk to `z` comes from a walk to `z`: the end is kept. -/
theorem Thin.ends {z : Point K} : ∀ {m l : List (Point K)} {a : Point K}, Thin a l (m ++ [z]) →
    ∃ l', l = l' ++ [z]
  | [], l, a, h => by
      obtain ⟨ds, l', rfl, _, h'⟩ := h.split
      rw [h'.eq_nil]
      exact ⟨ds, rfl⟩
  | b :: m, l, a, h => by
      obtain ⟨ds, l', rfl, _, h'⟩ := h.split
      obtain ⟨l'', rfl⟩ := h'.ends
      exact ⟨ds ++ b :: l'', by simp⟩

/-- `Thin.split` in a walk to `z`: past the next kept point it is a walk to `z` again. -/
theorem Thin.split_end {a b z : Point K} {l m : List (Point K)}
    (h : Thin a (l ++ [z]) (b :: (m ++ [z]))) :
    ∃ ds l', l = ds ++ b :: l' ∧ (∀ d ∈ ds, OnSegment a b d) ∧ Thin b (l' ++ [z]) (m ++ [z]) := by
  obtain ⟨ds, l', hl, hds, h'⟩ := h.split
  obtain ⟨l'', rfl⟩ := h'.ends
  exact ⟨ds, l'', (List.append_left_inj [z]).mp (by simpa using hl), hds, h'⟩

/-- When only the end is kept, the walk to it is along the segment. -/
theorem Thin.onSegment {a z : Point K} {l : List (Point K)} (h : Thin a (l ++ [z]) [z]) :
    ∀ d ∈ l, OnSegment a z d := by
  obtain ⟨ds, l', hl, hds, h'⟩ := h.split
  rw [h'.eq_nil] at hl
  rwa [List.append_cancel_right hl]

/-- One more kept point at the end of a walk. -/
theorem Thin.concat {z w : Point K} {ds : List (Point K)} (hds : ∀ d ∈ ds, OnSegment z w d) :
    ∀ {m l : List (Point K)} {a : Point K}, Thin a (l ++ [z]) (m ++ [z]) →
      Thin a (l ++ z :: (ds ++ [w])) (m ++ [z, w])
  | [], l, a, h => by
      exact .keep h.onSegment (.keep hds (.nil w))
  | b :: m, l, a, h => by
      obtain ⟨es, l', rfl, hes, h'⟩ := h.split_end
      rw [List.append_assoc]
      exact .keep hes (h'.concat hds)

/-- **A thinned walk, walked backwards, is thinned.** -/
theorem Thin.reverse {z : Point K} : ∀ {m l : List (Point K)} {a : Point K},
    Thin a (l ++ [z]) (m ++ [z]) →
    Thin z (l.reverse ++ [a]) (m.reverse ++ [a])
  | [], l, a, h => by
      exact .keep (fun d hd => (h.onSegment d (List.mem_reverse.mp hd)).symm) (.nil a)
  | b :: m, l, a, h => by
      obtain ⟨ds, l', rfl, hds, h'⟩ := h.split_end
      have hback : ∀ d ∈ ds.reverse, OnSegment b a d :=
        fun d hd => (hds d (List.mem_reverse.mp hd)).symm
      simpa using h'.reverse.concat hback

theorem ThinCycle.reverse {c k : List (Point K)} (h : ThinCycle c k) :
    ThinCycle c.reverse k.reverse := by
  rcases h with ⟨rfl, rfl⟩ | ⟨a, l, m, hc, hk, hthin⟩
  · exact Or.inl ⟨rfl, rfl⟩
  · exact Or.inr ⟨a, l.reverse, m.reverse, hc.reverse.trans (reverse_cons_rotated a l),
      hk.reverse.trans (reverse_cons_rotated a m), hthin.reverse⟩

/-! ## §2 — what is left out has no area. -/

theorem onSegment_left (a b : Point K) : OnSegment a b a := by
  refine ⟨?_, le_of_eq ?_⟩
  · unfold cross; ring
  · unfold dot; ring

theorem onSegment_right (a b : Point K) : OnSegment a b b := (onSegment_left b a).symm

section Area

variable [IsStrictOrderedRing K]

/-- Points of one segment are on a line with its start. -/
theorem OnSegment.cross_eq_zero {a b x y : Point K} (hx : OnSegment a b x) (hy : OnSegment a b y) :
    cross a x y = 0 := by
  by_cases hab : a = b
  · subst hab
    rw [eq_of_onSegment (onSegment_left a x) hx, cross_left_self]
  · obtain ⟨hx, _⟩ := hx
    obtain ⟨hy, _⟩ := hy
    unfold cross at hx hy ⊢
    -- the turn times either coordinate of the segment is a combination of the two that vanish
    have hdx : (b.x - a.x) * ((x.x - a.x) * (y.y - a.y) - (x.y - a.y) * (y.x - a.x)) = 0 := by
      linear_combination (x.x - a.x) * hy - (y.x - a.x) * hx
    have hdy : (b.y - a.y) * ((x.x - a.x) * (y.y - a.y) - (x.y - a.y) * (y.x - a.x)) = 0 := by
      linear_combination (x.y - a.y) * hy - (y.y - a.y) * hx
    by_contra hne
    apply hab
    ext
    · exact (sub_eq_zero.mp ((mul_eq_zero.mp hdx).resolve_right hne)).symm
    · exact (sub_eq_zero.mp ((mul_eq_zero.mp hdy).resolve_right hne)).symm

/-- A walk along a segment adds what the segment adds. -/
theorem chainSum_onSegment {a b : Point K} {ds : List (Point K)} (hds : ∀ d ∈ ds, OnSegment a b d) :
    chainSum det a (ds ++ [b]) = det a b := by
  have hsplit : (det : Point K → Point K → K) = fun x y => cross a x y + (det a y - det a x) := by
    funext x y
    unfold det cross; ring
  have hline : ∀ x ∈ a :: (ds ++ [b]), OnSegment a b x := by
    intro x hx
    simp only [List.mem_cons, List.mem_append, List.not_mem_nil, or_false] at hx
    rcases hx with rfl | hx | rfl
    · exact onSegment_left x b
    · exact hds x hx
    · exact onSegment_right a x
  have hzero : chainSum (cross a) a (ds ++ [b]) = 0 :=
    chainSum_eq_zero (fun x hx y hy => (hline x hx).cross_eq_zero (hline y hy)) List.mem_cons_self
      fun x hx => List.mem_cons_of_mem _ hx
  have hself : det a a = 0 := by unfold det; ring
  calc chainSum det a (ds ++ [b])
      = chainSum (fun x y => cross a x y + (det a y - det a x)) a (ds ++ [b]) := by rw [← hsplit]
    _ = chainSum (cross a) a (ds ++ [b]) + chainSum (fun x y => det a y - det a x) a (ds ++ [b]) :=
        chainSum_add _ _ _ _
    _ = det a b := by rw [hzero, chainSum_telescope, hself, zero_add, sub_zero]

/-- **What is left out of a walk adds nothing** to the shoelace sum. -/
theorem Thin.chainSum_eq {a : Point K} {l m : List (Point K)} (h : Thin a l m) :
    chainSum det a l = chainSum det a m := by
  induction h with
  | nil a => rfl
  | keep hds _ ih => rw [chainSum_append, chainSum_onSegment hds, ih, chainSum_cons]

/-- **A thinned cycle has the area of the cycle.** -/
theorem ThinCycle.twiceArea_eq {c k : List (Point K)} (h : ThinCycle c k) :
    twiceArea c = twiceArea k := by
  rcases h with ⟨rfl, rfl⟩ | ⟨a, l, m, hc, hk, hthin⟩
  · rfl
  · rw [twiceArea_rotated hc, twiceArea_rotated hk]
    exact hthin.chainSum_eq

end Area

/-! ## §3 — convex traces. -/

/-- Any three points of the list, in list order, turn left or not at all. -/
def LeftTurning : List (Point K) → Prop
  | [] => True
  | a :: l => l.Pairwise (fun b p => 0 ≤ cross a b p) ∧ LeftTurning l

instance decidableLeftTurning : ∀ c : List (Point K), Decidable (LeftTurning c)
  | [] => isTrue trivial
  | a :: l =>
      have := decidableLeftTurning l
      inferInstanceAs (Decidable (l.Pairwise (fun b p => 0 ≤ cross a b p) ∧ LeftTurning l))

/-- The closed walk around a convex polygon, once, in either direction. -/
def ConvexTrace (c : List (Point K)) : Prop := LeftTurning c ∨ LeftTurning c.reverse

instance (c : List (Point K)) : Decidable (ConvexTrace c) :=
  inferInstanceAs (Decidable (LeftTurning c ∨ LeftTurning c.reverse))

theorem LeftTurning.sublist {c c' : List (Point K)} (hc : LeftTurning c) (h : c'.Sublist c) :
    LeftTurning c' := by
  induction h with
  | slnil => exact hc
  | cons a _ ih => exact ih hc.2
  | cons_cons a hsub ih => exact ⟨hc.1.sublist hsub, ih hc.2⟩

/-- A left turning list with one more point at its end. -/
theorem leftTurning_concat {a : Point K} {l : List (Point K)} :
    LeftTurning (l ++ [a]) ↔ l.Pairwise (fun b p => 0 ≤ cross b p a) ∧ LeftTurning l := by
  induction l with
  | nil => simp [LeftTurning]
  | cons x l ih =>
      rw [List.cons_append, LeftTurning, LeftTurning, ih, List.pairwise_append,
        List.pairwise_cons (a := x)]
      simp only [List.pairwise_singleton, List.mem_singleton, forall_eq, true_and]
      constructor
      · rintro ⟨⟨hpairs, hx⟩, hl, hturn⟩
        exact ⟨⟨hx, hl⟩, hpairs, hturn⟩
      · rintro ⟨⟨hx, hl⟩, hpairs, hturn⟩
        exact ⟨⟨hpairs, hx⟩, hl, hturn⟩

/-- The start of the list does not matter. -/
theorem LeftTurning.rotated {c c' : List (Point K)} (hc : LeftTurning c) (h : c ~r c') :
    LeftTurning c' := by
  obtain ⟨n, rfl⟩ := h
  induction n with
  | zero => rwa [List.rotate_zero]
  | succ n ih =>
      rw [← List.rotate_rotate]
      cases hrot : c.rotate n with
      | nil => trivial
      | cons a l =>
          rw [hrot] at ih
          rw [List.rotate_cons_succ, List.rotate_zero, leftTurning_concat]
          exact ⟨ih.1.imp fun {b p} hbp => cross_cyclic a b p ▸ hbp, ih.2⟩

/-! ## §4 — the hull of a convex trace. -/

section Hull

variable [IsStrictOrderedRing K]

/-- The least point of a set lies on no segment between two others. -/
theorem not_onSegment_of_least {v a b : Point K} (ha : LexLe v a) (hb : LexLe v b) (hav : a ≠ v)
    (hbv : b ≠ v) : ¬ OnSegment a b v := by
  rcases LexLe.total a b with hab | hba
  · exact not_onSegment_of_lex hab fun hle => hav (hle.antisymm ha)
  · exact fun h => not_onSegment_of_lex hba (fun hle => hbv (hle.antisymm hb)) h.symm

/-- The least point of a set is strictly left of every hull edge that it is not an end of. -/
theorem HullEdge.left_of_least {S : Set (Point K)} {v a b : Point K} (h : HullEdge S a b)
    (ha : LexLe v a) (hb : LexLe v b) (hav : a ≠ v) (hbv : b ≠ v) (hv : v ∈ S) : 0 < cross a b v :=
  (h.support v hv).resolve_right (not_onSegment_of_least ha hb hav hbv)

/-- What a left turning walk passes between the ends of a hull edge is on the edge. -/
theorem HullEdge.onSegment {S : Set (Point K)} {a b d : Point K} (h : HullEdge S a b) (hd : d ∈ S)
    (hturn : 0 ≤ cross a d b) : OnSegment a b d := by
  refine (h.support d hd).resolve_left fun hleft => ?_
  rw [cross_swap] at hturn
  linarith

/-- A left turning walk from the least point passes the hull vertices in their order, and what it
passes between two of them is on the edge. The induction is on the hull vertices still ahead; the
walk stands at `a`, the start `v` itself or a later hull vertex. -/
theorem LeftTurning.thin_walk {c : List (Point K)} (hturn : LeftTurning c) {v : Point K}
    (hleast : ∀ p ∈ c, LexLe v p) :
    ∀ {m pre l : List (Point K)} {a : Point K}, c = pre ++ a :: l →
      (pre = [] ∧ a = v ∨ (∃ pre', pre = v :: pre') ∧ a ≠ v) →
      List.IsChain (HullEdge {p | p ∈ c}) (a :: (m ++ [v])) → v ∉ m → (a :: m).Nodup →
        Thin a (l ++ [v]) (m ++ [v])
  | [], pre, l, a, hc, hfirst, hedges, _, _ => by
      have hav : HullEdge {p | p ∈ c} a v := (List.isChain_cons_cons.mp hedges).1
      have hmem : ∀ d ∈ l, d ∈ c := fun d hd => by simp [hc, hd]
      refine .keep (fun d hd => hav.onSegment (hmem d hd) ?_) (.nil v)
      rw [cross_cyclic, cross_cyclic]
      rcases hfirst with ⟨rfl, rfl⟩ | ⟨⟨pre', rfl⟩, _⟩
      · rw [cross_left_self]
      · rw [hc, List.cons_append] at hturn
        have hpairs := (List.pairwise_append.mp hturn.1).2.1
        exact (List.pairwise_cons.mp hpairs).1 d hd
  | b :: m, pre, l, a, hc, hfirst, hedges, hv, hnodup => by
      obtain ⟨hab, hedges⟩ := List.isChain_cons_cons.mp hedges
      obtain ⟨ha, hnodup⟩ := List.nodup_cons.mp hnodup
      have hbv : b ≠ v := fun h => hv (h ▸ List.mem_cons_self)
      -- behind `a`, the vertex `b` would see the start on the edge from `a` to `b` or on its right
      have hahead : b ∈ l := by
        have hbc : b ∈ pre ++ a :: l := hc ▸ hab.target_mem
        rcases List.mem_append.mp hbc with hbehind | hbc
        · rcases hfirst with ⟨rfl, _⟩ | ⟨⟨pre', rfl⟩, hav⟩
          · exact absurd hbehind List.not_mem_nil
          · have hbehind : b ∈ pre' := (List.mem_cons.mp hbehind).resolve_left hbv
            rw [hc, List.cons_append] at hturn
            have hback := (List.pairwise_append.mp hturn.1).2.2 b hbehind a List.mem_cons_self
            rw [cross_cyclic, cross_flip] at hback
            have hleft :=
              hab.left_of_least (hleast a (by simp [hc])) (hleast b hab.target_mem) hav hbv
                (by simp [hc])
            linarith
        · exact (List.mem_cons.mp hbc).resolve_left fun h => ha (h ▸ List.mem_cons_self)
      obtain ⟨ds, l', rfl⟩ := List.append_of_mem hahead
      have hpassed : ∀ d ∈ ds, OnSegment a b d := by
        intro d hd
        have hrest : LeftTurning (a :: (ds ++ b :: l')) :=
          (hc ▸ hturn).sublist (List.sublist_append_right ..)
        exact hab.onSegment (by simp [hc, hd])
          ((List.pairwise_append.mp hrest.1).2.2 d hd b List.mem_cons_self)
      have hnext : Thin b (l' ++ [v]) (m ++ [v]) := by
        have hwalk : c = (pre ++ a :: ds) ++ b :: l' := by simp [hc]
        refine hturn.thin_walk hleast hwalk (Or.inr ⟨?_, hbv⟩) hedges
          (fun h => hv (List.mem_cons_of_mem _ h)) hnodup
        rcases hfirst with ⟨rfl, rfl⟩ | ⟨⟨pre', rfl⟩, _⟩
        · exact ⟨ds, rfl⟩
        · exact ⟨pre' ++ a :: ds, rfl⟩
      rw [List.append_assoc]
      exact .keep hpassed hnext

/-- The hull cycle of a left turning list is the list, thinned. -/
theorem LeftTurning.thin {c H : List (Point K)} (hturn : LeftTurning c)
    (hH : HullCycle {p | p ∈ c} H) : ThinCycle c H := by
  by_cases hnil : c = []
  · subst hnil
    refine Or.inl ⟨rfl, HullCycle.eq_nil (K := K) ?_⟩
    simpa using hH
  · have hne : {p | p ∈ c}.Nonempty := List.exists_mem_of_ne_nil c hnil
    obtain ⟨v, hv, hmin⟩ := exists_lexLeast (hH.nonempty hne)
    have hvc : v ∈ c := (cycle_neighbours hH.edges hv).1.choose_spec.2.source_mem
    obtain ⟨l, hl⟩ := rotated_cons_of_mem hvc
    obtain ⟨m, hm⟩ := rotated_cons_of_mem hv
    have hpoints : {p | p ∈ c} = {p | p ∈ v :: l} := Set.ext fun p => hl.mem_iff
    have hedges := hH.edges
    rw [Cycle.coe_eq_coe.mpr hm, Cycle.chain_coe_cons, hpoints] at hedges
    have hnodup : (v :: m).Nodup := hm.nodup_iff.mp hH.nodup
    have hwalk : v :: l = [] ++ v :: l := rfl
    refine Or.inr ⟨v, l, m, hl, hm, ?_⟩
    exact (hturn.rotated hl).thin_walk (fun p hp => hH.lexLeast hv hmin p (hl.mem_iff.mpr hp)) hwalk
      (Or.inl ⟨rfl, rfl⟩) hedges (List.nodup_cons.mp hnodup).1 hnodup

/-- **The hull of a convex trace is the trace, thinned**, in one of the two directions. -/
theorem ConvexTrace.thin {c H : List (Point K)} (hc : ConvexTrace c) (hH : IsHull {p | p ∈ c} H) :
    ThinCycle c H ∨ ThinCycle c H.reverse := by
  rcases hc with hc | hc
  · exact hH.imp hc.thin hc.thin
  · have hpoints : {p | p ∈ c.reverse} = {p | p ∈ c} := Set.ext fun p => List.mem_reverse
    rcases hH with hH | hH
    · right
      have hback := (hc.thin (hpoints ▸ hH)).reverse
      rwa [List.reverse_reverse] at hback
    · left
      have hback := (hc.thin (hpoints ▸ hH)).reverse
      rwa [List.reverse_reverse, List.reverse_reverse] at hback

end Hull
end NinjaVision.Lib
