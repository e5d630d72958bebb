/-
# NinjaVision.Lib.HullBounds — how much area a hull can have, and what a hull does not see.

A hull cycle inside a box has no more area than the box (`HullCycle.twiceArea_le`), and none below
zero. The upper bound needs that the cycle goes round once. Read from its least vertex, it advances
to the right and then comes back (`no_valley`): a turn to the right again would leave the least
vertex on the wrong side of an edge. So all it ever advances is the width of the box (`advance_le`),
and the area is what lies above the advancing edges.

A point between two others is no hull vertex (`HullCycle.not_between`), and does not widen their box
(`OnSegment.between`). So points on segments between others may be left out of a set, and the hull
and the box stay as they are (`HullCycle.restrict`).
-/
import NinjaVision.Lib.Convex

namespace NinjaVision.Lib

/-! ## §1 — sums over a chain, edge by edge. -/

section Chains

variable {α M : Type*} [AddCommMonoid M] [PartialOrder M] [IsOrderedAddMonoid M]

/-- A sum over the edges of a chain is nonnegative when each edge's summand is. -/
theorem chainSum_nonneg {R : α → α → Prop} {f : α → α → M} (h : ∀ x y, R x y → 0 ≤ f x y) :
    ∀ {a : α} {l : List α}, List.IsChain R (a :: l) → 0 ≤ chainSum f a l
  | _, [], _ => le_rfl
  | a, b :: l, hchain => by
      obtain ⟨hab, hl⟩ := List.isChain_cons_cons.mp hchain
      exact add_nonneg (h a b hab) (chainSum_nonneg h hl)

/-- Sums over the same chain compare edge by edge. -/
theorem chainSum_le {f g : α → α → M} {s : List α} (h : ∀ x ∈ s, ∀ y ∈ s, f x y ≤ g x y) :
    ∀ {a : α} {l : List α}, a ∈ s → (∀ x ∈ l, x ∈ s) → chainSum f a l ≤ chainSum g a l
  | _, [], _, _ => le_rfl
  | a, b :: l, ha, hl => by
      have hb : b ∈ s := hl b List.mem_cons_self
      exact add_le_add (h a ha b hb) (chainSum_le h hb fun x hx => hl x (List.mem_cons_of_mem _ hx))

theorem cycleSum_le {f g : α → α → M} {l : List α} (h : ∀ x ∈ l, ∀ y ∈ l, f x y ≤ g x y) :
    cycleSum f l ≤ cycleSum g l := by
  cases l with
  | nil => exact le_rfl
  | cons a l =>
      refine chainSum_le h List.mem_cons_self fun x hx => ?_
      rcases List.mem_append.mp hx with hx | hx
      · exact List.mem_cons_of_mem _ hx
      · exact List.mem_singleton.mp hx ▸ List.mem_cons_self

end Chains

variable {K : Type*} [CommRing K] [LinearOrder K] [IsStrictOrderedRing K]

/-! ## §2 — a hull cycle advances, and comes back. -/

omit [IsStrictOrderedRing K] in
/-- A hull edge has no point on its right. -/
theorem HullEdge.cross_nonneg {S : Set (Point K)} {a b p : Point K} (h : HullEdge S a b)
    (hp : p ∈ S) : 0 ≤ cross a b p := by
  rcases h.support p hp with hleft | hon
  · exact hleft.le
  · exact hon.1.ge

/-- **No valley**: past an edge that does not advance to the right, a hull cycle does not advance
before it is back at its least point. -/
theorem no_valley {S : Set (Point K)} {v a b c : Point K} (hv : v ∈ S) (hmin : ∀ p ∈ S, LexLe v p)
    (hab : HullEdge S a b) (hbc : HullEdge S b c) (hne : b ≠ v) (hback : b.x ≤ a.x) :
    c.x ≤ b.x := by
  by_contra! hadvance
  have hleast : v.x ≤ b.x := (hmin b hab.target_mem).elim le_of_lt fun h => h.1.le
  rcases hab.support c hbc.target_mem with hturn | hline
  · -- the vector to `v` is a combination of the two edges, with signs that put it on the vertical
    -- through `b`
    have hav := hab.cross_nonneg hv
    have hbv := hbc.cross_nonneg hv
    have hcombination : cross a b c * (v.x - b.x)
        = cross a b v * (c.x - b.x) + cross b c v * (a.x - b.x) := by
      unfold cross; ring
    have h₁ : 0 ≤ cross a b v * (c.x - b.x) := mul_nonneg hav (sub_nonneg.mpr hadvance.le)
    have h₂ : 0 ≤ cross b c v * (a.x - b.x) := mul_nonneg hbv (sub_nonneg.mpr hback)
    have hvx : v.x = b.x := by
      by_contra hvx
      have hneg := mul_neg_of_pos_of_neg hturn (sub_neg.mpr (lt_of_le_of_ne hleast hvx))
      linarith
    -- there `v` is not above `b`, and the edge that advances has it on its left
    have hvy : v.y ≤ b.y := by
      rcases hmin b hab.target_mem with h | h
      · exact absurd hvx h.ne
      · exact h.2
    have hby : b.y ≤ v.y := by
      have hright : cross b c v = (c.x - b.x) * (v.y - b.y) := by
        unfold cross
        rw [hvx]
        ring
      rw [hright] at hbv
      exact sub_nonneg.mp (nonneg_of_mul_nonneg_right hbv (sub_pos.mpr hadvance))
    exact hne (Point.ext hvx (le_antisymm hvy hby)).symm
  · -- on one line the edge goes back to where it came from
    have hopposite : OnSegment b c a := by
      refine (hbc.support a hab.source_mem).resolve_left fun hleft => ?_
      rw [← cross_cyclic, hline.1] at hleft
      exact lt_irrefl 0 hleft
    have hca : c = a := eq_of_onSegment hopposite hline.symm
    subst hca
    have hcv : c ≠ v := by
      rintro rfl
      exact absurd hadvance (not_lt.mpr hleast)
    have hcross : cross c b v = 0 := by
      have h := hbc.cross_nonneg hv
      rw [cross_flip] at h
      linarith [hab.cross_nonneg hv]
    refine not_onSegment_of_least (hmin c hab.source_mem) (hmin b hab.target_mem) hcv hne ?_
    refine (hab.support v hv).resolve_left fun hleft => ?_
    rw [hcross] at hleft
    exact lt_irrefl 0 hleft

/-- How far an edge advances to the right. -/
def advance (a b : Point K) : K := max 0 (b.x - a.x)

omit [IsStrictOrderedRing K] in
theorem advance_eq_zero [IsOrderedRing K] {a b : Point K} (h : b.x ≤ a.x) : advance a b = 0 :=
  max_eq_left (sub_nonpos.mpr h)

/-- On its way back a hull cycle advances no more. -/
theorem advance_back {S : Set (Point K)} {v : Point K} (hv : v ∈ S) (hmin : ∀ p ∈ S, LexLe v p) :
    ∀ {l : List (Point K)} {a b : Point K}, List.IsChain (HullEdge S) (a :: b :: (l ++ [v])) →
      v ∉ b :: l → b.x ≤ a.x → chainSum advance b (l ++ [v]) = 0
  | [], a, b, hchain, hout, hback => by
      obtain ⟨hab, hchain⟩ := List.isChain_cons_cons.mp hchain
      have hbv : HullEdge S b v := (List.isChain_cons_cons.mp hchain).1
      have hne : b ≠ v := fun h => hout (h ▸ List.mem_cons_self)
      rw [List.nil_append, chainSum_cons, chainSum_nil, add_zero]
      exact advance_eq_zero (no_valley hv hmin hab hbv hne hback)
  | c :: l, a, b, hchain, hout, hback => by
      obtain ⟨hab, hchain⟩ := List.isChain_cons_cons.mp hchain
      have hbc : HullEdge S b c := (List.isChain_cons_cons.mp hchain).1
      have hne : b ≠ v := fun h => hout (h ▸ List.mem_cons_self)
      have hnext := no_valley hv hmin hab hbc hne hback
      rw [List.cons_append, chainSum_cons, advance_eq_zero hnext, zero_add]
      exact advance_back hv hmin hchain (fun h => hout (List.mem_cons_of_mem _ h)) hnext

/-- From its least point a hull cycle advances no further than its points lie. -/
theorem advance_le {S : Set (Point K)} {v : Point K} (hv : v ∈ S) (hmin : ∀ p ∈ S, LexLe v p)
    {x₁ : K} (hright : ∀ p ∈ S, p.x ≤ x₁) :
    ∀ {l : List (Point K)} {a : Point K}, List.IsChain (HullEdge S) (a :: (l ++ [v])) → v ∉ l →
      chainSum advance a (l ++ [v]) ≤ x₁ - a.x
  | [], a, hchain, _ => by
      have hav : HullEdge S a v := (List.isChain_cons_cons.mp hchain).1
      have hax : v.x ≤ a.x := (hmin a hav.source_mem).elim le_of_lt fun h => h.1.le
      rw [List.nil_append, chainSum_cons, chainSum_nil, add_zero, advance_eq_zero hax]
      exact sub_nonneg.mpr (hright a hav.source_mem)
  | b :: l, a, hchain, hout => by
      obtain ⟨hab, hrest⟩ := List.isChain_cons_cons.mp hchain
      rw [List.cons_append, chainSum_cons]
      rcases le_or_gt b.x a.x with hback | hadvance
      · rw [advance_eq_zero hback, advance_back hv hmin hchain hout hback, add_zero]
        exact sub_nonneg.mpr (hright a hab.source_mem)
      · have hstep : advance a b = b.x - a.x := max_eq_right (sub_nonneg.mpr hadvance.le)
        have hlater := advance_le hv hmin hright hrest fun h => hout (List.mem_cons_of_mem _ h)
        rw [hstep]
        linarith

/-! ## §3 — the area of a hull. -/

omit [LinearOrder K] [IsStrictOrderedRing K] in
/-- The area is what lies between the advancing edges and a line above, less what lies under the
others. -/
theorem twiceArea_eq_below (y₁ : K) (l : List (Point K)) :
    twiceArea l = cycleSum (fun a b => (b.x - a.x) * (2 * y₁ - a.y - b.y)) l :=
  cycleSum_congr_telescope (fun p => p.x * p.y - 2 * y₁ * p.x) (fun a b => by unfold det; ring) l

/-- A hull cycle runs counterclockwise. -/
theorem HullCycle.twiceArea_nonneg {S : Set (Point K)} {H : List (Point K)} (hH : HullCycle S H) :
    0 ≤ twiceArea H := by
  cases H with
  | nil => exact le_rfl
  | cons o t =>
      have hedges := hH.edges
      rw [Cycle.chain_coe_cons] at hedges
      have ho : o ∈ S := (cycle_neighbours hH.edges List.mem_cons_self).1.choose_spec.2.source_mem
      rw [twiceArea_eq_cross o, cycleSum_cons]
      refine chainSum_nonneg (fun a b hab => ?_) hedges
      rw [cross_cyclic]
      exact hab.cross_nonneg ho

/-- **The hull of a set inside a box has no more area than the box.** -/
theorem HullCycle.twiceArea_le {S : Set (Point K)} {H : List (Point K)} (hH : HullCycle S H)
    {x₀ x₁ y₀ y₁ : K} (hx : x₀ ≤ x₁) (hy : y₀ ≤ y₁)
    (hbox : ∀ p ∈ S, x₀ ≤ p.x ∧ p.x ≤ x₁ ∧ y₀ ≤ p.y ∧ p.y ≤ y₁) :
    twiceArea H ≤ 2 * ((x₁ - x₀) * (y₁ - y₀)) := by
  have hroom : 0 ≤ (x₁ - x₀) * (y₁ - y₀) := mul_nonneg (sub_nonneg.mpr hx) (sub_nonneg.mpr hy)
  by_cases hnil : H = []
  · subst hnil
    show (0 : K) ≤ _
    linarith
  · obtain ⟨v, hv, hmin⟩ := exists_lexLeast hnil
    obtain ⟨m, hm⟩ := rotated_cons_of_mem hv
    have hvS : v ∈ S := (cycle_neighbours hH.edges hv).1.choose_spec.2.source_mem
    have hedges := hH.edges
    rw [Cycle.coe_eq_coe.mpr hm, Cycle.chain_coe_cons] at hedges
    have hout : v ∉ m := (List.nodup_cons.mp (hm.nodup_iff.mp hH.nodup)).1
    have hmemS : ∀ p ∈ v :: m, p ∈ S := fun p hp =>
      (cycle_neighbours hH.edges (hm.mem_iff.mpr hp)).1.choose_spec.2.source_mem
    have hadvance : cycleSum advance (v :: m) ≤ x₁ - x₀ := by
      have hle := advance_le hvS (hH.lexLeast hv hmin) (fun p hp => (hbox p hp).2.1) hedges hout
      rw [cycleSum_cons]
      linarith [(hbox v hvS).1]
    -- an edge that advances has at most the height of the box above it, and the others count
    -- against
    have hedge : ∀ a ∈ v :: m, ∀ b ∈ v :: m,
        (b.x - a.x) * (2 * y₁ - a.y - b.y) ≤ 2 * (y₁ - y₀) * advance a b := by
      intro a ha b hb
      obtain ⟨_, _, ha₀, ha₁⟩ := hbox a (hmemS a ha)
      obtain ⟨_, _, hb₀, hb₁⟩ := hbox b (hmemS b hb)
      have habove : 0 ≤ 2 * y₁ - a.y - b.y := by linarith
      calc (b.x - a.x) * (2 * y₁ - a.y - b.y)
          ≤ advance a b * (2 * y₁ - a.y - b.y) :=
        mul_le_mul_of_nonneg_right (le_max_right ..) habove
        _ ≤ advance a b * (2 * (y₁ - y₀)) :=
          mul_le_mul_of_nonneg_left (by linarith) (le_max_left ..)
        _ = 2 * (y₁ - y₀) * advance a b := mul_comm _ _
    have htwice : 0 ≤ 2 * (y₁ - y₀) := by linarith
    calc twiceArea H
        = twiceArea (v :: m) := twiceArea_rotated hm
      _ = cycleSum (fun a b => (b.x - a.x) * (2 * y₁ - a.y - b.y)) (v :: m) :=
        twiceArea_eq_below y₁ _
      _ ≤ cycleSum (fun a b => 2 * (y₁ - y₀) * advance a b) (v :: m) := cycleSum_le hedge
      _ = 2 * (y₁ - y₀) * cycleSum advance (v :: m) := cycleSum_mul_left ..
      _ ≤ 2 * (y₁ - y₀) * (x₁ - x₀) := mul_le_mul_of_nonneg_left hadvance htwice
      _ = 2 * ((x₁ - x₀) * (y₁ - y₀)) := by ring

theorem IsHull.abs_twiceArea_le {S : Set (Point K)} {H : List (Point K)} (hH : IsHull S H)
    {x₀ x₁ y₀ y₁ : K} (hx : x₀ ≤ x₁) (hy : y₀ ≤ y₁)
    (hbox : ∀ p ∈ S, x₀ ≤ p.x ∧ p.x ≤ x₁ ∧ y₀ ≤ p.y ∧ p.y ≤ y₁) :
    |twiceArea H| ≤ 2 * ((x₁ - x₀) * (y₁ - y₀)) := by
  rcases hH with hH | hH
  · rw [abs_of_nonneg hH.twiceArea_nonneg]
    exact hH.twiceArea_le hx hy hbox
  · rw [← abs_neg, ← twiceArea_reverse, abs_of_nonneg hH.twiceArea_nonneg]
    exact hH.twiceArea_le hx hy hbox

/-! ## §4 — points between others. -/

/-- A vector other than zero has a length. -/
theorem dot_self_pos {d a : Point K} (hne : d ≠ a) : 0 < dot d a a := by
  by_contra! hle
  have hx := mul_self_nonneg (a.x - d.x)
  have hy := mul_self_nonneg (a.y - d.y)
  unfold dot at hle
  have hx₀ : (a.x - d.x) * (a.x - d.x) = 0 := by linarith
  have hy₀ : (a.y - d.y) * (a.y - d.y) = 0 := by linarith
  exact hne (Point.ext (sub_eq_zero.mp (mul_self_eq_zero.mp hx₀))
    (sub_eq_zero.mp (mul_self_eq_zero.mp hy₀))).symm

/-- A point of a segment lies between its ends, in each coordinate. -/
theorem OnSegment.between {a b d : Point K} (h : OnSegment a b d) :
    (a.x - d.x) * (b.x - d.x) ≤ 0 ∧ (a.y - d.y) * (b.y - d.y) ≤ 0 := by
  obtain ⟨hcross, hdot⟩ := h
  have hparallel : (a.x - d.x) * (b.y - d.y) = (a.y - d.y) * (b.x - d.x) := by
    unfold cross at hcross
    linear_combination hcross
  unfold dot at hdot
  -- on a line, each coordinate's product times the sum of both is a sum of squares
  have hsquares : ∀ p q r s : K, p * s = q * r → p * r + q * s ≤ 0 → p * r ≤ 0 := by
    intro p q r s hpar hsum
    by_contra! hpos
    have hkey : p * r * (p * r + q * s) = p * r * (p * r) + p * s * (p * s) := by
      linear_combination (p * s) * (-hpar)
    have hnonpos := mul_nonpos_of_nonneg_of_nonpos hpos.le hsum
    have hsq := mul_self_nonneg (p * s)
    have hsq' := mul_pos hpos hpos
    linarith
  refine ⟨hsquares _ _ _ _ hparallel hdot, ?_⟩
  refine hsquares _ _ _ _ hparallel.symm ?_
  linarith

/-- **A point between two others is no hull vertex**: both would have to lie ahead of it on one
edge. -/
theorem HullCycle.not_between {S : Set (Point K)} {H : List (Point K)} (hH : HullCycle S H)
    {a b d : Point K} (ha : a ∈ S) (hb : b ∈ S) (hd : d ∈ H) (hseg : OnSegment a b d) :
    d = a ∨ d = b := by
  obtain ⟨w, _, hdw⟩ := (cycle_neighbours hH.edges hd).1
  by_contra! hne
  obtain ⟨hline, hopposite⟩ := hseg
  have hleft := hdw.cross_nonneg ha
  have hright := hdw.cross_nonneg hb
  have hsqa : 0 < dot d a a := dot_self_pos hne.1
  have hsqb : 0 < dot d b b := dot_self_pos hne.2
  -- the vectors from `d` to `a` and `b` are opposite, so the edge turns to neither
  have hturn : cross d w a * dot d b b = dot d a b * cross d w b := by
    unfold cross dot at *
    linear_combination (-((w.x - d.x) * (b.x - d.x) + (w.y - d.y) * (b.y - d.y))) * hline
  have hturn' : cross d w b * dot d a a = dot d a b * cross d w a := by
    unfold cross dot at *
    linear_combination ((w.x - d.x) * (a.x - d.x) + (w.y - d.y) * (a.y - d.y)) * hline
  have hzero : cross d w a = 0 := by
    have hprod := mul_nonpos_of_nonpos_of_nonneg hopposite hright
    rw [← hturn] at hprod
    exact le_antisymm (nonpos_of_mul_nonpos_left hprod hsqb) hleft
  have hzero' : cross d w b = 0 := by
    have hprod := mul_nonpos_of_nonpos_of_nonneg hopposite hleft
    rw [← hturn'] at hprod
    exact le_antisymm (nonpos_of_mul_nonpos_left hprod hsqa) hright
  -- then both are on the edge, ahead of `d`
  have hona := (hdw.support a ha).resolve_left (by rw [hzero]; exact lt_irrefl 0)
  have honb := (hdw.support b hb).resolve_left (by rw [hzero']; exact lt_irrefl 0)
  have haheada : dot d a a ≤ dot d a w := by
    have hdot := hona.2
    unfold dot at hdot ⊢
    linarith
  have haheadb : dot d b b ≤ dot d b w := by
    have hdot := honb.2
    unfold dot at hdot ⊢
    linarith
  have hkey : dot d a a * dot d b w = dot d a b * dot d a w := by
    unfold cross dot at *
    linear_combination (-((w.x - d.x) * (a.y - d.y) - (w.y - d.y) * (a.x - d.x))) * hline
  have hpos : 0 < dot d a a * dot d b w := mul_pos hsqa (hsqb.trans_le haheadb)
  have hneg : dot d a b * dot d a w ≤ 0 :=
    mul_nonpos_of_nonpos_of_nonneg hopposite (hsqa.trans_le haheada).le
  linarith

omit [IsStrictOrderedRing K] in
/-- A hull cycle of a set is the hull cycle of each subset that has its vertices. -/
theorem HullCycle.restrict {S T : Set (Point K)} {H : List (Point K)} (hH : HullCycle S H)
    (hsub : T ⊆ S) (hvertices : ∀ p ∈ H, p ∈ T) : HullCycle T H where
  nonempty hne := hH.nonempty (hne.mono hsub)
  nodup := hH.nodup
  edges := by
    have hedges := hH.edges
    cases H with
    | nil => trivial
    | cons a t =>
        rw [Cycle.chain_coe_cons] at hedges ⊢
        have hmem : ∀ p ∈ a :: (t ++ [a]), p ∈ T := by
          intro p hp
          apply hvertices
          simpa [or_comm, or_assoc] using hp
        refine hedges.imp_of_mem_imp fun x y hx hy hxy => ?_
        exact ⟨hmem x hx, hmem y hy, fun p hp => hxy.support p (hsub hp)⟩

/-! ## §5 — thinned cycles. -/

omit [IsStrictOrderedRing K] in
theorem Thin.cons {a b : Point K} {l m : List (Point K)} (h : Thin b l m) :
    Thin a (b :: l) (b :: m) :=
  .keep (fun _ hd => absurd hd List.not_mem_nil) h

omit [IsStrictOrderedRing K] in
theorem Thin.refl : ∀ (a : Point K) (l : List (Point K)), Thin a l l
  | a, [] => .nil a
  | _, b :: l => (Thin.refl b l).cons

omit [IsStrictOrderedRing K] in
theorem ThinCycle.refl (c : List (Point K)) : ThinCycle c c := by
  cases c with
  | nil => exact Or.inl ⟨rfl, rfl⟩
  | cons a l => exact Or.inr ⟨a, l, l, .refl _, .refl _, .refl a _⟩

omit [IsStrictOrderedRing K] in
/-- What is left out of a walk is between two points that are kept. -/
theorem Thin.between {a : Point K} {l m : List (Point K)} (h : Thin a l m) :
    (∀ p ∈ m, p ∈ l) ∧ ∀ p ∈ l, ∃ x ∈ a :: m, ∃ y ∈ a :: m, OnSegment x y p := by
  induction h with
  | nil a => exact ⟨fun p hp => hp, fun p hp => absurd hp List.not_mem_nil⟩
  | @keep a b ds l m hds _ ih =>
      obtain ⟨hkept, hbetween⟩ := ih
      constructor
      · intro p hp
        rcases List.mem_cons.mp hp with rfl | hp
        · exact List.mem_append_right ds List.mem_cons_self
        · exact List.mem_append_right ds (List.mem_cons_of_mem b (hkept p hp))
      · intro p hp
        rcases List.mem_append.mp hp with hp | hp
        · exact ⟨a, by simp, b, by simp, hds p hp⟩
        · rcases List.mem_cons.mp hp with rfl | hp
          · exact ⟨p, by simp, p, by simp, onSegment_left p p⟩
          · obtain ⟨x, hx, y, hy, hseg⟩ := hbetween p hp
            exact ⟨x, List.mem_cons_of_mem a hx, y, List.mem_cons_of_mem a hy, hseg⟩

omit [IsStrictOrderedRing K] in
theorem ThinCycle.between {c k : List (Point K)} (h : ThinCycle c k) :
    (∀ p ∈ k, p ∈ c) ∧ ∀ p ∈ c, ∃ x ∈ k, ∃ y ∈ k, OnSegment x y p := by
  rcases h with ⟨rfl, rfl⟩ | ⟨a, l, m, hc, hk, hthin⟩
  · exact ⟨fun p hp => hp, fun p hp => absurd hp List.not_mem_nil⟩
  · obtain ⟨hkept, hbetween⟩ := hthin.between
    -- the walk ends where it starts, so the two lists have the points of the cycles
    have hpoints : ∀ (l : List (Point K)) (p : Point K), p ∈ a :: l ↔ p ∈ l ++ [a] := by
      intro l p
      simp [or_comm]
    constructor
    · intro p hp
      rw [hc.mem_iff, hpoints]
      exact hkept p ((hpoints m p).mp (hk.mem_iff.mp hp))
    · intro p hp
      obtain ⟨x, hx, y, hy, hseg⟩ := hbetween p ((hpoints l p).mp (hc.mem_iff.mp hp))
      have hmem : ∀ z ∈ a :: (m ++ [a]), z ∈ k := fun z hz => by
        rw [hk.mem_iff]
        simpa [or_comm, or_assoc] using hz
      exact ⟨x, hmem x hx, y, hmem y hy, hseg⟩

/-- **A thinned cycle has the hull of the cycle.** -/
theorem IsHull.thin {c k H : List (Point K)} (hH : IsHull {p | p ∈ c} H) (hthin : ThinCycle c k) :
    IsHull {p | p ∈ k} H := by
  obtain ⟨hkept, hbetween⟩ := hthin.between
  have hcycle : ∀ H, HullCycle {p | p ∈ c} H → HullCycle {p | p ∈ k} H := by
    intro H hH
    refine hH.restrict hkept fun d hd => ?_
    have hdc : d ∈ c := (cycle_neighbours hH.edges hd).1.choose_spec.2.source_mem
    obtain ⟨x, hx, y, hy, hseg⟩ := hbetween d hdc
    rcases hH.not_between (hkept x hx) (hkept y hy) hd hseg with rfl | rfl
    · exact hx
    · exact hy
  exact hH.imp (hcycle H) (hcycle H.reverse)

end NinjaVision.Lib
