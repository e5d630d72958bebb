/-
# NinjaVision.Lib.ExactDouble — double arithmetic read exactly, with its special values.

A value is a finite element of an ordered field, an infinity or NaN. Finite arithmetic is exact
(nothing is rounded); the special cases are those of IEEE 754: `0/0` and `∞ - ∞` are NaN, a nonzero
number over zero is an infinity, a comparison with NaN is false. Zero carries no sign, so a quotient
by zero takes the sign of its numerator.

`lt_quot_iff` and `quot_lt_iff` are the two rules by which a comparison of a quotient with a
constant turns into a division-free condition that is right for a zero divisor as well.
-/
import Mathlib.Algebra.Order.Field.Basic

namespace NinjaVision.Lib

/-- A double whose finite values are exact elements of `K`. -/
inductive ExactDouble (K : Type*) where
  | nan
  | inf (negative : Bool)
  | finite (v : K)
  deriving DecidableEq, Repr

namespace ExactDouble

variable {K : Type*}

/-! ## §1 — sign, sum and order. -/

section Ring

variable [Ring K]

protected def neg : ExactDouble K → ExactDouble K
  | nan => nan
  | inf s => inf (!s)
  | finite v => finite (-v)

protected def add : ExactDouble K → ExactDouble K → ExactDouble K
  | nan, _ => nan
  | _, nan => nan
  | inf s, inf t => if s = t then inf s else nan
  | inf s, finite _ => inf s
  | finite _, inf t => inf t
  | finite v, finite w => finite (v + w)

instance : Neg (ExactDouble K) := ⟨ExactDouble.neg⟩
instance : Add (ExactDouble K) := ⟨ExactDouble.add⟩
instance : Sub (ExactDouble K) := ⟨fun a b => a + -b⟩

@[simp] theorem neg_finite (v : K) : -(finite v) = finite (-v) := rfl

@[simp] theorem add_finite (v w : K) : finite v + finite w = finite (v + w) := rfl

@[simp] theorem sub_finite (v w : K) : finite v - finite w = finite (v - w) := by
  rw [sub_eq_add_neg]; rfl

end Ring

section Order

variable [LinearOrder K]

/-- The order of doubles: NaN is unordered. -/
protected def lt : ExactDouble K → ExactDouble K → Prop
  | nan, _ => False
  | _, nan => False
  | inf s, inf t => s = true ∧ t = false
  | inf s, finite _ => s = true
  | finite _, inf t => t = false
  | finite v, finite w => v < w

instance : LT (ExactDouble K) := ⟨ExactDouble.lt⟩

instance decidableLt : ∀ a b : ExactDouble K, Decidable (a < b)
  | nan, _ => inferInstanceAs (Decidable False)
  | inf _, nan => inferInstanceAs (Decidable False)
  | finite _, nan => inferInstanceAs (Decidable False)
  | inf s, inf t => inferInstanceAs (Decidable (s = true ∧ t = false))
  | inf s, finite _ => inferInstanceAs (Decidable (s = true))
  | finite _, inf t => inferInstanceAs (Decidable (t = false))
  | finite v, finite w => inferInstanceAs (Decidable (v < w))

@[simp] theorem finite_lt_finite (v w : K) : finite v < finite w ↔ v < w := Iff.rfl

@[simp] theorem not_nan_lt (a : ExactDouble K) : ¬ (nan : ExactDouble K) < a := id

@[simp] theorem not_lt_nan (a : ExactDouble K) : ¬ a < (nan : ExactDouble K) := by
  cases a <;> exact id

@[simp] theorem finite_lt_posInf (v : K) : (finite v : ExactDouble K) < inf false := rfl

@[simp] theorem not_posInf_lt_finite (v : K) : ¬ (inf false : ExactDouble K) < finite v :=
  Bool.false_ne_true

end Order

/-! ## §2 — product and quotient. -/

variable [Field K] [LinearOrder K]

protected def mul : ExactDouble K → ExactDouble K → ExactDouble K
  | nan, _ => nan
  | _, nan => nan
  | inf s, inf t => inf (s ^^ t)
  | inf s, finite w => if w = 0 then nan else inf (s ^^ decide (w < 0))
  | finite v, inf t => if v = 0 then nan else inf (decide (v < 0) ^^ t)
  | finite v, finite w => finite (v * w)

protected def div : ExactDouble K → ExactDouble K → ExactDouble K
  | nan, _ => nan
  | _, nan => nan
  | inf _, inf _ => nan
  | inf s, finite w => inf (s ^^ decide (w < 0))
  | finite _, inf _ => finite 0
  | finite v, finite w =>
      -- the zero divisor has no sign of its own
      if w = 0 then (if v = 0 then nan else inf (decide (v < 0))) else finite (v / w)

instance : Mul (ExactDouble K) := ⟨ExactDouble.mul⟩
instance : Div (ExactDouble K) := ⟨ExactDouble.div⟩

@[simp] theorem mul_finite (v w : K) : finite v * finite w = finite (v * w) := rfl

theorem div_finite (v : K) {w : K} (hw : w ≠ 0) : finite v / finite w = finite (v / w) :=
  if_neg hw

theorem div_zero_of_pos {v : K} (hv : 0 < v) : finite v / finite 0 = inf false := by
  show (if (0 : K) = 0 then _ else _) = _
  rw [if_pos rfl, if_neg hv.ne', decide_eq_false (not_lt.mpr hv.le)]

@[simp] theorem zero_div_zero : (finite 0 / finite 0 : ExactDouble K) = nan := by
  show (if (0 : K) = 0 then _ else _) = _
  rw [if_pos rfl, if_pos rfl]

/-! ## §3 — comparing a quotient without dividing. -/

variable [IsStrictOrderedRing K]

/-- A constant is below a quotient with nonnegative parts exactly when the divisor is positive and
the cross product says so, or the quotient is `+∞`. -/
theorem lt_quot_iff {c v w : K} (hv : 0 ≤ v) (hw : 0 ≤ w) :
    finite c < finite v / finite w ↔ 0 < w ∧ c * w < v ∨ w = 0 ∧ 0 < v := by
  rcases hw.eq_or_lt with rfl | hw
  · rcases hv.eq_or_lt with rfl | hv
    · simp
    · simp [div_zero_of_pos hv, hv]
  · rw [div_finite v hw.ne', finite_lt_finite, lt_div_iff₀ hw]
    simp [hw, hw.ne']

/-- A quotient with nonnegative parts is below a constant exactly when the divisor is positive and
the cross product says so: neither `+∞` nor the NaN of `0/0` is below anything finite. -/
theorem quot_lt_iff {c v w : K} (hv : 0 ≤ v) (hw : 0 ≤ w) :
    finite v / finite w < finite c ↔ 0 < w ∧ v < c * w := by
  rcases hw.eq_or_lt with rfl | hw
  · rcases hv.eq_or_lt with rfl | hv
    · simp
    · simp [div_zero_of_pos hv]
  · rw [div_finite v hw.ne', finite_lt_finite, div_lt_iff₀ hw]
    simp [hw]

end ExactDouble

end NinjaVision.Lib
