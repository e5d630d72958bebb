/-
# NinjaVision.Lib.Rounding — double arithmetic with every result rounded.

A `Rounding` to `p` binary digits is a monotone map that fixes what has so few: the numbers
`m * 2 ^ e` with `|m| ≤ 2 ^ p`, for exponents of size up to `w`. This is true of every rounding mode
of IEEE 754, and it is all that is used here. Integers are computed exactly up to `2 ^ p`
(`fl_mul_int`, `fl_add_int`, `fl_sub_int`), a bound that is fixed is kept (`le_round`, `round_le`),
and a result of size up to `2 ^ k` is off by `2 ^ (k - p)` at most (`abs_round_sub_le`): it lies
between two neighbours of a grid that is fixed.

`towardNegative` is the mode that rounds down, as a function: the greatest number with so few digits
that is not above the argument.
-/
import NinjaVision.Lib.ExactDouble
import Mathlib.Algebra.Order.Floor.Ring
import Mathlib.Data.Int.Log
import Mathlib.Order.Bounds.Basic
import Mathlib.Tactic.Linarith
import Mathlib.Tactic.Positivity
import Mathlib.Tactic.Ring

namespace NinjaVision.Lib

variable {K : Type*} [Field K] [LinearOrder K]

/-! ## §1 — rounding. -/

/-- Rounding to `p` binary digits, for exponents of size up to `w`. -/
structure Rounding (K : Type*) [Field K] [LinearOrder K] (p w : ℕ) where
  round : K → K
  monotone : Monotone round
  exact : ∀ m e : ℤ, |m| ≤ 2 ^ p → |e| ≤ w → round (m * 2 ^ e) = m * 2 ^ e

namespace Rounding

variable {p w : ℕ} (R : Rounding K p w)

theorem round_int {n : ℤ} (h : |n| ≤ 2 ^ p) : R.round n = n := by
  have hexact := R.exact n 0 h (by simp)
  rwa [zpow_zero, mul_one] at hexact

@[simp] theorem round_zero : R.round 0 = 0 := by
  have hexact := R.round_int (n := 0) (by simp)
  rwa [Int.cast_zero] at hexact

/-- A quotient by a power of two is fixed. -/
theorem round_dyadic {n : ℤ} {k : ℕ} (hn : |n| ≤ 2 ^ p) (hk : k ≤ w) :
    R.round (n / 2 ^ k) = n / 2 ^ k := by
  have hexact := R.exact n (-k) hn (by simpa using hk)
  rwa [zpow_neg, zpow_natCast, ← div_eq_mul_inv] at hexact

/-- A lower bound that is fixed is kept. -/
theorem le_round {r x : K} (hr : R.round r = r) (h : r ≤ x) : r ≤ R.round x := by
  rw [← hr]
  exact R.monotone h

/-- An upper bound that is fixed is kept. -/
theorem round_le {r x : K} (hr : R.round r = r) (h : x ≤ r) : R.round x ≤ r := by
  rw [← hr]
  exact R.monotone h

/-- A number between two quotients by a power of two is rounded to one between them. -/
theorem round_between {x : K} (n n' : ℤ) (k : ℕ) (hn : |n| ≤ 2 ^ p) (hn' : |n'| ≤ 2 ^ p)
    (hk : k ≤ w) (hlow : n / 2 ^ k ≤ x) (hhigh : x ≤ n' / 2 ^ k) :
    n / 2 ^ k ≤ R.round x ∧ R.round x ≤ n' / 2 ^ k :=
  ⟨R.le_round (R.round_dyadic hn hk) hlow, R.round_le (R.round_dyadic hn' hk) hhigh⟩

/-- **The error of rounding**: a number of size up to `2 ^ k` lies between two neighbours of the
grid of width `2 ^ (k - p)`, which is fixed. -/
theorem abs_round_sub_le [IsStrictOrderedRing K] [FloorRing K] {k : ℤ} {x : K} (hk : |k - p| ≤ w)
    (hx : |x| ≤ 2 ^ k) : |R.round x - x| ≤ 2 ^ (k - p) := by
  set g : K := 2 ^ (k - p) with hg
  have hgpos : 0 < g := zpow_pos two_pos _
  have htop : (2 : K) ^ k = ((2 ^ p : ℤ) : K) * g := by
    rw [hg, Int.cast_pow, Int.cast_ofNat, ← zpow_natCast, ← zpow_add₀ two_ne_zero]
    congr 1
    omega
  obtain ⟨hlow, hhigh⟩ := abs_le.mp hx
  set n := ⌊x / g⌋ with hn
  have hbelow : n * g ≤ x := (le_div_iff₀ hgpos).mp (Int.floor_le _)
  have habove : x ≤ (n + 1 : ℤ) * g := by
    have h := (Int.lt_floor_add_one (x / g)).le
    rw [div_le_iff₀ hgpos] at h
    exact_mod_cast h
  have hmin : -2 ^ p ≤ n := by
    rw [hn, Int.le_floor, le_div_iff₀ hgpos, Int.cast_neg, neg_mul, ← htop]
    exact hlow
  have hmax : n ≤ 2 ^ p := by
    have h : (n : K) ≤ ((2 ^ p : ℤ) : K) :=
      le_of_mul_le_mul_right (hbelow.trans (htop ▸ hhigh)) hgpos
    exact_mod_cast h
  have hleft := R.le_round (R.exact n _ (abs_le.mpr ⟨hmin, hmax⟩) hk) hbelow
  rcases hmax.eq_or_lt with heq | hlt
  · -- at the end of the grid the number is on it
    have hx : x = n * g := le_antisymm (by rw [heq, ← htop]; exact hhigh) hbelow
    rw [hx, R.exact n _ (by rw [heq, abs_of_nonneg (by positivity)]) hk, sub_self, abs_zero]
    exact hgpos.le
  · have hright := R.round_le (R.exact (n + 1) _ (abs_le.mpr ⟨by omega, by omega⟩) hk) habove
    rw [Int.cast_add, Int.cast_one, add_mul, one_mul] at habove hright
    rw [abs_le]
    constructor <;> linarith

/-- The same between two bounds, with natural exponents. -/
theorem round_near [IsStrictOrderedRing K] [FloorRing K] {k : ℕ} {x : K} (hk : k ≤ p) (hp : p ≤ w)
    (hlow : -2 ^ k ≤ x) (hhigh : x ≤ 2 ^ k) :
    x - 2 ^ k / 2 ^ p ≤ R.round x ∧ R.round x ≤ x + 2 ^ k / 2 ^ p := by
  have hsize : |x| ≤ (2 : K) ^ (k : ℤ) := by
    rw [zpow_natCast]
    exact abs_le.mpr ⟨hlow, hhigh⟩
  have herror := R.abs_round_sub_le (abs_le.mpr ⟨by omega, by omega⟩) hsize
  rw [zpow_sub₀ two_ne_zero, zpow_natCast, zpow_natCast] at herror
  obtain ⟨hmin, hmax⟩ := abs_le.mp herror
  constructor <;> linarith

/-! ## §2 — rounded results. -/

/-- The rounded result of an operation; infinities and NaN stay. -/
def fl : ExactDouble K → ExactDouble K
  | .finite v => .finite (R.round v)
  | .inf s => .inf s
  | .nan => .nan

@[simp] theorem fl_finite (v : K) : R.fl (.finite v) = .finite (R.round v) := rfl

@[simp] theorem fl_inf (s : Bool) : R.fl (.inf s) = .inf s := rfl

@[simp] theorem fl_nan : R.fl .nan = .nan := rfl

theorem fl_mul_int {a b : ℤ} (h : |a * b| ≤ 2 ^ p) :
    R.fl (.finite (a : K) * .finite (b : K)) = .finite ((a * b : ℤ) : K) := by
  rw [ExactDouble.mul_finite, ← Int.cast_mul, fl_finite, R.round_int h]

theorem fl_add_int {a b : ℤ} (h : |a + b| ≤ 2 ^ p) :
    R.fl (.finite (a : K) + .finite (b : K)) = .finite ((a + b : ℤ) : K) := by
  rw [ExactDouble.add_finite, ← Int.cast_add, fl_finite, R.round_int h]

theorem fl_sub_int {a b : ℤ} (h : |a - b| ≤ 2 ^ p) :
    R.fl (.finite (a : K) - .finite (b : K)) = .finite ((a - b : ℤ) : K) := by
  rw [ExactDouble.sub_finite, ← Int.cast_sub, fl_finite, R.round_int h]

end Rounding

/-! ## §3 — rounding down. -/

/-- The numbers with `p` binary digits. -/
def Digits (p : ℕ) (x : K) : Prop := ∃ m e : ℤ, |m| ≤ 2 ^ p ∧ x = m * ((2 : ℕ) : K) ^ e

omit [LinearOrder K] in
theorem digits_iff {p : ℕ} {x : K} : Digits p x ↔ ∃ m e : ℤ, |m| ≤ 2 ^ p ∧ x = m * 2 ^ e := by
  simp only [Digits, Nat.cast_ofNat]

theorem monotone_of_greatest {p : ℕ} {f : K → K}
    (h : ∀ x, IsGreatest {r | Digits p r ∧ r ≤ x} (f x)) : Monotone f := by
  intro x y hxy
  obtain ⟨hdigits, hle⟩ := (h x).1
  exact (h y).2 ⟨hdigits, hle.trans hxy⟩

theorem exact_of_greatest {p : ℕ} {f : K → K} (h : ∀ x, IsGreatest {r | Digits p r ∧ r ≤ x} (f x))
    (w : ℕ) : ∀ m e : ℤ, |m| ≤ 2 ^ p → |e| ≤ w → f (m * 2 ^ e) = m * 2 ^ e := by
  intro m e hm _
  refine le_antisymm (h _).1.2 ((h _).2 ⟨?_, le_rfl⟩)
  exact digits_iff.mpr ⟨m, e, hm, rfl⟩

/-- A function that finds the greatest number with `p` digits that is not above its argument is a
rounding. -/
def Rounding.ofGreatest {p : ℕ} (w : ℕ) (f : K → K)
    (h : ∀ x, IsGreatest {r | Digits p r ∧ r ≤ x} (f x)) :
    Rounding K p w where
  round := f
  monotone := monotone_of_greatest h
  exact := exact_of_greatest h w

section Down

variable [IsStrictOrderedRing K] [FloorRing K]

/-- The width of the grid of numbers with `q + 1` digits around `x`. -/
def gridAt (q : ℕ) (x : K) : K := ((2 : ℕ) : K) ^ (Int.log 2 |x| - q)

/-- The greatest number with `q + 1` digits that is not above `x`. -/
def roundDown (q : ℕ) (x : K) : K := ⌊x / gridAt q x⌋ * gridAt q x

omit [IsStrictOrderedRing K] in
theorem gridAt_eq (q : ℕ) (x : K) : gridAt q x = 2 ^ (Int.log 2 |x| - q) := by
  rw [gridAt, Nat.cast_ofNat]

theorem gridAt_pos (q : ℕ) (x : K) : 0 < gridAt q x := by
  rw [gridAt_eq]
  exact zpow_pos two_pos _

/-- A number is between two powers of two, as counted on its grid. -/
theorem gridAt_mul_le (q : ℕ) {x : K} (hx : x ≠ 0) :
    2 ^ q * gridAt q x ≤ |x| ∧ |x| < 2 ^ (q + 1) * gridAt q x := by
  have hlow := Int.zpow_log_le_self (b := 2) (by norm_num) (abs_pos.mpr hx)
  have hhigh := Int.lt_zpow_succ_log_self (b := 2) (by norm_num) |x|
  have hscale : ∀ n : ℕ, (2 : K) ^ n * gridAt q x = 2 ^ (Int.log 2 |x| + (n - q)) := by
    intro n
    rw [gridAt_eq, ← zpow_natCast, ← zpow_add₀ two_ne_zero]
    congr 1
    ring
  rw [hscale, hscale]
  push_cast at hlow hhigh ⊢
  rw [sub_self, add_zero, add_sub_cancel_left]
  exact ⟨hlow, hhigh⟩

/-- What has `q + 1` digits and is not above `x` is not above some number of the grid that is not
above `x`. -/
theorem exists_grid {q : ℕ} {x r : K} (hx : x ≠ 0) (hr : Digits (q + 1) r) (hle : r ≤ x) :
    ∃ z : ℤ, r ≤ z * gridAt q x ∧ z * gridAt q x ≤ x := by
  obtain ⟨m, e, hm, rfl⟩ := digits_iff.mp hr
  obtain ⟨hlow, _⟩ := gridAt_mul_le q hx
  rcases le_or_gt (Int.log 2 |x| - q) e with hcoarse | hfine
  · -- a multiple of a coarser grid is on the grid
    obtain ⟨n, hn⟩ := Int.le.dest hcoarse
    have hpower : ((m * 2 ^ n : ℤ) : K) * gridAt q x = m * 2 ^ e := by
      rw [gridAt_eq, ← hn, Int.cast_mul, Int.cast_pow, Int.cast_ofNat, mul_assoc, ← zpow_natCast,
        ← zpow_add₀ two_ne_zero, add_comm]
    exact ⟨m * 2 ^ n, hpower.ge, hpower.le.trans hle⟩
  · -- a finer one is not far enough from zero to reach past the power of two next to `x`
    have hpower : (0 : K) < 2 ^ e := zpow_pos two_pos e
    have hsize : |(m : K) * 2 ^ e| ≤ 2 ^ q * gridAt q x := by
      have hm' : |(m : K)| ≤ 2 ^ (q + 1) := by exact_mod_cast hm
      calc |(m : K) * 2 ^ e|
          = |(m : K)| * 2 ^ e := by rw [abs_mul, abs_of_pos hpower]
        _ ≤ 2 ^ (q + 1) * 2 ^ (Int.log 2 |x| - q - 1) :=
            mul_le_mul hm' (zpow_le_zpow_right₀ one_le_two (by omega)) hpower.le (by positivity)
        _ = 2 ^ q * gridAt q x := by
            rw [gridAt_eq, zpow_sub_one₀ two_ne_zero, pow_succ]
            ring
    obtain ⟨hmin, hmax⟩ := abs_le.mp hsize
    rcases lt_or_gt_of_ne hx with hneg | hpos
    · refine ⟨-2 ^ q, ?_, ?_⟩
      · rw [abs_of_neg hneg] at hlow
        push_cast
        linarith
      · push_cast
        linarith
    · rw [abs_of_pos hpos] at hlow
      exact ⟨2 ^ q, by exact_mod_cast hmax, by exact_mod_cast hlow⟩

theorem roundDown_isGreatest (q : ℕ) (x : K) :
    IsGreatest {r | Digits (q + 1) r ∧ r ≤ x} (roundDown q x) := by
  have hgrid := gridAt_pos q x
  have hbelow : roundDown q x ≤ x := (le_div_iff₀ hgrid).mp (Int.floor_le _)
  by_cases hx : x = 0
  · subst hx
    have hzero : roundDown q (0 : K) = 0 := by simp [roundDown]
    rw [hzero]
    exact ⟨⟨digits_iff.mpr ⟨0, 0, by simp, by simp⟩, le_rfl⟩, fun r hr => hr.2⟩
  · obtain ⟨_, hhigh⟩ := gridAt_mul_le q hx
    refine ⟨⟨⟨⌊x / gridAt q x⌋, Int.log 2 |x| - q, ?_, rfl⟩, hbelow⟩, ?_⟩
    · have hdiv : |x / gridAt q x| < ((2 ^ (q + 1) : ℤ) : K) := by
        rw [abs_div, abs_of_pos hgrid, div_lt_iff₀ hgrid]
        exact_mod_cast hhigh
      obtain ⟨hmin, hmax⟩ := abs_lt.mp hdiv
      refine abs_le.mpr ⟨Int.le_floor.mpr ?_, ?_⟩
      · exact_mod_cast hmin.le
      · have hfloor : ((⌊x / gridAt q x⌋ : ℤ) : K) < ((2 ^ (q + 1) : ℤ) : K) :=
          (Int.floor_le _).trans_lt hmax
        exact le_of_lt (by exact_mod_cast hfloor)
    · rintro r ⟨hr, hle⟩
      obtain ⟨z, hz, hzx⟩ := exists_grid hx hr hle
      have hfloor : z ≤ ⌊x / gridAt q x⌋ := Int.le_floor.mpr ((le_div_iff₀ hgrid).mpr hzx)
      refine hz.trans (mul_le_mul_of_nonneg_right ?_ hgrid.le)
      exact_mod_cast hfloor

/-- **Rounding down** to `q + 1` digits. -/
def towardNegative (q w : ℕ) : Rounding K (q + 1) w :=
  .ofGreatest w (roundDown q) (roundDown_isGreatest q)

end Down

end NinjaVision.Lib
