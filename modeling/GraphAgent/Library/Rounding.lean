import Mathlib.Algebra.Order.Floor.Ring
import Mathlib.Algebra.Order.Field.Basic
import Mathlib.Tactic.Linarith
import Mathlib.Tactic.Ring

/-!
# Rounding to integers

Rounding towards zero, rounding to the nearest integer with ties to even, and values between
two neighbours, over any ordered field with a floor.
-/

namespace GraphAgent.Rounding

variable {K : Type*} [Field K] [LinearOrder K] [IsStrictOrderedRing K] [FloorRing K]

section Truncate

/-- Rounding towards zero. -/
def truncate (x : K) : ℤ := if 0 ≤ x then ⌊x⌋ else ⌈x⌉

variable {x : K} {n : ℤ}

omit [IsStrictOrderedRing K] in
theorem truncate_of_nonneg (h : 0 ≤ x) : truncate x = ⌊x⌋ := if_pos h

@[simp] theorem truncate_intCast (n : ℤ) : truncate (n : K) = n := by
  unfold truncate
  rw [Int.floor_intCast, Int.ceil_intCast, ite_self]

/-- Rounding towards zero does not go below an integer. -/
theorem le_truncate (h : (n : K) ≤ x) : n ≤ truncate x := by
  unfold truncate
  split
  · exact Int.le_floor.mpr h
  · exact Int.cast_le.mp (h.trans (Int.le_ceil x))

theorem truncate_le (h : x ≤ n) : truncate x ≤ n := by
  unfold truncate
  split
  · exact Int.cast_le.mp ((Int.floor_le x).trans h)
  · exact Int.ceil_le.mpr h

end Truncate

section HalfEven

/-- Rounding to the nearest integer, and to the even one of two that are as near. -/
def halfEven (x : K) : ℤ :=
  if Int.fract x < 1 / 2 then ⌊x⌋
  else if 1 / 2 < Int.fract x then ⌊x⌋ + 1
  else if ⌊x⌋ % 2 = 0 then ⌊x⌋
  else ⌊x⌋ + 1

/-- Rounding moves a number by a half at most. -/
theorem abs_halfEven_sub_le (x : K) : |(halfEven x : K) - x| ≤ 1 / 2 := by
  have hx : (⌊x⌋ : K) = x - Int.fract x := eq_sub_of_add_eq (Int.floor_add_fract x)
  have hnonneg := Int.fract_nonneg x
  have hlt := Int.fract_lt_one x
  unfold halfEven
  rw [abs_le]
  split_ifs <;> push_cast <;> rw [hx] <;> constructor <;> linarith

theorem halfEven_nonpos {x : K} (h : x ≤ 0) : halfEven x ≤ 0 := by
  have hnear := (abs_le.mp (abs_halfEven_sub_le x)).2
  have hlt : (halfEven x : K) < 1 := by linarith
  exact Int.lt_add_one_iff.mp (by exact_mod_cast hlt)

end HalfEven

section Between

variable {a b t : K}

omit [FloorRing K] in
/-- A value that is taken on the way from one number to another lies between them. -/
theorem between_min_max (h0 : 0 ≤ t) (h1 : t ≤ 1) :
    min a b ≤ a * (1 - t) + b * t ∧ a * (1 - t) + b * t ≤ max a b := by
  have hrest : 0 ≤ 1 - t := sub_nonneg.mpr h1
  constructor
  · calc min a b = min a b * (1 - t) + min a b * t := by ring
      _ ≤ a * (1 - t) + b * t :=
        add_le_add (mul_le_mul_of_nonneg_right (min_le_left a b) hrest)
          (mul_le_mul_of_nonneg_right (min_le_right a b) h0)
  · calc a * (1 - t) + b * t ≤ max a b * (1 - t) + max a b * t :=
        add_le_add (mul_le_mul_of_nonneg_right (le_max_left a b) hrest)
          (mul_le_mul_of_nonneg_right (le_max_right a b) h0)
      _ = max a b := by ring

/-- It still does so when it is rounded towards zero, if the two numbers are integers. -/
theorem truncate_between {m n : ℤ} (h0 : 0 ≤ t) (h1 : t ≤ 1) :
    min m n ≤ truncate ((m : K) * (1 - t) + n * t) ∧
      truncate ((m : K) * (1 - t) + n * t) ≤ max m n := by
  obtain ⟨hlow, hhigh⟩ := between_min_max (K := K) (a := m) (b := n) h0 h1
  exact ⟨le_truncate (by push_cast; exact hlow), truncate_le (by push_cast; exact hhigh)⟩

end Between

end GraphAgent.Rounding
