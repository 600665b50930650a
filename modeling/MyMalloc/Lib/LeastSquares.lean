import Mathlib.Algebra.BigOperators.Group.List.Basic
import Mathlib.Algebra.Order.BigOperators.Group.List
import Mathlib.Algebra.Order.Field.Basic
import Mathlib.Tactic.FieldSimp
import Mathlib.Tactic.Linarith
import Mathlib.Tactic.Ring

/- Sums of squares and means.

   Subtracting a number from every member of a list changes the sum of squares
   by a quadratic in that number (`sum_sq_sub`). At the mean, and at any multiple
   of the mean between nothing and twice the mean, the sum does not grow
   (`sum_sq_sub_mean_le`). -/
namespace MyMalloc

variable {K : Type} [Field K]

def mean (l : List K) : K := l.sum / l.length

def sumSq (l : List K) : K := (l.map (· ^ 2)).sum

theorem sumSq_cons (x : K) (l : List K) : sumSq (x :: l) = x ^ 2 + sumSq l := rfl

theorem sum_sq_sub (l : List K) (c : K) :
    sumSq (l.map (· - c)) = sumSq l - 2 * c * l.sum + l.length * c ^ 2 := by
  induction l with
  | nil => simp [sumSq]
  | cons x l ih =>
    rw [List.map_cons, sumSq_cons, ih, sumSq_cons, List.sum_cons, List.length_cons, Nat.cast_add, Nat.cast_one]
    ring

theorem sumSq_split {α : Type} (p : α → Prop) [DecidablePred p] (f : α → K) (a b : K) (l : List α) :
    sumSq (l.map fun x => f x - if p x then a else b) =
      sumSq (((l.filter fun x => p x).map f).map (· - a)) +
        sumSq (((l.filter fun x => ¬ p x).map f).map (· - b)) := by
  induction l with
  | nil => simp [sumSq]
  | cons x l ih =>
    rw [List.map_cons, sumSq_cons, ih]
    by_cases hx : p x
    · rw [if_pos hx, List.filter_cons_of_pos (by simpa using hx), List.filter_cons_of_neg (by simpa using hx),
        List.map_cons, List.map_cons, sumSq_cons]
      ring
    · rw [if_neg hx, List.filter_cons_of_neg (by simpa using hx), List.filter_cons_of_pos (by simpa using hx),
        List.map_cons, List.map_cons, sumSq_cons]
      ring

variable [LinearOrder K] [IsStrictOrderedRing K]

/-- Moving towards the mean, by up to twice the way, does not increase the sum of squares. -/
theorem sum_sq_sub_mean_le (l : List K) {rate : K} (h0 : 0 ≤ rate) (h2 : rate ≤ 2) :
    sumSq (l.map (· - mean l * rate)) ≤ sumSq l := by
  have hsum : l.sum = mean l * l.length := by
    cases l with
    | nil => simp [mean]
    | cons x l =>
      have hne : ((x :: l).length : K) ≠ 0 := Nat.cast_ne_zero.mpr (by simp)
      rw [mean, div_mul_cancel₀ _ hne]
  rw [sum_sq_sub, hsum]
  have hgain : 0 ≤ l.length * mean l ^ 2 * (rate * (2 - rate)) := by
    have hrate : 0 ≤ rate * (2 - rate) := mul_nonneg h0 (sub_nonneg.mpr h2)
    positivity
  calc sumSq l - 2 * (mean l * rate) * (mean l * l.length) + l.length * (mean l * rate) ^ 2
      = sumSq l - l.length * mean l ^ 2 * (rate * (2 - rate)) := by ring
    _ ≤ sumSq l := sub_le_self _ hgain

end MyMalloc
