import Mathlib.Algebra.BigOperators.Group.List.Basic
import Mathlib.Algebra.Order.BigOperators.Group.List
import Mathlib.Algebra.BigOperators.Ring.List
import Mathlib.Algebra.Order.Field.Basic
import Mathlib.Tactic.FieldSimp
import Mathlib.Tactic.Linarith
import Mathlib.Tactic.Ring

/- Weights: lists of non-negative numbers that sum to one, and the averages they
   make.

   Dividing non-negative numbers by their sum gives weights (`Weights.rescale`),
   as does mixing weights with the uniform ones (`Weights.mix`). An average by
   weights is monotone in every value (`dot_mono`), and lies between the bounds
   of the values (`Weights.dot_mem`). -/
namespace MyMalloc

variable {K : Type} [Field K] [LinearOrder K] [IsStrictOrderedRing K]

/-- Non-negative numbers with sum one. -/
structure Weights (ws : List K) : Prop where
  nonneg : ∀ w ∈ ws, 0 ≤ w
  sum : ws.sum = 1

/-- Each number divided by the sum of all. -/
def rescale (ws : List K) : List K := ws.map (· / ws.sum)

/-- The average of `xs` by `ws`. -/
def dot (ws xs : List K) : K := (List.zipWith (· * ·) ws xs).sum

omit [LinearOrder K] [IsStrictOrderedRing K] in
@[simp] theorem rescale_length (ws : List K) : (rescale ws).length = ws.length := List.length_map ..

omit [LinearOrder K] [IsStrictOrderedRing K] in
@[simp] theorem dot_cons (w x : K) (ws xs : List K) : dot (w :: ws) (x :: xs) = w * x + dot ws xs := rfl

theorem Weights.rescale {ws : List K} (h : ∀ w ∈ ws, 0 ≤ w) (hs : ws.sum ≠ 0) :
    Weights (rescale ws) where
  nonneg := by
    intro w hw
    obtain ⟨v, hv, rfl⟩ := List.mem_map.mp hw
    exact div_nonneg (h v hv) (List.sum_nonneg h)
  sum := by
    have hdiv : ws.map (· / ws.sum) = ws.map (· * ws.sum⁻¹) :=
      List.map_congr_left fun w _ => div_eq_mul_inv ..
    rw [MyMalloc.rescale, hdiv, List.sum_map_mul_right, List.map_id', mul_inv_cancel₀ hs]

theorem weights_uniform {n : Nat} (hn : n ≠ 0) : Weights (List.replicate n (1 / (n : K))) where
  nonneg := by
    intro w hw
    rw [List.eq_of_mem_replicate hw]
    positivity
  sum := by
    have hn : (n : K) ≠ 0 := Nat.cast_ne_zero.mpr hn
    rw [List.sum_replicate, nsmul_eq_mul]
    field_simp

omit [LinearOrder K] [IsStrictOrderedRing K] in
theorem sum_mix (r c : K) (ws : List K) :
    (ws.map fun w => (1 - r) * w + r * c).sum = (1 - r) * ws.sum + r * c * ws.length := by
  induction ws with
  | nil => simp
  | cons w ws ih =>
    simp only [List.map_cons, List.sum_cons, ih, List.length_cons, Nat.cast_add, Nat.cast_one]
    ring

/-- A mixture with the uniform weights. -/
theorem Weights.mix {ws : List K} (h : Weights ws) {r : K} (h0 : 0 ≤ r) (h1 : r ≤ 1) :
    Weights (ws.map fun w => (1 - r) * w + r * (1 / ws.length)) where
  nonneg := by
    intro w hw
    obtain ⟨v, hv, rfl⟩ := List.mem_map.mp hw
    have hv := mul_nonneg (sub_nonneg.mpr h1) (h.nonneg v hv)
    have hu : 0 ≤ r * (1 / (ws.length : K)) := by positivity
    exact add_nonneg hv hu
  sum := by
    have hne : (ws.length : K) ≠ 0 := by
      rw [Nat.cast_ne_zero]
      intro hlen
      have hsum := h.sum
      rw [List.length_eq_zero_iff.mp hlen, List.sum_nil] at hsum
      exact zero_ne_one hsum
    rw [sum_mix, h.sum]
    field_simp
    ring

/-- A larger value never lowers the average. -/
theorem dot_mono {ws xs ys : List K} (h : ∀ w ∈ ws, 0 ≤ w) (hxy : List.Forall₂ (· ≤ ·) xs ys) :
    dot ws xs ≤ dot ws ys := by
  induction hxy generalizing ws with
  | nil => exact le_refl _
  | @cons x y xs ys hle _ ih =>
    cases ws with
    | nil => exact le_refl _
    | cons w ws =>
      rw [dot_cons, dot_cons]
      have hw := mul_le_mul_of_nonneg_left hle (h w List.mem_cons_self)
      exact add_le_add hw (ih fun v hv => h v (List.mem_cons_of_mem _ hv))

omit [LinearOrder K] [IsStrictOrderedRing K] in
/-- The average of a constant, by weights that may have any sum. -/
theorem dot_replicate (c : K) (ws : List K) : dot ws (List.replicate ws.length c) = ws.sum * c := by
  induction ws with
  | nil => simp [dot]
  | cons w ws ih =>
    rw [List.length_cons, List.replicate_succ, dot_cons, ih, List.sum_cons]
    ring

/-- The average lies where the values lie. -/
theorem Weights.dot_mem {ws xs : List K} (h : Weights ws) (hlen : xs.length = ws.length) {lo hi : K}
    (hx : ∀ x ∈ xs, lo ≤ x ∧ x ≤ hi) : lo ≤ dot ws xs ∧ dot ws xs ≤ hi := by
  have hconst : ∀ c : K, dot ws (List.replicate xs.length c) = c := fun c => by
    rw [hlen, dot_replicate, h.sum, one_mul]
  have hlo : List.Forall₂ (· ≤ ·) (List.replicate xs.length lo) xs := by
    refine List.forall₂_iff_get.mpr ⟨List.length_replicate, fun i _ hi => ?_⟩
    simpa using (hx _ (List.getElem_mem hi)).1
  have hhi : List.Forall₂ (· ≤ ·) xs (List.replicate xs.length hi) := by
    refine List.forall₂_iff_get.mpr ⟨List.length_replicate.symm, fun i hi _ => ?_⟩
    simpa using (hx _ (List.getElem_mem hi)).2
  constructor
  · have := dot_mono h.nonneg hlo
    rwa [hconst] at this
  · have := dot_mono h.nonneg hhi
    rwa [hconst] at this

end MyMalloc
