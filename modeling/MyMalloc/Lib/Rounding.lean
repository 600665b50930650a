import Mathlib.Data.Nat.Bitwise
import Mathlib.Data.Nat.Log
import Mathlib.Order.Bounds.Basic

/- The next power of two, by spreading bits down.

   `x | x >> 1`, then the result `| >> 2`, and so on: each step doubles how far every
   bit of `x` has been copied down (`SpreadBy.double`). Once they are copied down as
   far as the word is wide, all bits up to the highest one are set, and one more is a
   power of two. -/
namespace MyMalloc

/-- A bit of `y` is set if it is one of the `n` bits down from a bit of `x`. -/
def SpreadBy (n x y : Nat) : Prop := ∀ i, y.testBit i = true ↔ ∃ j < n, x.testBit (i + j) = true

namespace SpreadBy

variable {n x y : Nat}

theorem refl (x : Nat) : SpreadBy 1 x x := by
  intro i
  constructor
  · exact fun h => ⟨0, Nat.one_pos, h⟩
  · rintro ⟨j, hj, h⟩
    obtain rfl : j = 0 := by omega
    exact h

theorem double (h : SpreadBy n x y) : SpreadBy (2 * n) x (y ||| y >>> n) := by
  intro i
  rw [Nat.testBit_or, Nat.testBit_shiftRight, Bool.or_eq_true, h, h]
  constructor
  · rintro (⟨j, hj, hbit⟩ | ⟨j, hj, hbit⟩)
    · exact ⟨j, by omega, hbit⟩
    · exact ⟨n + j, by omega, by rwa [← Nat.add_assoc, Nat.add_comm i n]⟩
  · rintro ⟨j, hj, hbit⟩
    by_cases hlow : j < n
    · exact .inl ⟨j, hlow, hbit⟩
    · refine .inr ⟨j - n, by omega, ?_⟩
      rwa [show n + i + (j - n) = i + j by omega]

/-- Bits spread over the whole word: all of them up to the highest one. -/
theorem eq_two_pow_sub_one (h : SpreadBy n x y) (hx : x < 2^n) (h0 : x ≠ 0) : y = 2^(x.log2 + 1) - 1 := by
  have hlog : x.log2 < n := (Nat.log2_lt h0).mpr hx
  apply Nat.eq_of_testBit_eq
  intro i
  rw [Nat.testBit_two_pow_sub_one, Bool.eq_iff_iff, h, decide_eq_true_iff]
  constructor
  · rintro ⟨j, -, hbit⟩
    by_contra hhigh
    have hlt : x < 2^(i + j) := Nat.lt_of_lt_of_le Nat.lt_log2_self (Nat.pow_le_pow_right (by decide) (by omega))
    rw [Nat.testBit_lt_two_pow hlt] at hbit
    exact absurd hbit (by decide)
  · intro hi
    refine ⟨x.log2 - i, by omega, ?_⟩
    rw [show i + (x.log2 - i) = x.log2 by omega]
    exact Nat.testBit_log2 h0

end SpreadBy

/-- The least power of two that is at least `n`. -/
def powerAbove (n : Nat) : Nat := 2 ^ Nat.clog 2 n

theorem le_powerAbove (n : Nat) : n ≤ powerAbove n := Nat.le_pow_clog (by decide) n

theorem powerAbove_two_pow (k : Nat) : powerAbove (2^k) = 2^k := by
  rw [powerAbove, Nat.clog_pow 2 k (by decide)]

theorem powerAbove_le {n k : Nat} (h : n ≤ 2^k) : powerAbove n ≤ 2^k :=
  Nat.pow_le_pow_right (by decide) ((Nat.clog_le_iff_le_pow (by decide)).mpr h)

theorem isLeast_powerAbove (n : Nat) : IsLeast {p | p.isPowerOfTwo ∧ n ≤ p} (powerAbove n) := by
  refine ⟨⟨⟨_, rfl⟩, le_powerAbove n⟩, ?_⟩
  rintro p ⟨⟨k, rfl⟩, hle⟩
  exact powerAbove_le hle

theorem powerAbove_of_lt {n k : Nat} (hlt : 2^k < n) (hle : n ≤ 2^(k + 1)) : powerAbove n = 2^(k + 1) := by
  have hup : Nat.clog 2 n ≤ k + 1 := (Nat.clog_le_iff_le_pow (by decide)).mpr hle
  have hlow : k < Nat.clog 2 n := (Nat.lt_clog_iff_pow_lt (by decide)).mpr hlt
  rw [powerAbove, show Nat.clog 2 n = k + 1 by omega]

/-- It is one more than the spread bits of the number before. -/
theorem powerAbove_eq {n : Nat} (h : 2 ≤ n) : powerAbove n = 2^((n - 1).log2 + 1) := by
  have hlow : 2^(n - 1).log2 ≤ n - 1 := Nat.log2_self_le (by omega)
  have hup : n - 1 < 2^((n - 1).log2 + 1) := Nat.lt_log2_self
  exact powerAbove_of_lt (by omega) (by omega)

end MyMalloc
