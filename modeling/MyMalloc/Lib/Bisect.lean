import Mathlib.Tactic.Common

/- Bisection of a table for the first entry that is at least `x`.

   The loop is `while (lo < hi) { mid = (lo + hi) / 2; if (table[mid] < x) lo =
   mid + 1; else hi = mid; }`. It never looks at `table[hi]`, so it answers the
   last index also when no entry is large enough: `le_bisect` needs the last
   entry to cover `x`, and `bisect_of_lt` says what happens otherwise. -/
namespace MyMalloc

/-- The bisection loop; `fuel` bounds the number of rounds. -/
def bisect (table : Nat → Nat) (x : Nat) : Nat → Nat → Nat → Nat
  | 0, lo, _ => lo
  | fuel + 1, lo, hi =>
    if lo < hi then
      let mid := (lo + hi) / 2
      if table mid < x then bisect table x fuel (mid + 1) hi else bisect table x fuel lo mid
    else lo

variable {table : Nat → Nat} {x : Nat}

/-- The answer lies in the interval, and is the upper end or an entry that covers `x`. -/
theorem bisect_spec (fuel : Nat) {lo hi : Nat} (h : lo ≤ hi) (hf : hi - lo ≤ fuel) :
    lo ≤ bisect table x fuel lo hi ∧ bisect table x fuel lo hi ≤ hi ∧
      (bisect table x fuel lo hi = hi ∨ x ≤ table (bisect table x fuel lo hi)) := by
  induction fuel generalizing lo hi with
  | zero =>
    have e : lo = hi := by omega
    subst e
    simp [bisect]
  | succ fuel ih =>
    rw [bisect]
    split
    case isFalse hlt =>
      have e : lo = hi := by omega
      exact ⟨Nat.le_refl _, h, .inl e⟩
    case isTrue hlt =>
      dsimp only
      split
      case isTrue hmid =>
        obtain ⟨h1, h2, h3⟩ := @ih ((lo + hi) / 2 + 1) hi (by omega) (by omega)
        exact ⟨by omega, h2, h3⟩
      case isFalse hmid =>
        obtain ⟨h1, h2, h3⟩ := @ih lo ((lo + hi) / 2) (by omega) (by omega)
        refine ⟨h1, by omega, ?_⟩
        rcases h3 with h3 | h3
        · -- the upper end was only lowered onto an entry that covers `x`
          exact .inr (by rw [h3]; omega)
        · exact .inr h3

/-- If the last entry covers `x`, so does the entry found. -/
theorem le_bisect {fuel lo hi : Nat} (h : lo ≤ hi) (hf : hi - lo ≤ fuel) (hx : x ≤ table hi) :
    x ≤ table (bisect table x fuel lo hi) := by
  obtain ⟨-, -, e | e⟩ := @bisect_spec table x fuel _ _ h hf
  · rwa [e]
  · exact e

/-- If the last entry does not cover `x`, the answer is the last entry all the same. -/
theorem bisect_of_lt {fuel lo hi : Nat} (hm : ∀ i ≤ hi, table i ≤ table hi) (h : lo ≤ hi)
    (hf : hi - lo ≤ fuel) (hx : table hi < x) : bisect table x fuel lo hi = hi := by
  obtain ⟨-, hle, e | e⟩ := @bisect_spec table x fuel _ _ h hf
  · exact e
  · have := hm _ hle
    omega

end MyMalloc
