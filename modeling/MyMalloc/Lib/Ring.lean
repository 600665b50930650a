import Mathlib.Data.List.Basic
import Mathlib.Logic.Function.Basic

/- A ring of `n` slots into which values are written one after the other, the
   `i`-th value to slot `i % n`. A slot keeps its value until `n` more values
   have been written, so the last `n` values can be read back in order. -/
namespace MyMalloc

variable {α : Type}

/-- The ring holds the last `n` of the values written so far. -/
def RingHolds (n : Nat) (slots : Nat → α) (written : List α) : Prop :=
  ∀ i, written.length ≤ i + n → ∀ x, written[i]? = some x → slots (i % n) = x

namespace RingHolds
variable {n : Nat} {slots : Nat → α} {written : List α}

theorem nil (n : Nat) (slots : Nat → α) : RingHolds n slots [] := nofun

/-- Writing one more value overwrites the one written `n` values before. -/
theorem push (h : RingHolds n slots written) (x : α) :
    RingHolds n (Function.update slots (written.length % n) x) (written ++ [x]) := by
  intro i hi y hy
  rw [List.length_append, List.length_singleton] at hi
  rcases Nat.lt_or_ge i written.length with hlt | hge
  · rw [List.getElem?_append_left hlt] at hy
    -- fewer than `n` values lie between the two, so they are in different slots
    have hne : i % n ≠ written.length % n := by
      intro e
      have h0 : (written.length - i) % n = 0 := Nat.sub_mod_eq_zero_of_mod_eq e.symm
      have hdvd : n ∣ written.length - i := Nat.dvd_of_mod_eq_zero h0
      have := Nat.le_of_dvd (by omega) hdvd
      omega
    rw [Function.update_of_ne hne]
    exact h i (by omega) y hy
  · rw [List.getElem?_append_right hge] at hy
    have hi' : i = written.length := by
      by_contra hne
      rw [List.getElem?_eq_none (by simp; omega)] at hy
      cases hy
    subst hi'
    rw [Function.update_self]
    simpa using hy

/-- Reading the last `count` values. -/
theorem read (h : RingHolds n slots written) (count : Nat) (hn : count ≤ n)
    (hw : count ≤ written.length) :
    (List.range count).map (fun i => slots ((written.length - count + i) % n)) =
      written.drop (written.length - count) := by
  refine List.ext_getElem? (fun i => ?_)
  rw [List.getElem?_drop, List.getElem?_map]
  rcases Nat.lt_or_ge i count with hlt | hge
  · have hin : written.length - count + i < written.length := by omega
    rw [List.getElem?_range hlt, List.getElem?_eq_getElem hin, Option.map_some]
    exact congrArg some (h _ (by omega) _ (List.getElem?_eq_getElem hin))
  · rw [List.getElem?_eq_none (by simpa using hge), List.getElem?_eq_none (by omega)]
    rfl

end RingHolds

end MyMalloc
