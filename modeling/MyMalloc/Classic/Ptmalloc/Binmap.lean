import Mathlib.Order.Bounds.Basic
import MyMalloc.Classic.Ptmalloc.LargeBins

/- The map of the bins that are not empty (`bins.cpp`): a bit for each of the 128 bins, in words of 32. -/
namespace MyMalloc.Ptmalloc.Words

/-- `binmap_`. -/
abbrev Binmap := Nat → BitVec 32

/-- `bin_idx & 31`. -/
def binmapBit (bin : Nat) : Nat := bin &&& 31

def Binmap.Marked (m : Binmap) (i : Nat) : Prop := (m (binmapWord i)).getLsbD (binmapBit i) = true

/-- `mark_bin`. -/
def markBin (m : Binmap) (i : Nat) : Binmap :=
  Function.update m (binmapWord i) (m (binmapWord i) ||| 1#32 <<< binmapBit i)

/-- What `unmark_bin` does to the map if the bin is empty. -/
def clearBin (m : Binmap) (i : Nat) : Binmap :=
  Function.update m (binmapWord i) (m (binmapWord i) &&& ~~~(1#32 <<< binmapBit i))

section
variable {m : Binmap} {i j start word : Nat}

theorem binmap_index (i : Nat) : binmapWord i = i / 32 ∧ binmapBit i = i % 32 :=
  ⟨Nat.shiftRight_eq_div_pow i 5, Nat.and_two_pow_sub_one_eq_mod i 5⟩

theorem getLsbD_one_shift {b c : Nat} (hb : b < 32) : (1#32 <<< b).getLsbD c = decide (b = c) := by
  rw [← BitVec.twoPow_eq, BitVec.getLsbD_twoPow, decide_eq_true hb, Bool.true_and]

theorem marked_markBin : (markBin m i).Marked j ↔ j = i ∨ m.Marked j := by
  have hi := binmap_index i
  have hj := binmap_index j
  unfold Binmap.Marked markBin
  by_cases hw : binmapWord j = binmapWord i
  · rw [hw, Function.update_self, BitVec.getLsbD_or, getLsbD_one_shift (by omega), Bool.or_eq_true, decide_eq_true_eq,
      or_comm]
    exact or_congr_left (by omega)
  · rw [Function.update_of_ne hw]
    exact ⟨.inr, fun h => h.resolve_left (by rintro rfl; exact hw rfl)⟩

theorem marked_clearBin : (clearBin m i).Marked j ↔ j ≠ i ∧ m.Marked j := by
  have hi := binmap_index i
  have hj := binmap_index j
  unfold Binmap.Marked clearBin
  by_cases hw : binmapWord j = binmapWord i
  · rw [hw, Function.update_self, BitVec.getLsbD_and, BitVec.getLsbD_not, getLsbD_one_shift (by omega)]
    have hlt : binmapBit j < 32 := by omega
    have hiff : (!decide (binmapBit i = binmapBit j)) = true ↔ j ≠ i := by
      rw [Bool.not_eq_true', decide_eq_false_iff_not]
      omega
    simp only [hlt, decide_true, Bool.true_and, Bool.and_eq_true, hiff]
    exact and_comm
  · rw [Function.update_of_ne hw]
    exact ⟨fun h => ⟨by rintro rfl; exact hw rfl, h⟩, And.right⟩

end

end MyMalloc.Ptmalloc.Words
