import Mathlib.Algebra.Ring.Nat
import Mathlib.Data.List.Pairwise
import Mathlib.Order.Interval.Finset.Nat

/- Regions of memory: what is mapped, as a list of intervals.

   A kernel gives out regions that lie apart from each other and takes back any
   range of addresses. `minus` is what the latter leaves of one region; of a list
   of regions that lie apart it removes a region exactly when asked for it. -/
namespace MyMalloc

structure Region where
  base : Nat
  size : Nat
  deriving DecidableEq, Repr

namespace Region

/-- `a` is a byte of the region. -/
def Has (r : Region) (a : Nat) : Prop := r.base ≤ a ∧ a < r.base + r.size

/-- `r` and `r'` have no byte in common. -/
def Apart (r r' : Region) : Prop := r.base + r.size ≤ r'.base ∨ r'.base + r'.size ≤ r.base

instance (r r' : Region) : Decidable (r.Apart r') := inferInstanceAs (Decidable (_ ∨ _))

instance : Std.Symm Apart := ⟨fun _ _ => Or.symm⟩

/-- What is left of a region after unmapping `len` bytes at `a`. -/
def minus (r : Region) (a len : Nat) : List Region :=
  (if r.base < a then [⟨r.base, min r.size (a - r.base)⟩] else []) ++
  (if a + len < r.base + r.size then
    [⟨max r.base (a + len), r.base + r.size - max r.base (a + len)⟩] else [])

theorem Apart.not_has {r r' : Region} (h : r.Apart r') {a : Nat} (hr : r.Has a) : ¬ r'.Has a := by
  unfold Has at *
  rcases h with h | h <;> omega

theorem apart_of_disjoint {r r' : Region} (hr : 0 < r.size) (hr' : 0 < r'.size)
    (h : ∀ a, r.Has a → ¬ r'.Has a) : r.Apart r' := by
  by_contra hno
  unfold Apart at hno
  -- the later of the two starts would be in both
  apply h (max r.base r'.base)
  · exact ⟨by omega, by omega⟩
  · exact ⟨by omega, by omega⟩

/-- Unmapping takes nothing from a region that lies apart. -/
theorem minus_apart {r r' : Region} (h : r'.Apart r) (hr' : 0 < r'.size) :
    r'.minus r.base r.size = [r'] := by
  obtain ⟨b, n⟩ := r'
  unfold Apart at h
  unfold minus
  dsimp only at *
  rcases h with h | h
  · rw [if_pos (by omega), if_neg (by omega), Nat.min_eq_left (by omega), List.append_nil]
  · rw [if_neg (by omega), if_pos (by omega), Nat.max_eq_left h, List.nil_append,
      Nat.add_sub_cancel_left]

theorem minus_self (r : Region) : r.minus r.base r.size = [] := by
  unfold minus
  rw [if_neg (by omega), if_neg (by omega), List.append_nil]

/-- Two regions of a list that lie apart are one if they have a byte in common. -/
theorem eq_of_has {l : List Region} (hl : l.Pairwise Apart) {r r' : Region} (hr : r ∈ l)
    (hr' : r' ∈ l) {a : Nat} (h : r.Has a) (h' : r'.Has a) : r = r' := by
  by_contra hne
  exact (hl.forall hr hr' hne).not_has h h'

/-- A region has no more words than its bytes make up. -/
theorem words_le_size (r : Region) {l : List Nat} (hnd : l.Nodup)
    (hl : ∀ c ∈ l, 8 ∣ c ∧ r.base ≤ c ∧ c + 8 ≤ r.base + r.size) : 8 * l.length ≤ r.size := by
  have hinj : Set.InjOn (· / 8) (l.toFinset : Set Nat) := by
    intro c hc d hd e
    have h1 := (hl c (List.mem_toFinset.mp hc)).1
    have h2 := (hl d (List.mem_toFinset.mp hd)).1
    dsimp only at e
    omega
  have hmaps : ∀ c ∈ l.toFinset, c / 8 ∈ Finset.Ico ((r.base + 7) / 8) ((r.base + r.size) / 8) := by
    intro c hc
    have := hl c (List.mem_toFinset.mp hc)
    rw [Finset.mem_Ico]
    omega
  have hcard := Finset.card_le_card_of_injOn _ hmaps hinj
  rw [List.toFinset_card_of_nodup hnd, Nat.card_Ico] at hcard
  omega

/-- Nor have several regions. -/
theorem words_le_sum {R : List Region} {l : List Nat} (hnd : l.Nodup)
    (hl : ∀ c ∈ l, 8 ∣ c ∧ ∃ r ∈ R, r.base ≤ c ∧ c + 8 ≤ r.base + r.size) :
    8 * l.length ≤ (R.map (·.size)).sum := by
  induction R generalizing l with
  | nil =>
    cases l with
    | nil => exact Nat.le_refl 0
    | cons c l =>
      obtain ⟨-, r, hr, -⟩ := hl c List.mem_cons_self
      cases hr
  | cons r R ih =>
    have hin := r.words_le_size
      (hnd.filter (fun c => decide (r.base ≤ c ∧ c + 8 ≤ r.base + r.size))) (fun c hc => by
        obtain ⟨hc, hr⟩ := List.mem_filter.mp hc
        exact ⟨(hl c hc).1, of_decide_eq_true hr⟩)
    have hout := ih (hnd.filter (fun c => !decide (r.base ≤ c ∧ c + 8 ≤ r.base + r.size))) (fun c hc => by
      obtain ⟨hc, hr⟩ := List.mem_filter.mp hc
      obtain ⟨hd, r', hr', hb⟩ := hl c hc
      refine ⟨hd, r', (List.mem_cons.mp hr').resolve_left fun e => ?_, hb⟩
      rw [e] at hb
      simp [hb] at hr)
    have hlen := List.length_eq_length_filter_add (l := l)
      (fun c => decide (r.base ≤ c ∧ c + 8 ≤ r.base + r.size))
    rw [List.map_cons, List.sum_cons]
    omega

end Region

end MyMalloc
