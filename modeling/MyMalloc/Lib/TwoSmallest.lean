import Mathlib.Data.List.Perm.Basic
import Mathlib.Order.Lattice

/- The one-pass search for the smallest and the second smallest of a list.

   `scanBest` walks over the items, keeping the first item of smallest cost so
   far, its cost, and the next smallest cost. It starts from a cost that is
   larger than all others, twice. The invariant is a rearrangement: the costs
   seen so far, with the two starting values, are the two kept ones followed by
   others that are not smaller, so equal costs count as often as they occur. -/
namespace MyMalloc

variable {ι κ : Type} [LinearOrder κ]

/-- The item of smallest cost, its cost, and the second smallest cost. -/
structure Best (ι κ : Type) where
  item : ι
  best : κ
  second : κ

/-- One turn of the search. -/
def Best.see (cost : ι → κ) (b : Best ι κ) (i : ι) : Best ι κ :=
  if cost i < b.best then ⟨i, cost i, b.best⟩
  else if cost i < b.second then { b with second := cost i }
  else b

def scanBest (cost : ι → κ) (b : Best ι κ) (l : List ι) : Best ι κ := l.foldl (Best.see cost) b

/-- The first item of smallest cost. -/
def FirstMin (cost : ι → κ) (l : List ι) (i : ι) : Prop :=
  ∃ l₁ l₂, l = l₁ ++ i :: l₂ ∧ (∀ j ∈ l₁, cost i < cost j) ∧ ∀ j ∈ l₂, cost i ≤ cost j

theorem FirstMin.unique {cost : ι → κ} {l : List ι} {i j : ι} (hi : FirstMin cost l i)
    (hj : FirstMin cost l j) : i = j := by
  obtain ⟨l₁, l₂, rfl, hbefore, hafter⟩ := hi
  obtain ⟨m₁, m₂, heq, hbefore', hafter'⟩ := hj
  -- an item that comes later is not cheaper, one that comes earlier is dearer
  rcases List.append_eq_append_iff.mp heq with ⟨c, rfl, hc⟩ | ⟨c, rfl, hc⟩
  · cases c with
    | nil => exact (List.cons.inj hc).1
    | cons x c =>
      obtain ⟨rfl, rfl⟩ := List.cons.inj hc
      exact absurd (hafter j (by simp)) (not_le.mpr (hbefore' i (by simp)))
  · cases c with
    | nil => exact (List.cons.inj hc).1.symm
    | cons x c =>
      obtain ⟨rfl, rfl⟩ := List.cons.inj hc
      exact absurd (hafter' i (by simp)) (not_le.mpr (hbefore j (by simp)))

/-- `a` and `b` are the two smallest values of a list, counted with multiplicity. -/
def TwoSmallest (a b : κ) (l : List κ) : Prop :=
  ∃ rest, l.Perm (a :: b :: rest) ∧ a ≤ b ∧ ∀ x ∈ rest, b ≤ x

namespace TwoSmallest
variable {a b x : κ} {l : List κ}

/-- A new value pushes the two smallest up, if it is smaller. -/
theorem cons (h : TwoSmallest a b l) (x : κ) :
    TwoSmallest (if x < a then x else a) (if x < a then a else if x < b then x else b) (x :: l) := by
  obtain ⟨rest, hp, hab, hr⟩ := h
  by_cases h1 : x < a
  · refine ⟨b :: rest, ?_, ?_, ?_⟩
    · simpa only [if_pos h1] using hp.cons x
    · simpa only [if_pos h1] using h1.le
    · simp only [if_pos h1, List.mem_cons, forall_eq_or_imp]
      exact ⟨hab, fun y hy => hab.trans (hr y hy)⟩
  · by_cases h2 : x < b
    · refine ⟨b :: rest, ?_, ?_, ?_⟩
      · simp only [if_neg h1, if_pos h2]
        exact (hp.cons x).trans (List.Perm.swap a x _)
      · simpa only [if_neg h1, if_pos h2] using not_lt.mp h1
      · simp only [if_neg h1, if_pos h2, List.mem_cons, forall_eq_or_imp]
        exact ⟨h2.le, fun y hy => h2.le.trans (hr y hy)⟩
    · refine ⟨x :: rest, ?_, ?_, ?_⟩
      · simp only [if_neg h1, if_neg h2]
        exact (hp.cons x).trans ((List.Perm.swap a x _).trans ((List.Perm.swap b x _).cons a))
      · simpa only [if_neg h1, if_neg h2] using hab
      · simp only [if_neg h1, if_neg h2, List.mem_cons, forall_eq_or_imp]
        exact ⟨not_lt.mp h2, hr⟩

theorem perm {l' : List κ} (h : TwoSmallest a b l) (hp : l'.Perm l) : TwoSmallest a b l' := by
  obtain ⟨rest, hp', h'⟩ := h
  exact ⟨rest, hp.trans hp', h'⟩

theorem le_of_mem (h : TwoSmallest a b l) (hx : x ∈ l) : a ≤ x := by
  obtain ⟨rest, hp, hab, hr⟩ := h
  have hx := hp.mem_iff.mp hx
  simp only [List.mem_cons] at hx
  rcases hx with rfl | rfl | hx
  · exact le_refl x
  · exact hab
  · exact hab.trans (hr x hx)

/-- Every value but one copy of the smallest is at least the second smallest. -/
theorem le_of_mem_erase (h : TwoSmallest a b l) (hx : x ∈ l.erase a) : b ≤ x := by
  obtain ⟨rest, hp, -, hr⟩ := h
  have hx : x ∈ (a :: b :: rest).erase a := (hp.erase a).mem_iff.mp hx
  rw [List.erase_cons_head] at hx
  rcases List.mem_cons.mp hx with rfl | hx
  · exact le_refl x
  · exact hr x hx

/-- Two values that are larger than at least two others may be forgotten. -/
theorem drop {top : κ} (h : TwoSmallest a b (top :: top :: l)) (hl : 2 ≤ l.length)
    (hlt : ∀ y ∈ l, y < top) : TwoSmallest a b l := by
  obtain ⟨rest, hp, hab, hr⟩ := h
  have hb : b < top := by
    by_contra hb
    -- otherwise one value at most is below `top`
    have hcount := hp.countP_eq (fun y => decide (y < top))
    have hrest : rest.countP (fun y => decide (y < top)) = 0 :=
      List.countP_eq_zero.mpr (fun y hy => by simpa using (not_lt.mp hb).trans (hr y hy))
    have hall : l.countP (fun y => decide (y < top)) = l.length :=
      List.countP_eq_length.mpr (fun y hy => by simpa using hlt y hy)
    have hone : (a :: b :: rest).countP (fun y => decide (y < top)) ≤ 1 := by
      rw [List.countP_cons, List.countP_cons_of_neg (by simpa using not_lt.mp hb), hrest]
      split <;> omega
    have htwo : (top :: top :: l).countP (fun y => decide (y < top)) = l.length := by
      rw [List.countP_cons_of_neg (by simp), List.countP_cons_of_neg (by simp), hall]
    omega
  have ha : a < top := hab.trans_lt hb
  have hskip : ∀ r : List κ, (a :: b :: r).erase top = a :: b :: r.erase top := fun r => by
    rw [List.erase_cons_tail (by simpa using ha.ne), List.erase_cons_tail (by simpa using hb.ne)]
  have hp' := (hp.erase top).erase top
  rw [List.erase_cons_head, List.erase_cons_head, hskip, hskip] at hp'
  exact ⟨_, hp', hab, fun x hx => hr x (List.mem_of_mem_erase (List.mem_of_mem_erase hx))⟩

end TwoSmallest

/-- What the search keeps: the two smallest costs, and the first item that has the smallest. -/
structure Seen (cost : ι → κ) (top : κ) (l : List ι) (b : Best ι κ) : Prop where
  values : TwoSmallest b.best b.second (top :: top :: l.map cost)
  item : b.best = top ∨ FirstMin cost l b.item ∧ cost b.item = b.best

theorem Seen.see {cost : ι → κ} {top : κ} {l : List ι} {b : Best ι κ} (h : Seen cost top l b) {i : ι}
    (hi : cost i < top) : Seen cost top (l ++ [i]) (b.see cost i) := by
  have hmin : ∀ j ∈ l, b.best ≤ cost j := fun j hj =>
    h.values.le_of_mem (by simpa using .inr ⟨j, hj, rfl⟩)
  have hperm : (top :: top :: (l ++ [i]).map cost).Perm (cost i :: top :: top :: l.map cost) := by
    rw [List.map_append]
    have hswap : ((top :: top :: l.map cost) ++ [cost i]).Perm ([cost i] ++ (top :: top :: l.map cost)) :=
      List.perm_append_comm
    exact hswap
  constructor
  · have hv := (h.values.cons (cost i)).perm hperm
    unfold Best.see
    by_cases h1 : cost i < b.best
    · simpa only [if_pos h1] using hv
    · by_cases h2 : cost i < b.second
      · simpa only [if_neg h1, if_pos h2] using hv
      · simpa only [if_neg h1, if_neg h2] using hv
  · by_cases h1 : cost i < b.best
    · -- a new smallest cost: everything before it is larger
      simp only [Best.see, if_pos h1]
      exact .inr ⟨⟨l, [], rfl, fun j hj => h1.trans_le (hmin j hj), by simp⟩, trivial⟩
    · have hstay : (b.see cost i).item = b.item ∧ (b.see cost i).best = b.best := by
        simp only [Best.see, if_neg h1]
        split <;> exact ⟨rfl, rfl⟩
      rw [hstay.1, hstay.2]
      rcases h.item with htop | ⟨⟨l₁, l₂, rfl, hl₁, hl₂⟩, hbest⟩
      · exact absurd (htop ▸ hi) h1
      · refine .inr ⟨⟨l₁, l₂ ++ [i], by simp, hl₁, fun j hj => ?_⟩, hbest⟩
        rcases List.mem_append.mp hj with hj | hj
        · exact hl₂ j hj
        · rw [List.mem_singleton.mp hj, hbest]
          exact not_lt.mp h1

theorem Seen.scan {cost : ι → κ} {top : κ} {l : List ι} {b : Best ι κ} (h : Seen cost top l b)
    (m : List ι) (hm : ∀ i ∈ m, cost i < top) : Seen cost top (l ++ m) (scanBest cost b m) := by
  induction m generalizing l b with
  | nil => simpa [scanBest] using h
  | cons i m ih =>
    have := ih (h.see (hm i List.mem_cons_self)) (fun j hj => hm j (List.mem_cons_of_mem _ hj))
    simpa [scanBest] using this

/-- **The search is right**: it ends with the first item of smallest cost and the two smallest
costs, if there are two items and every cost is below the value it starts from. -/
theorem scanBest_spec (cost : ι → κ) {top : κ} (i₀ : ι) {l : List ι} (hl : 2 ≤ l.length)
    (hlt : ∀ i ∈ l, cost i < top) :
    FirstMin cost l (scanBest cost ⟨i₀, top, top⟩ l).item ∧
      (scanBest cost ⟨i₀, top, top⟩ l).best = cost (scanBest cost ⟨i₀, top, top⟩ l).item ∧
      TwoSmallest (scanBest cost ⟨i₀, top, top⟩ l).best (scanBest cost ⟨i₀, top, top⟩ l).second
        (l.map cost) := by
  have h₀ : Seen cost top [] ⟨i₀, top, top⟩ :=
    ⟨⟨[], .refl _, le_refl _, nofun⟩, .inl rfl⟩
  have h := h₀.scan l hlt
  rw [List.nil_append] at h
  have hval := h.values.drop (by simpa using hl) (by simpa using hlt)
  rcases h.item with htop | ⟨hmin, hbest⟩
  · -- the smallest cost is one of the list's, all of which are below `top`
    obtain ⟨rest, hp, -⟩ := hval
    have hmem : (scanBest cost ⟨i₀, top, top⟩ l).best ∈ l.map cost := hp.mem_iff.mpr List.mem_cons_self
    obtain ⟨i, hi, he⟩ := List.mem_map.mp hmem
    exact absurd (he.trans htop) (hlt i hi).ne
  · exact ⟨hmin, hbest.symm, hval⟩

end MyMalloc
