import Mathlib.Data.List.Basic

/- Cells that tile an interval.

   `len` gives the length of the cell that starts at an address, if one does.
   `Tiles len a b l` says that the cells from `a` on, each starting where the one
   before it ends, are those of `l` and end at `b`. A program that splits, joins or
   resizes cells at the end of such an interval leaves the ones in front alone:
   `retile` is the one rule for all of these. -/
namespace MyMalloc

/-- The cells of `l` lie end to end from `a` to `b`. -/
def Tiles (len : Nat → Option Nat) : Nat → Nat → List Nat → Prop
  | a, b, [] => a = b
  | a, b, c :: l => c = a ∧ ∃ n, len a = some n ∧ 0 < n ∧ Tiles len (a + n) b l

namespace Tiles
variable {len len' : Nat → Option Nat} {a b c : Nat} {l l' : List Nat}

theorem le (h : Tiles len a b l) : a ≤ b := by
  induction l generalizing a with
  | nil => exact Nat.le_of_eq h
  | cons x l ih =>
    obtain ⟨-, n, -, -, htl⟩ := h
    have := ih htl
    omega

theorem bounds (h : Tiles len a b l) (hc : c ∈ l) :
    ∃ n, len c = some n ∧ 0 < n ∧ a ≤ c ∧ c + n ≤ b := by
  induction l generalizing a with
  | nil => cases hc
  | cons x l ih =>
    obtain ⟨rfl, n, hn, hpos, htl⟩ := h
    rcases List.mem_cons.mp hc with rfl | hc
    · exact ⟨n, hn, hpos, Nat.le_refl _, htl.le⟩
    · obtain ⟨m, hm, hmpos, hlow, hup⟩ := ih htl hc
      exact ⟨m, hm, hmpos, by omega, hup⟩

theorem append {m : Nat} (h : Tiles len a m l) (h' : Tiles len m b l') :
    Tiles len a b (l ++ l') := by
  induction l generalizing a with
  | nil =>
    obtain rfl : a = m := h
    exact h'
  | cons x l ih =>
    obtain ⟨rfl, n, hn, hpos, htl⟩ := h
    exact ⟨rfl, n, hn, hpos, ih htl⟩

variable (h : Tiles len a b l)
include h

theorem split (hc : c ∈ l) :
    ∃ l₁ l₂, l = l₁ ++ c :: l₂ ∧ Tiles len a c l₁ ∧ Tiles len c b (c :: l₂) := by
  induction l generalizing a with
  | nil => cases hc
  | cons x l ih =>
    obtain ⟨rfl, n, hn, hpos, htl⟩ := h
    by_cases hx : c = x
    · subst hx
      exact ⟨[], l, rfl, rfl, rfl, n, hn, hpos, htl⟩
    · have hcl : c ∈ l := (List.mem_cons.mp hc).resolve_left hx
      obtain ⟨l₁, l₂, rfl, h₁, h₂⟩ := ih htl hcl
      exact ⟨x :: l₁, l₂, rfl, ⟨rfl, n, hn, hpos, h₁⟩, h₂⟩

theorem congr (heq : ∀ c ∈ l, len' c = len c) : Tiles len' a b l := by
  induction l generalizing a with
  | nil => exact h
  | cons x l ih =>
    obtain ⟨rfl, n, hn, hpos, htl⟩ := h
    refine ⟨rfl, n, ?_, hpos, ih htl (fun c hc => heq c (List.mem_cons_of_mem _ hc))⟩
    rw [heq x List.mem_cons_self]
    exact hn

/-- After a cell comes another, or the end. -/
theorem next {n : Nat} (hc : c ∈ l) (hn : len c = some n) :
    c + n ∈ l ∨ c + n = b := by
  obtain ⟨l₁, l₂, rfl, -, -, m, hm, -, htl⟩ := h.split hc
  obtain rfl : n = m := Option.some.inj (hn.symm.trans hm)
  cases l₂ with
  | nil => exact Or.inr htl
  | cons y l₂ =>
    obtain ⟨rfl, -⟩ := htl
    exact Or.inl (by simp)

theorem apart {n d : Nat} (hc : c ∈ l) (hd : d ∈ l) (hn : len c = some n)
    (hlt : c < d) : c + n ≤ d := by
  obtain ⟨l₁, l₂, rfl, h₁, -, m, hm, -, htl⟩ := h.split hc
  obtain rfl : n = m := Option.some.inj (hn.symm.trans hm)
  rcases List.mem_append.mp hd with hd | hd
  · obtain ⟨k, -, -, -, hup⟩ := h₁.bounds hd
    omega
  · rcases List.mem_cons.mp hd with rfl | hd
    · omega
    · obtain ⟨k, -, -, hlow, -⟩ := htl.bounds hd
      exact hlow

theorem unique (h' : Tiles len a b l') : l = l' := by
  induction l generalizing a l' with
  | nil =>
    cases l' with
    | nil => rfl
    | cons x l' =>
      obtain rfl : a = b := h
      obtain ⟨-, n, -, hpos, htl⟩ := h'
      have := htl.le
      omega
  | cons x l ih =>
    obtain ⟨rfl, n, hn, hpos, htl⟩ := h
    cases l' with
    | nil =>
      obtain rfl : x = b := h'
      have := htl.le
      omega
    | cons y l' =>
      obtain ⟨rfl, m, hm, -, htl'⟩ := h'
      obtain rfl : n = m := Option.some.inj (hn.symm.trans hm)
      rw [ih htl htl']

/-- Where all lengths are multiples of `d`, all cells start at multiples of `d`. -/
theorem dvd {d : Nat} (hd : ∀ c ∈ l, ∀ n, len c = some n → d ∣ n)
    (ha : d ∣ a) : d ∣ b ∧ ∀ c ∈ l, d ∣ c := by
  induction l generalizing a with
  | nil =>
    obtain rfl : a = b := h
    exact ⟨ha, nofun⟩
  | cons x l ih =>
    obtain ⟨rfl, n, hn, -, htl⟩ := h
    have hnext : d ∣ x + n := Nat.dvd_add ha (hd x List.mem_cons_self n hn)
    obtain ⟨hb, hl⟩ := ih htl (fun c hc => hd c (List.mem_cons_of_mem _ hc)) hnext
    refine ⟨hb, fun c hc => ?_⟩
    rcases List.mem_cons.mp hc with rfl | hc
    · exact ha
    · exact hl c hc

/-- New cells from `c` on: those in front of it stay. -/
theorem retile (hc : c ∈ l) (hsame : ∀ x < c, len' x = len x)
    (hnew : Tiles len' c b l') :
    ∃ m, Tiles len' a b m ∧ ∀ x, x ∈ m ↔ (x ∈ l ∧ x < c) ∨ x ∈ l' := by
  obtain ⟨l₁, l₂, rfl, h₁, h₂⟩ := h.split hc
  have hbefore : ∀ x ∈ l₁, x < c := fun x hx => by
    obtain ⟨n, -, hpos, -, hup⟩ := h₁.bounds hx
    omega
  refine ⟨l₁ ++ l', (h₁.congr (fun x hx => hsame x (hbefore x hx))).append hnew, fun x => ?_⟩
  have hafter : x ∈ c :: l₂ → ¬ x < c := fun hx => by
    obtain ⟨k, -, -, hlow, -⟩ := h₂.bounds hx
    omega
  constructor
  · intro hx
    rcases List.mem_append.mp hx with hx | hx
    · exact Or.inl ⟨List.mem_append_left _ hx, hbefore x hx⟩
    · exact Or.inr hx
  · rintro (⟨hx, hlt⟩ | hx)
    · rcases List.mem_append.mp hx with hx | hx
      · exact List.mem_append_left _ hx
      · exact absurd hlt (hafter hx)
    · exact List.mem_append_right _ hx

/-- Where cells do not overlap, one that starts between the ends is among those of the walk. -/
theorem mem_of_apart {x : Nat} (hap : ∀ c n, len c = some n → c < x → c + n ≤ x)
    (hlow : a ≤ x) (hup : x < b) : x ∈ l := by
  induction l generalizing a with
  | nil =>
    obtain rfl : a = b := h
    omega
  | cons y l ih =>
    obtain ⟨rfl, n, hn, -, htl⟩ := h
    rcases Nat.eq_or_lt_of_le hlow with rfl | hlt
    · exact List.mem_cons_self
    · exact List.mem_cons_of_mem _ (ih htl (hap y n hn hlt))

/-- Before a cell other than the first, and before the end, there is a cell. -/
theorem pred {x : Nat} (hx : x ∈ l ∨ x = b) (hlt : a < x) :
    ∃ c ∈ l, ∃ n, len c = some n ∧ c + n = x := by
  induction l generalizing a with
  | nil =>
    obtain rfl : a = b := h
    rcases hx with hx | rfl
    · cases hx
    · omega
  | cons y l ih =>
    obtain ⟨rfl, n, hn, -, htl⟩ := h
    have hx' : x ∈ l ∨ x = b := hx.imp_left fun hx => by
      rcases List.mem_cons.mp hx with rfl | hx
      · omega
      · exact hx
    by_cases heq : y + n = x
    · exact ⟨y, List.mem_cons_self, n, hn, heq⟩
    · have hle : y + n ≤ x := by
        rcases hx' with hx' | rfl
        · obtain ⟨_, -, -, hlow, -⟩ := htl.bounds hx'
          exact hlow
        · exact htl.le
      obtain ⟨c, hc, m, hm, hend⟩ := ih htl hx' (by omega)
      exact ⟨c, List.mem_cons_of_mem _ hc, m, hm, hend⟩

/-- A walk does not go past the end where no cell starts, and the rest leads there. -/
theorem rest {m : Nat} (h' : Tiles len a m l') (hb : len b = none) :
    ∃ l₂, Tiles len m b l₂ := by
  induction l' generalizing a l with
  | nil =>
    obtain rfl : a = m := h'
    exact ⟨l, h⟩
  | cons y l' ih =>
    obtain ⟨rfl, n, hn, -, htl'⟩ := h'
    cases l with
    | nil =>
      obtain rfl : y = b := h
      rw [hb] at hn
      cases hn
    | cons x l =>
      obtain ⟨rfl, k, hk, -, htl⟩ := h
      obtain rfl : k = n := Option.some.inj (hk.symm.trans hn)
      exact ih htl htl'

/-- A walk that goes no further than the end comes to a cell, or to the end. -/
theorem reaches {m : Nat} (h' : Tiles len' a m l') (hm : m ≤ b)
    (heq : ∀ c ∈ l, len' c = len c) : m ∈ l ∨ m = b := by
  induction l' generalizing a l with
  | nil =>
    obtain rfl : a = m := h'
    cases l with
    | nil => exact Or.inr h
    | cons x l => exact Or.inl (h.1 ▸ List.mem_cons_self)
  | cons y l' ih =>
    obtain ⟨rfl, n, hn, hpos, htl'⟩ := h'
    cases l with
    | nil =>
      obtain rfl : y = b := h
      have := htl'.le
      omega
    | cons x l =>
      obtain ⟨rfl, k, hk, -, htl⟩ := h
      rw [heq x List.mem_cons_self, hk, Option.some.injEq] at hn
      subst hn
      rcases ih htl htl' (fun c hc => heq c (List.mem_cons_of_mem _ hc)) with h | h
      · exact Or.inl (List.mem_cons_of_mem _ h)
      · exact Or.inr h

end Tiles

/-- Cells that are made of finer ones. -/
theorem Tiles.finer {len len' : Nat → Option Nat} {a b : Nat} {l : List Nat} (h : Tiles len a b l)
    (hfine : ∀ c n, len c = some n → ∃ l', Tiles len' c (c + n) l') : ∃ l', Tiles len' a b l' := by
  induction l generalizing a with
  | nil => exact ⟨[], h⟩
  | cons x l ih =>
    obtain ⟨rfl, n, hn, -, htl⟩ := h
    obtain ⟨l₁, h₁⟩ := hfine x n hn
    obtain ⟨l₂, h₂⟩ := ih htl
    exact ⟨l₁ ++ l₂, h₁.append h₂⟩

/-- The cells from `b` up to `e` as one. -/
def merge (len : Nat → Option Nat) (b e : Nat) : Nat → Option Nat := fun x =>
  if x = b then some (e - b) else if b < x ∧ x < e then none else len x

section
variable {len : Nat → Option Nat} {b c e m : Nat}

theorem merge_self : merge len b e b = some (e - b) := if_pos rfl

theorem merge_of_out (hlt : b < e) (h : c < b ∨ e ≤ c) : merge len b e c = len c := by
  rw [merge, if_neg (by omega), if_neg (by omega)]

theorem merge_inside (h1 : b < c) (h2 : c < e) : merge len b e c = none := by
  rw [merge, if_neg (by omega), if_pos ⟨h1, h2⟩]

theorem merge_gone (h : merge len b e c = none) (hc : len c = some m) : b < c ∧ c < e := by
  unfold merge at h
  split at h
  · cases h
  · split at h
    · next hin => exact hin
    · rw [hc] at h
      cases h

theorem merge_cases (h : merge len b e c = some m) :
    (c = b ∧ m = e - b) ∨ (c < b ∨ e ≤ c) ∧ len c = some m := by
  unfold merge at h
  split at h
  · next hc => exact .inl ⟨hc, (Option.some.inj h).symm⟩
  · split at h
    · cases h
    · exact .inr ⟨by omega, h⟩

end

end MyMalloc
