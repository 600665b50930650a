import Mathlib.Logic.Function.Basic
import Mathlib.Data.List.Nodup
import Mathlib.Data.List.Basic

/- Open addressing with a bounded probe window and tombstones.

   A table maps slots to keys; `empty` marks a slot that was never used and
   `tomb` one whose key was erased. The slots of a key `k` are `slot k 0`,
   `slot k 1`, …, and only the first `W` of them are ever looked at, so an
   insertion that finds all of them taken does nothing (`HasRoom` says that it
   finds one). Erasing leaves a tombstone, so a slot that was once used never
   becomes `empty` again; that is why a search may stop at the first empty
   slot. `Probed` is the invariant behind this, and the three operations are
   characterised by what the table holds afterwards. -/
namespace MyMalloc

section probe
variable {K ι : Type} [DecidableEq K] [DecidableEq ι] (slot : K → Nat → ι) (W : Nat) (empty tomb : K)

/-- Insert at the first empty, equal or erased slot among the next `n` from probe `i`. -/
def insertFrom (k : K) (tbl : ι → K) : Nat → Nat → ι → K
  | 0, _ => tbl
  | n + 1, i =>
    if tbl (slot k i) = empty ∨ tbl (slot k i) = k then Function.update tbl (slot k i) k
    else if tbl (slot k i) = tomb then Function.update tbl (slot k i) k
    else insertFrom k tbl n (i + 1)

/-- Replace the key by a tombstone, giving up at an empty slot. -/
def eraseFrom (k : K) (tbl : ι → K) : Nat → Nat → ι → K
  | 0, _ => tbl
  | n + 1, i =>
    if tbl (slot k i) = k then Function.update tbl (slot k i) tomb
    else if tbl (slot k i) = empty then tbl
    else eraseFrom k tbl n (i + 1)

/-- Search for the key, giving up at an empty slot. -/
def findFrom (k : K) (tbl : ι → K) : Nat → Nat → Bool
  | 0, _ => false
  | n + 1, i =>
    if tbl (slot k i) = k then true
    else if tbl (slot k i) = empty then false
    else findFrom k tbl n (i + 1)

def probeInsert (tbl : ι → K) (k : K) : ι → K := insertFrom slot empty tomb k tbl W 0
def probeErase (tbl : ι → K) (k : K) : ι → K := eraseFrom slot empty tomb k tbl W 0
def probeFind (tbl : ι → K) (k : K) : Bool := findFrom slot empty k tbl W 0

/-- Some slot of the window can take the key. -/
def HasRoom (tbl : ι → K) (k : K) : Prop := ∃ i < W, tbl (slot k i) = empty ∨ tbl (slot k i) = tomb

instance (tbl : ι → K) (k : K) : Decidable (HasRoom slot W empty tomb tbl k) := by
  unfold HasRoom; infer_instance

/-- A key proper, not one of the two markers. -/
def IsKey (k : K) : Prop := k ≠ empty ∧ k ≠ tomb

/-- Every key sits in its window, behind slots that were used, and only once. -/
structure Probed (tbl : ι → K) : Prop where
  window : ∀ s, IsKey empty tomb (tbl s) →
    ∃ i < W, s = slot (tbl s) i ∧ ∀ j < i, tbl (slot (tbl s) j) ≠ empty
  once : ∀ s s', IsKey empty tomb (tbl s) → tbl s = tbl s' → s = s'

variable {slot W empty tomb} {tbl : ι → K} {k : K}

theorem insertFrom_cases (slot : K → Nat → ι) (empty tomb k : K) (tbl : ι → K) (n i : Nat) :
    (insertFrom slot empty tomb k tbl n i = tbl ∧
      ∀ j, i ≤ j → j < i + n → tbl (slot k j) ≠ empty ∧ tbl (slot k j) ≠ k ∧ tbl (slot k j) ≠ tomb) ∨
    ∃ j, i ≤ j ∧ j < i + n ∧ insertFrom slot empty tomb k tbl n i = Function.update tbl (slot k j) k ∧
      (tbl (slot k j) = empty ∨ tbl (slot k j) = k ∨ tbl (slot k j) = tomb) ∧
      ∀ j', i ≤ j' → j' < j → tbl (slot k j') ≠ empty := by
  induction n generalizing i with
  | zero => exact .inl ⟨rfl, fun j h1 h2 => by omega⟩
  | succ n ih =>
    simp only [insertFrom]
    split
    · next h =>
      refine .inr ⟨i, Nat.le_refl i, by omega, rfl, ?_, fun j' h1 h2 => by omega⟩
      rcases h with h | h
      · exact .inl h
      · exact .inr (.inl h)
    · next h =>
      push Not at h
      split
      · next ht => exact .inr ⟨i, Nat.le_refl i, by omega, rfl, .inr (.inr ht), fun j' h1 h2 => by omega⟩
      · next ht =>
        rcases ih (i + 1) with ⟨e, hall⟩ | ⟨j, h1, h2, e, hj, hbefore⟩
        · refine .inl ⟨e, fun j h1 h2 => ?_⟩
          by_cases hj : j = i
          · subst hj; exact ⟨h.1, h.2, ht⟩
          · exact hall j (by omega) (by omega)
        · refine .inr ⟨j, by omega, by omega, e, hj, fun j' h1' h2' => ?_⟩
          by_cases hj' : j' = i
          · subst hj'; exact h.1
          · exact hbefore j' (by omega) h2'

theorem eraseFrom_cases (slot : K → Nat → ι) (empty tomb k : K) (tbl : ι → K) (n i : Nat) :
    (eraseFrom slot empty tomb k tbl n i = tbl ∧
      ∃ m, i ≤ m ∧ m ≤ i + n ∧ (∀ j, i ≤ j → j < m → tbl (slot k j) ≠ k) ∧
        (m = i + n ∨ tbl (slot k m) = empty ∧ tbl (slot k m) ≠ k)) ∨
    ∃ j, i ≤ j ∧ j < i + n ∧ tbl (slot k j) = k ∧
      eraseFrom slot empty tomb k tbl n i = Function.update tbl (slot k j) tomb := by
  induction n generalizing i with
  | zero => exact .inl ⟨rfl, i, Nat.le_refl i, by omega, fun j h1 h2 => by omega, .inl rfl⟩
  | succ n ih =>
    simp only [eraseFrom]
    split
    · next h => exact .inr ⟨i, Nat.le_refl i, by omega, h, rfl⟩
    · next h =>
      split
      · next he =>
        exact .inl ⟨rfl, i, Nat.le_refl i, by omega, fun j h1 h2 => by omega, .inr ⟨he, h⟩⟩
      · next he =>
        rcases ih (i + 1) with ⟨e, m, h1, h2, h3, h4⟩ | ⟨j, h1, h2, h3, e⟩
        · refine .inl ⟨e, m, by omega, by omega, fun j hj1 hj2 => ?_, ?_⟩
          · by_cases hj : j = i
            · subst hj; exact h
            · exact h3 j (by omega) hj2
          · rcases h4 with h4 | h4
            · exact .inl (by omega)
            · exact .inr h4
        · exact .inr ⟨j, by omega, by omega, h3, e⟩

omit [DecidableEq ι] in
theorem findFrom_of_slot {n i j : Nat} (hij : i ≤ j) (hj : j < i + n) (hk : tbl (slot k j) = k)
    (hb : ∀ j', i ≤ j' → j' < j → tbl (slot k j') ≠ empty) : findFrom slot empty k tbl n i = true := by
  induction n generalizing i with
  | zero => omega
  | succ n ih =>
    simp only [findFrom]
    split
    · rfl
    · next h =>
      have hne : i ≠ j := fun e => h (by rw [e]; exact hk)
      rw [if_neg (hb i (Nat.le_refl i) (by omega))]
      exact ih (by omega) (by omega) (fun j' h1 h2 => hb j' (by omega) h2)

omit [DecidableEq ι] in
theorem findFrom_mem {n i : Nat} (h : findFrom slot empty k tbl n i = true) : ∃ s, tbl s = k := by
  induction n generalizing i with
  | zero => simp [findFrom] at h
  | succ n ih =>
    simp only [findFrom] at h
    split at h
    · next hk => exact ⟨_, hk⟩
    · split at h
      · simp at h
      · exact ih h

namespace Probed

variable (h : Probed slot W empty tomb tbl)
include h

omit [DecidableEq ι] in
/-- The search is exact. -/
theorem find_iff (hk : IsKey empty tomb k) :
    probeFind slot W empty tbl k = true ↔ ∃ s, tbl s = k := by
  constructor
  · exact findFrom_mem
  · rintro ⟨s, rfl⟩
    obtain ⟨i, hi, hs, hb⟩ := h.window s hk
    exact findFrom_of_slot (j := i) (Nat.zero_le _) (by omega) (by rw [← hs])
      (fun j' _ h2 => hb j' h2)

omit [DecidableEq K] in
theorem write (hfresh : ∀ s, tbl s ≠ k) {j : Nat} (hj : j < W)
    (hb : ∀ j' < j, tbl (slot k j') ≠ empty) (hne : k ≠ empty) :
    Probed slot W empty tomb (Function.update tbl (slot k j) k) where
  window s hs := by
    -- a slot that was not empty still is not
    have used : ∀ x, tbl x ≠ empty → Function.update tbl (slot k j) k x ≠ empty := by
      intro x hx
      by_cases e : x = slot k j
      · subst e; simpa using hne
      · rwa [Function.update_of_ne e]
    by_cases e : s = slot k j
    · subst e
      simp only [Function.update_self]
      exact ⟨j, hj, rfl, fun j' h' => used _ (hb j' h')⟩
    · rw [Function.update_of_ne e] at hs ⊢
      obtain ⟨i, hi, h1, h2⟩ := h.window s hs
      exact ⟨i, hi, h1, fun j' h' => used _ (h2 j' h')⟩
  once s s' hs hss := by
    by_cases e : s = slot k j <;> by_cases e' : s' = slot k j
    · rw [e, e']
    · rw [e, Function.update_self, Function.update_of_ne e'] at hss
      exact absurd hss.symm (hfresh s')
    · rw [e', Function.update_self, Function.update_of_ne e] at hss
      exact absurd hss (hfresh s)
    · rw [Function.update_of_ne e] at hs hss
      rw [Function.update_of_ne e'] at hss
      exact h.once s s' hs hss

omit [DecidableEq K] in
theorem bury (s₀ : ι) (het : tomb ≠ empty) :
    Probed slot W empty tomb (Function.update tbl s₀ tomb) where
  window s hs := by
    have used : ∀ x, tbl x ≠ empty → Function.update tbl s₀ tomb x ≠ empty := by
      intro x hx
      by_cases e : x = s₀
      · subst e; simpa using het
      · rwa [Function.update_of_ne e]
    by_cases e : s = s₀
    · subst e
      simp [IsKey] at hs
    · rw [Function.update_of_ne e] at hs ⊢
      obtain ⟨i, hi, h1, h2⟩ := h.window s hs
      exact ⟨i, hi, h1, fun j' h' => used _ (h2 j' h')⟩
  once s s' hs hss := by
    by_cases e : s = s₀
    · subst e; simp [IsKey] at hs
    · rw [Function.update_of_ne e] at hs hss
      by_cases e' : s' = s₀
      · subst e'
        rw [Function.update_self] at hss
        exact absurd hss hs.2
      · rw [Function.update_of_ne e'] at hss
        exact h.once s s' hs hss

/-- Inserting a new key: it is there afterwards exactly if its window had room. -/
theorem insert (hk : IsKey empty tomb k)
    (hfresh : ∀ s, tbl s ≠ k) :
    Probed slot W empty tomb (probeInsert slot W empty tomb tbl k) ∧
      ∀ u, IsKey empty tomb u → ((∃ s, probeInsert slot W empty tomb tbl k s = u) ↔
        (∃ s, tbl s = u) ∨ (u = k ∧ HasRoom slot W empty tomb tbl k)) := by
  rcases insertFrom_cases slot empty tomb k tbl W 0 with ⟨e, hall⟩ | ⟨j, -, hj, e, hslot, hb⟩
  · rw [probeInsert, e]
    refine ⟨h, fun u _ => ⟨.inl, ?_⟩⟩
    rintro (hu | ⟨-, i, hi, hroom⟩)
    · exact hu
    · obtain ⟨h1, -, h3⟩ := hall i (Nat.zero_le _) (by omega)
      exact absurd hroom (by simp [h1, h3])
  · have hfree : tbl (slot k j) = empty ∨ tbl (slot k j) = tomb := by
      rcases hslot with h' | h' | h'
      · exact .inl h'
      · exact absurd h' (hfresh _)
      · exact .inr h'
    have hroom : HasRoom slot W empty tomb tbl k := ⟨j, by omega, hfree⟩
    rw [probeInsert, e]
    refine ⟨h.write hfresh (by omega) (fun j' h' => hb j' (Nat.zero_le _) h') hk.1, ?_⟩
    intro u hu
    constructor
    · rintro ⟨s, rfl⟩
      by_cases es : s = slot k j
      · subst es
        exact .inr ⟨by simp, hroom⟩
      · rw [Function.update_of_ne es]
        exact .inl ⟨s, rfl⟩
    · rintro (⟨s, rfl⟩ | ⟨rfl, -⟩)
      · -- the overwritten slot held no key
        have es : s ≠ slot k j := by
          rintro rfl
          rcases hfree with h' | h'
          · exact hu.1 h'
          · exact hu.2 h'
        exact ⟨s, Function.update_of_ne es _ _⟩
      · exact ⟨slot u j, Function.update_self _ _ _⟩

theorem erase (hk : IsKey empty tomb k) (het : tomb ≠ empty) :
    Probed slot W empty tomb (probeErase slot W empty tomb tbl k) ∧
      ∀ u, IsKey empty tomb u →
        ((∃ s, probeErase slot W empty tomb tbl k s = u) ↔ (∃ s, tbl s = u) ∧ u ≠ k) := by
  rcases eraseFrom_cases slot empty tomb k tbl W 0 with ⟨e, m, -, hm, hbefore, hstop⟩ | ⟨j, -, hj, hjk, e⟩
  · -- not found: then the table did not hold it
    have habsent : ∀ s, tbl s ≠ k := by
      rintro s rfl
      obtain ⟨i, hi, hs, hb⟩ := h.window s hk
      rcases Nat.lt_or_ge i m with him | him
      · exact hbefore i (Nat.zero_le _) him (by rw [← hs])
      · rcases hstop with hstop | ⟨hstop, hne⟩
        · omega
        · rcases Nat.eq_or_lt_of_le him with rfl | hlt
          · exact hne (by rw [← hs])
          · exact hb m hlt hstop
    rw [probeErase, e]
    refine ⟨h, fun u _ => ⟨?_, fun hu => hu.1⟩⟩
    rintro ⟨s, rfl⟩
    exact ⟨⟨s, rfl⟩, habsent s⟩
  · rw [probeErase, e]
    refine ⟨h.bury _ het, fun u hu => ⟨?_, ?_⟩⟩
    · rintro ⟨s, rfl⟩
      by_cases es : s = slot k j
      · subst es; simp [IsKey] at hu
      · rw [Function.update_of_ne es] at hu ⊢
        refine ⟨⟨s, rfl⟩, fun hsk => es ?_⟩
        exact h.once s (slot k j) hu (hsk.trans hjk.symm)
    · rintro ⟨⟨s, rfl⟩, hne⟩
      have es : s ≠ slot k j := by rintro rfl; exact hne hjk
      exact ⟨s, Function.update_of_ne es _ _⟩

theorem insertAll {ks : List K}
    (hks : ∀ k ∈ ks, IsKey empty tomb k) (hnd : ks.Nodup) (hfresh : ∀ k ∈ ks, ∀ s, tbl s ≠ k) :
    Probed slot W empty tomb (ks.foldl (probeInsert slot W empty tomb) tbl) ∧
      ∀ u, IsKey empty tomb u →
        ((∃ s, tbl s = u) → ∃ s, ks.foldl (probeInsert slot W empty tomb) tbl s = u) ∧
        ((∃ s, ks.foldl (probeInsert slot W empty tomb) tbl s = u) → (∃ s, tbl s = u) ∨ u ∈ ks) := by
  induction ks generalizing tbl with
  | nil => exact ⟨h, fun u _ => ⟨id, .inl⟩⟩
  | cons k ks ih =>
    obtain ⟨hk, hrest⟩ := List.nodup_cons.mp hnd
    obtain ⟨hp, hmem⟩ := h.insert (hks k (by simp)) (hfresh k (by simp))
    have hfresh' : ∀ k' ∈ ks, ∀ s, probeInsert slot W empty tomb tbl k s ≠ k' := by
      intro k' hk' s hs
      rcases (hmem k' (hks k' (by simp [hk']))).mp ⟨s, hs⟩ with ⟨s', hs'⟩ | ⟨rfl, -⟩
      · exact hfresh k' (by simp [hk']) s' hs'
      · exact hk hk'
    obtain ⟨hp', hmem'⟩ := ih hp (fun k' hk' => hks k' (by simp [hk'])) hrest hfresh'
    refine ⟨hp', fun u hu => ⟨fun hs => (hmem' u hu).1 ((hmem u hu).mpr (.inl hs)), fun hs => ?_⟩⟩
    rcases (hmem' u hu).2 hs with hs | hs
    · rcases (hmem u hu).mp hs with hs | ⟨rfl, -⟩
      · exact .inl hs
      · exact .inr (by simp)
    · exact .inr (by simp [hs])

/-- A key that finds room when its turn comes is there at the end. -/
theorem insertAll_mem {ks ks' : List K}
    (hks : ∀ k' ∈ ks ++ k :: ks', IsKey empty tomb k') (hnd : (ks ++ k :: ks').Nodup)
    (hfresh : ∀ k' ∈ ks ++ k :: ks', ∀ s, tbl s ≠ k')
    (hroom : HasRoom slot W empty tomb (ks.foldl (probeInsert slot W empty tomb) tbl) k) :
    ∃ s, (ks ++ k :: ks').foldl (probeInsert slot W empty tomb) tbl s = k := by
  obtain ⟨hp, hmem⟩ := h.insertAll (fun k' hk' => hks k' (by simp [hk']))
    (List.nodup_append.mp hnd).1 (fun k' hk' => hfresh k' (by simp [hk']))
  have hkk : IsKey empty tomb k := hks k (by simp)
  have hsep := List.nodup_append.mp hnd
  have hkks : k ∉ ks := fun hm => hsep.2.2 k hm k (by simp) rfl
  have hfreshk : ∀ s, ks.foldl (probeInsert slot W empty tomb) tbl s ≠ k := by
    intro s hs
    rcases (hmem k hkk).2 ⟨s, hs⟩ with ⟨s', hs'⟩ | hm
    · exact hfresh k (by simp) s' hs'
    · exact hkks hm
  obtain ⟨hp1, hmem1⟩ := hp.insert hkk hfreshk
  have hin := (hmem1 k hkk).mpr (.inr ⟨rfl, hroom⟩)
  rw [List.foldl_append, List.foldl_cons]
  refine ((hp1.insertAll (fun k' hk' => hks k' (by simp [hk']))
    (List.nodup_cons.mp hsep.2.1).2 ?_).2 k hkk).1 hin
  intro k' hk' s hs
  have hk'key : IsKey empty tomb k' := hks k' (by simp [hk'])
  rcases (hmem1 k' hk'key).mp ⟨s, hs⟩ with hs' | ⟨rfl, -⟩
  · rcases (hmem k' hk'key).2 hs' with ⟨s', hs''⟩ | hm
    · exact hfresh k' (by simp [hk']) s' hs''
    · exact hsep.2.2 k' hm k' (by simp [hk']) rfl
  · exact (List.nodup_cons.mp hsep.2.1).1 hk'

theorem eraseAll (het : tomb ≠ empty) {ks : List K}
    (hks : ∀ k ∈ ks, IsKey empty tomb k) :
    Probed slot W empty tomb (ks.foldl (probeErase slot W empty tomb) tbl) ∧
      ∀ u, IsKey empty tomb u →
        ((∃ s, ks.foldl (probeErase slot W empty tomb) tbl s = u) ↔ (∃ s, tbl s = u) ∧ u ∉ ks) := by
  induction ks generalizing tbl with
  | nil => exact ⟨h, fun u _ => by simp⟩
  | cons k ks ih =>
    obtain ⟨hp, hmem⟩ := h.erase (hks k (by simp)) het
    obtain ⟨hp', hmem'⟩ := ih hp (fun k' hk' => hks k' (by simp [hk']))
    refine ⟨hp', fun u hu => ?_⟩
    rw [List.foldl_cons, hmem' u hu, hmem u hu, List.mem_cons, not_or, and_assoc]

end Probed
end probe

end MyMalloc
