import MyMalloc.Classic.Ptmalloc.Scan

/- The large bins and the search for the best fit (`bins.cpp`).

   The index of a size in `largebin_ranges_` grows with the size. So every chunk of a
   later bin is larger than every chunk of an earlier one, and the smallest chunk of
   at least `nb` bytes in the first bin that has one is the smallest of all bins
   (`alloc_split_best_fit`). The order of the chunks inside a bin does not matter.

   The search is stated for 63 bins that are lists, from `fd` to `bk`. The array of an
   arena has room for 62 of them: the index of the last one is 128, the length of the
   array, and its bit would be in a fifth word of the bitmap (`bin_in_bounds_iff`).
   As long as the search finds its chunk before the last bin, the code does to the
   arena's words what it does to the lists (`alloc_split_words`). -/
namespace MyMalloc.Ptmalloc

/-! ## Indices -/

def binmapSize : Nat := 4

/-- The word of `binmap_` that `mark_bin` writes. -/
def binmapWord (bin : Nat) : Nat := bin >>> 5

theorem largebinIndex_mono {a b : Nat} (h : a ≤ b) : largebinIndex a ≤ largebinIndex b := by
  have hfind : largebinMax.findIdx (fun m => decide (a < m)) ≤ largebinMax.findIdx (fun m => decide (b < m)) :=
    List.findIdx_le_findIdx fun m _ hm => decide_eq_true (Nat.lt_of_le_of_lt h (of_decide_eq_true hm))
  unfold largebinIndex
  omega

namespace Words

theorem binFor_small {size : Nat} (h : inSmallbinRange size = true) : binFor size = 2 + size / 16 ∧ binFor size < 66 := by
  have h1 : unsortedBinIdx = 1 := rfl
  have h1024 : minLargeSize = 1024 := rfl
  have hlt : size < minLargeSize := of_decide_eq_true h
  unfold binFor smallbinIndex
  rw [if_pos h, Nat.shiftRight_eq_div_pow]
  omega

theorem binFor_large {size : Nat} (h : inSmallbinRange size = false) : binFor size = 66 + largebinIndex size := by
  unfold binFor
  rw [h]
  rfl

/-- The index of a chunk's bin is inside `bins_`, its bit inside `binmap_`, and small and large sizes do
    not share it, exactly for sizes below 458752. -/
theorem bin_in_bounds_iff (size : Nat) :
    (binFor size < nBins ∧ binmapWord (binFor size) < binmapSize ∧
      ∀ other, inSmallbinRange other ≠ inSmallbinRange size → binFor other ≠ binFor size) ↔ size < 458752 := by
  constructor
  · intro h
    by_contra hlarge
    have hle : oversize ≤ size := Nat.not_lt.mp hlarge
    have hs : inSmallbinRange size = false := decide_eq_false (Nat.not_lt.mpr (Nat.le_trans (by decide) hle))
    have hidx := binFor_large hs
    rw [largebinIndex_oversize hle] at hidx
    rw [hidx] at h
    exact absurd h.1 (by decide)
  · intro h
    obtain ⟨-, hbound⟩ := binFor_bounds h
    refine ⟨hbound, ?_, fun other hne e => ?_⟩
    · have h128 : nBins = 128 := rfl
      have h4 : binmapSize = 4 := rfl
      rw [binmapWord, Nat.shiftRight_eq_div_pow]
      omega
    · cases hs : inSmallbinRange size with
      | true =>
        have hother := binFor_large (Bool.eq_false_of_not_eq_true (hs ▸ hne))
        have := (binFor_small hs).2
        omega
      | false =>
        have hother := (binFor_small (Bool.eq_true_of_not_eq_false (hs ▸ hne))).2
        have := binFor_large hs
        omega

/-- A chunk of 458752 bytes is filed one past the end of both arrays. -/
theorem last_bin_out_of_bounds :
    16 ∣ 458752 ∧ 458752 ≤ heapMaxSize ∧ binFor 458752 = nBins ∧ binmapWord (binFor 458752) = binmapSize := by
  decide

end Words

/-! ## Best fit -/

/-- A chunk of a bin. -/
structure BinChunk where
  addr : Nat
  size : Nat
  flags : Nat
  deriving DecidableEq, Repr

/-- The large bins and the unsorted bin, each from `fd` on. -/
structure LargeBins where
  bin : Nat → List BinChunk
  unsorted : List BinChunk

structure LargeAllocResult where
  victim : BinChunk
  remainder : Option BinChunk
  deriving DecidableEq, Repr

namespace LargeBins

/-- The walk through a bin: the smallest chunk so far, up to an exact fit. -/
def bestFit (nb : Nat) : List BinChunk → Option BinChunk → Option BinChunk
  | [], victim => victim
  | p :: l, victim =>
    if nb ≤ p.size ∧ ∀ v ∈ victim, p.size < v.size then
      if p.size = nb then some p else bestFit nb l (some p)
    else bestFit nb l victim

/-- What is left of the victim, if it is large enough, is a chunk of its own. -/
def splitVictim (nb : Nat) (victim : BinChunk) : LargeAllocResult :=
  if minsize ≤ victim.size - nb then
    ⟨{ victim with size := nb }, some ⟨victim.addr + nb, victim.size - nb, prevInuseBit ||| victim.flags⟩⟩
  else ⟨victim, none⟩

/-- One bin, from `bk` on. -/
def allocFrom (nb : Nat) (m : LargeBins) (i : Nat) : Option (LargeAllocResult × LargeBins) :=
  (bestFit nb (m.bin i).reverse none).map fun victim =>
    let r := splitVictim nb victim
    (r, ⟨Function.update m.bin i ((m.bin i).erase victim), r.remainder.toList ++ m.unsorted⟩)

/-- The bins `alloc_split` looks at. -/
def candidates (nb : Nat) : List Nat := (List.range nLargebins).filter (fun i => decide (largebinIndex nb ≤ i))

/-- `BinManager::alloc_split`. -/
def allocSplit (nb : Nat) (m : LargeBins) : Option (LargeAllocResult × LargeBins) :=
  (candidates nb).findSome? (allocFrom nb m)

/-- Each chunk is in the bin of its size, and in no other place. -/
structure Filed (m : LargeBins) : Prop where
  index : ∀ i < nLargebins, ∀ c ∈ m.bin i, largebinIndex c.size = i
  nodup : ∀ i < nLargebins, (m.bin i).Nodup

/-- The victim is the smallest of the chunks of at least `nb` bytes. It leaves its bin, and what is left
    of it comes to the front of the unsorted bin. -/
structure TakesBest (nb : Nat) (m : LargeBins) (r : LargeAllocResult) (m' : LargeBins) (victim : BinChunk) :
    Prop where
  listed : ∃ i < nLargebins, victim ∈ m.bin i
  fits : nb ≤ victim.size
  best : ∀ i < nLargebins, ∀ c ∈ m.bin i, nb ≤ c.size → victim.size ≤ c.size
  result : r = splitVictim nb victim
  bins : ∀ i < nLargebins, m'.bin i = (m.bin i).erase victim
  others : ∀ i < nLargebins, ∀ c, c ∈ m'.bin i ↔ c ∈ m.bin i ∧ c ≠ victim
  unsorted : m'.unsorted =
    if minsize ≤ victim.size - nb then
      ⟨victim.addr + nb, victim.size - nb, prevInuseBit ||| victim.flags⟩ :: m.unsorted
    else m.unsorted

section search
variable {nb : Nat} {m : LargeBins} {l : List BinChunk} {victim : Option BinChunk}

theorem bestFit_none (h : bestFit nb l victim = none) : victim = none ∧ ∀ c ∈ l, c.size < nb := by
  induction l generalizing victim with
  | nil => exact ⟨h, nofun⟩
  | cons p l ih =>
    rw [bestFit] at h
    split at h
    · split at h
      · cases h
      · cases (ih h).1
    · next hworse =>
      obtain ⟨hv, hl⟩ := ih h
      subst hv
      refine ⟨rfl, List.forall_mem_cons.mpr ⟨?_, hl⟩⟩
      exact Nat.lt_of_not_le fun hle => hworse ⟨hle, nofun⟩

theorem bestFit_some {v : BinChunk} (hfits : ∀ w ∈ victim, nb ≤ w.size) (h : bestFit nb l victim = some v) :
    (v ∈ l ∨ victim = some v) ∧ nb ≤ v.size ∧ (∀ w ∈ victim, v.size ≤ w.size) ∧
      ∀ c ∈ l, nb ≤ c.size → v.size ≤ c.size := by
  induction l generalizing victim with
  | nil =>
    rw [bestFit] at h
    subst h
    exact ⟨.inr rfl, hfits v rfl, fun w hw => by rw [Option.mem_some_iff.mp hw], nofun⟩
  | cons p l ih =>
    rw [bestFit] at h
    split at h
    · next hbetter =>
      split at h
      · next hexact =>
        -- nothing that fits is smaller than an exact fit
        obtain rfl : p = v := Option.some.inj h
        refine ⟨.inl List.mem_cons_self, hbetter.1, fun w hw => (hbetter.2 w hw).le, fun c _ hc => ?_⟩
        rw [hexact]
        exact hc
      · obtain ⟨hmem, hle, hsmall, hl⟩ := ih (fun w hw => Option.mem_some_iff.mp hw ▸ hbetter.1) h
        have hp : v.size ≤ p.size := hsmall p rfl
        refine ⟨.inl ?_, hle, fun w hw => hp.trans (hbetter.2 w hw).le, List.forall_mem_cons.mpr ⟨fun _ => hp, hl⟩⟩
        rcases hmem with hm | e
        · exact List.mem_cons_of_mem _ hm
        · rw [Option.some.inj e]
          exact List.mem_cons_self
    · next hworse =>
      obtain ⟨hmem, hle, hsmall, hl⟩ := ih hfits h
      refine ⟨hmem.imp_left (List.mem_cons_of_mem _), hle, hsmall, List.forall_mem_cons.mpr ⟨fun hp => ?_, hl⟩⟩
      -- `p` fits, so it is no smaller than the victim there was
      by_contra hlt
      refine hworse ⟨hp, fun w hw => ?_⟩
      have := hsmall w hw
      omega

theorem bestFit_start {v : BinChunk} (h : bestFit nb l none = some v) :
    v ∈ l ∧ nb ≤ v.size ∧ ∀ c ∈ l, nb ≤ c.size → v.size ≤ c.size := by
  obtain ⟨hmem, hfits, -, hsmallest⟩ := bestFit_some (by simp) h
  exact ⟨hmem.resolve_right nofun, hfits, hsmallest⟩

theorem mem_candidates {i : Nat} : i ∈ candidates nb ↔ i < nLargebins ∧ largebinIndex nb ≤ i := by
  simp [candidates]

theorem candidates_sorted (nb : Nat) : (candidates nb).Pairwise (· < ·) :=
  List.pairwise_lt_range.filter _

theorem Filed.candidate (h : Filed m) {i : Nat} (hi : i < nLargebins) {c : BinChunk} (hc : c ∈ m.bin i)
    (hle : nb ≤ c.size) : i ∈ candidates nb := by
  refine mem_candidates.mpr ⟨hi, ?_⟩
  rw [← h.index i hi c hc]
  exact largebinIndex_mono hle

theorem Filed.lt_of_bin_lt (h : Filed m) {i j : Nat} (hi : i < nLargebins) (hj : j < nLargebins) {c d : BinChunk}
    (hc : c ∈ m.bin i) (hd : d ∈ m.bin j) (hlt : i < j) : c.size < d.size := by
  by_contra hle
  have := largebinIndex_mono (Nat.not_lt.mp hle)
  rw [h.index i hi c hc, h.index j hj d hd] at this
  omega

theorem allocFrom_none {i : Nat} (h : allocFrom nb m i = none) : ∀ c ∈ m.bin i, c.size < nb := by
  intro c hc
  exact (bestFit_none (Option.map_eq_none_iff.mp h)).2 c (List.mem_reverse.mpr hc)

theorem allocSplit_none (h : Filed m) : m.allocSplit nb = none ↔ ∀ i < nLargebins, ∀ c ∈ m.bin i, c.size < nb := by
  unfold allocSplit
  rw [List.findSome?_eq_none_iff]
  constructor
  · intro hnone i hi c hc
    by_contra hle
    exact hle (allocFrom_none (hnone i (h.candidate hi hc (Nat.not_lt.mp hle))) c hc)
  · intro hall i hi
    obtain ⟨hi, -⟩ := mem_candidates.mp hi
    refine Option.map_eq_none_iff.mpr (Option.eq_none_iff_forall_ne_some.mpr fun v hv => ?_)
    obtain ⟨hmem, hfits, -⟩ := bestFit_start hv
    exact absurd (hall i hi v (List.mem_reverse.mp hmem)) (Nat.not_lt.mpr hfits)

theorem splitVictim_remainder (v : BinChunk) (u : List BinChunk) : (splitVictim nb v).remainder.toList ++ u =
    if minsize ≤ v.size - nb then ⟨v.addr + nb, v.size - nb, prevInuseBit ||| v.flags⟩ :: u else u := by
  unfold splitVictim
  split <;> rfl

theorem allocSplit_some (h : Filed m) {r : LargeAllocResult} {m' : LargeBins} (hrun : m.allocSplit nb = some (r, m')) :
    ∃ victim, TakesBest nb m r m' victim := by
  obtain ⟨before, i, after, hsplit, hfrom, hbefore⟩ := List.findSome?_eq_some_iff.mp hrun
  have hsorted := candidates_sorted nb
  rw [hsplit] at hsorted
  obtain ⟨hi, -⟩ := mem_candidates.mp (hsplit ▸ by simp : i ∈ candidates nb)
  obtain ⟨v, hv, hres⟩ := Option.map_eq_some_iff.mp hfrom
  obtain ⟨hmem, hfits, hsmallest⟩ := bestFit_start hv
  have hmem : v ∈ m.bin i := List.mem_reverse.mp hmem
  obtain ⟨hr, hm'⟩ := Prod.mk.inj hres
  have hbin : ∀ j < nLargebins, m'.bin j = (m.bin j).erase v := by
    intro j hj
    rw [← hm']
    rcases eq_or_ne j i with e | e
    · rw [e]
      exact Function.update_self ..
    · -- `v` is in one bin only
      have hv : v ∉ m.bin j := fun hm => e ((h.index j hj v hm).symm.trans (h.index i hi v hmem))
      rw [List.erase_of_not_mem hv]
      exact Function.update_of_ne e ..
  refine ⟨v, ⟨i, hi, hmem⟩, hfits, fun j hj c hc hle => ?_, hr.symm, hbin, fun j hj c => ?_, ?_⟩
  · -- no bin before this one has a chunk that fits, and the chunks of those behind it are larger
    rcases Nat.lt_trichotomy j i with hlt | rfl | hlt
    · have hcand := h.candidate hj hc hle
      rw [hsplit] at hcand
      have hj : j ∈ before := by
        rcases List.mem_append.mp hcand with hb | hb
        · exact hb
        · rcases List.mem_cons.mp hb with rfl | ha
          · omega
          · have := List.rel_of_pairwise_cons (List.pairwise_append.mp hsorted).2.1 ha
            omega
      exact absurd (allocFrom_none (hbefore j hj) c hc) (Nat.not_lt.mpr hle)
    · exact hsmallest c (List.mem_reverse.mpr hc) hle
    · exact (h.lt_of_bin_lt hi hj hmem hc hlt).le
  · rw [hbin j hj, (h.nodup j hj).mem_erase_iff, and_comm]
  · rw [← hm']
    exact splitVictim_remainder v m.unsorted

/-- `alloc_split` is a best fit over all large bins. -/
theorem alloc_split_best_fit (h : Filed m) (nb : Nat) :
    (m.allocSplit nb = none ↔ ∀ i < nLargebins, ∀ c ∈ m.bin i, c.size < nb) ∧
      ∀ r m', m.allocSplit nb = some (r, m') → ∃ victim, TakesBest nb m r m' victim :=
  ⟨allocSplit_none h, fun _ _ => allocSplit_some h⟩

end search

/-- Two chunks, in the bins 0 and 1. -/
def twoBins : LargeBins where
  bin := fun i => if i = 0 then [⟨4096, 1024, 1⟩] else if i = 1 then [⟨8192, 1104, 1⟩, ⟨16384, 1088, 1⟩] else []
  unsorted := []

theorem filed_twoBins : Filed twoBins := by
  constructor
  · intro i _ c hc
    unfold twoBins at hc
    dsimp only at hc
    split at hc
    · next hi =>
      rw [List.mem_singleton.mp hc, hi]
      decide
    · split at hc
      · next hi =>
        rw [hi]
        rcases List.mem_cons.mp hc with rfl | hc
        · decide
        · rw [List.mem_singleton.mp hc]
          decide
      · cases hc
  · intro i _
    unfold twoBins
    dsimp only
    split
    · decide
    · split
      · decide
      · exact List.nodup_nil

/-- For 1040 bytes the chunk of 1088 is taken, and 48 bytes go to the unsorted bin. -/
theorem alloc_split_best_fit_two :
    (twoBins.allocSplit 1040).map (·.1) = some ⟨⟨16384, 1040, 1⟩, some ⟨17424, 48, 1⟩⟩ ∧
      ∀ r m', twoBins.allocSplit 1040 = some (r, m') → ∃ victim, TakesBest 1040 twoBins r m' victim :=
  ⟨by decide, (alloc_split_best_fit filed_twoBins 1040).2⟩

end LargeBins

/-! ## The words of an arena -/

namespace Words

open Exec

variable {τ : Type}

def binChunk (mem : Nat → Nat) (N : Nat → Option Nat) (c : Nat) : BinChunk := ⟨c, sizeAt N c, mem (c + 8) &&& 7⟩

/-- The large bins of an arena; the last one is not in its array. -/
def largeBinsOf (mem : Nat → Nat) (N : Nat → Option Nat) (L : Shelf → List Nat) : LargeBins where
  bin := fun i => if i < 62 then (L (.bin (66 + i))).map (binChunk mem N) else []
  unsorted := (L (.bin unsortedBinIdx)).map (binChunk mem N)

section walk
variable {s : State τ} {k nb i : Nat} {N : Nat → Option Nat} {L : Shelf → List Nat}

theorem largeBinsOf_bin {mem : Nat → Nat} (hi : i < 62) :
    (largeBinsOf mem N L).bin i = (L (.bin (66 + i))).map (binChunk mem N) := if_pos hi

/-- The walk through the words of a bin is the walk through the list. -/
theorem bestFit_run {snt fuel p : Nat} {l : List Nat} (victim : Option BinChunk) (hc : Chain snt (bkOf s.mem) p l)
    (hl : ∀ c ∈ l, s.mapped (c + 8) = true ∧ s.mapped (c + 24) = true ∧ sizeBits (s.mem (c + 8)) = sizeAt N c)
    (hf : l.length < fuel) :
    bestFit snt nb fuel p (victim.map fun v => (v.addr, v.size)) s =
      some ((LargeBins.bestFit nb (l.map (binChunk s.mem N)) victim).map (fun v => (v.addr, v.size)), s) := by
  induction l generalizing fuel p victim with
  | nil =>
    obtain rfl : p = snt := hc
    obtain ⟨fuel, rfl⟩ : ∃ m, fuel = m + 1 := ⟨fuel - 1, by simp at hf; omega⟩
    rw [bestFit, if_pos rfl]
    rfl
  | cons a l ih =>
    obtain ⟨rfl, hne, htl⟩ := hc
    obtain ⟨fuel, rfl⟩ : ∃ m, fuel = m + 1 := ⟨fuel - 1, by simp at hf; omega⟩
    obtain ⟨hm8, hm24, hsize⟩ := hl p List.mem_cons_self
    have hih := fun v => ih v htl (fun c hc => hl c (List.mem_cons_of_mem _ hc))
      (by simpa using hf : l.length < fuel)
    have hbetter : (nb ≤ sizeAt N p ∧ ∀ v ∈ victim.map (fun v => (v.addr, v.size)), sizeAt N p < v.2) ↔
        nb ≤ sizeAt N p ∧ ∀ v ∈ victim, sizeAt N p < v.size := by
      cases victim <;> simp
    rw [List.map_cons, LargeBins.bestFit, bestFit, if_neg hne, bind_run (chunkSize_of hm8 hsize)]
    by_cases hb : nb ≤ (binChunk s.mem N p).size ∧ ∀ v ∈ victim, (binChunk s.mem N p).size < v.size
    · rw [if_pos hb, decide_eq_true (hbetter.mpr hb), if_pos rfl]
      by_cases he : (binChunk s.mem N p).size = nb
      · rw [if_pos he, if_pos ⟨rfl, he⟩]
        rfl
      · rw [if_neg he, if_neg (fun e => he e.2), bind_run (load_run hm24)]
        exact hih (some (binChunk s.mem N p))
    · rw [if_neg hb, decide_eq_false (fun h => hb (hbetter.mp h)), if_neg Bool.false_ne_true,
        if_neg (fun e => Bool.false_ne_true e.1), bind_run (load_run hm24)]
      exact hih victim

theorem largeBin_run (hi : i < 62) : largeBin k i s = some (sentinel (s.arena k).base (66 + i), s) := by
  have h128 : nBins = 128 := rfl
  have h66 : unsortedBinIdx + 1 + nSmallbins = 66 := rfl
  unfold largeBin
  rw [if_neg (by omega)]
  rfl

theorem State.Lists.bestFit_bin (h : s.Lists k N L) (nb : Nat) (hi : i < 62) :
    bestFit (sentinel (s.arena k).base (66 + i)) nb s.walkLimit (s.mem (sentinel (s.arena k).base (66 + i) + 24)) none s =
      some ((LargeBins.bestFit nb ((largeBinsOf s.mem N L).bin i).reverse none).map (fun v => (v.addr, v.size)), s) := by
  have h128 : nBins = 128 := rfl
  have hloop := h.loop (66 + i) (by omega) (by omega)
  have hlen : (L (.bin (66 + i))).reverse.length < s.walkLimit := by
    rw [List.length_reverse]
    exact (h.walk hloop.nodup).2
  rw [largeBinsOf_bin hi, ← List.map_reverse]
  refine bestFit_run none hloop.reverse.chain (fun c hc => ?_) hlen
  have hc := List.mem_reverse.mp hc
  obtain ⟨-, n, hn⟩ := h.listed _ c hc
  have hch := h.chunk c n hn
  refine ⟨h.words c n hn (c + 8) (by omega) (by omega), (h.node_mapped (h.node_of_mem hc)).2, ?_⟩
  rw [sizeAt_eq hn]
  exact h.head c n hn

theorem State.Lists.splitFrom_none (h : s.Lists k N L) (hi : i < 62)
    (hnone : LargeBins.allocFrom nb (largeBinsOf s.mem N L) i = none) : splitFrom k nb i s = some (none, s) := by
  have hfit := h.bestFit_bin nb hi
  rw [Option.map_eq_none_iff.mp hnone] at hfit
  have hmapped := (h.node_mapped (FreeLists.node_sentinel (N := N) (i := 66 + i) (by omega)
    (by have : nBins = 128 := rfl; omega))).2
  unfold splitFrom
  rw [bind_run (largeBin_run hi), bind_run (h.binEmpty_run (by omega) (by have : nBins = 128 := rfl; omega))]
  split
  · rfl
  · rw [gets_bind, bind_run (load_run hmapped), bind_run hfit]
    rfl

end walk

section take
variable {s : State τ} {k nb i p n : Nat} {N : Nat → Option Nat} {L : Shelf → List Nat} {l₁ l₂ : List Nat}

/-- The words `alloc_split` writes. -/
def restMem (mem : Nat → Nat) (p n nb : Nat) : Nat → Nat :=
  splitMem mem p n nb (mem (p + 8) &&& 7) (prevInuseBit ||| (mem (p + 8) &&& 7))

theorem flags_lt_eight (w : Nat) : prevInuseBit ||| (w &&& 7) < 8 := Nat.or_comm .. ▸ flags_lt w

theorem State.Lists.rest (h : s.Lists k N L) (hp : N p = some n) (hout : ∀ sh, p ∉ L sh) (h32 : 32 ≤ nb)
    (h16 : 16 ∣ nb) (hle : nb + 32 ≤ n) : State.Lists { s with mem := restMem s.mem p n nb } k (cut N p n nb) L :=
  FreeLists.splitMem h hp hout h32 h16 hle (Nat.and_lt_two_pow (n := 3) _ (by decide)) (flags_lt_eight _)

theorem State.Lists.rest_run (h : s.Lists k N L) (hp : N p = some n) (hout : ∀ sh, p ∉ L sh) (h32 : 32 ≤ nb)
    (h16 : 16 ∣ nb) (hle : nb + 32 ≤ n) :
    (do
      let flags ← chunkFlags p
      setHead p nb flags
      store (p + nb) nb
      setHead (p + nb) (n - nb) (prevInuseBit ||| flags)
      setFoot (p + nb) (n - nb)
      let unsorted ← unsortedBin k
      pushFront unsorted (p + nb)
      pure (some (p, some (p + nb)))) s =
    some (some (p, some (p + nb)), { s with
      mem := pushMem (restMem s.mem p n nb) (sentinel (s.arena k).base unsortedBinIdx) (p + nb) }) := by
  have hpush := (h.rest hp hout h32 h16 hle).pushFront_run (i := unsortedBinIdx) (by decide) (by decide) (cut_rest (by omega))
  have hbin : unsortedBin k { s with mem := restMem s.mem p n nb } =
      some (sentinel (s.arena k).base unsortedBinIdx, { s with mem := restMem s.mem p n nb }) := rfl
  rw [bind_run (chunkFlags_of (h.words p n hp (p + 8) (by omega) (by omega)))]
  exact (h.splitWords_run hp h32 hle _ _).trans ((bind_run hbin).trans (bind_run hpush))

/-- The chunks after `alloc_split` has taken one, and cut off what is left. -/
def splitSizes (N : Nat → Option Nat) (nb : Nat) : Nat × Option Nat → Nat → Option Nat
  | (_, none) => N
  | (p, some _) => cut N p (sizeAt N p) nb

/-- The lists after it. -/
def splitLists (L : Shelf → List Nat) : Nat × Option Nat → Shelf → List Nat
  | (p, none) => remove L p
  | (p, some q) => Function.update (remove L p) (.bin unsortedBinIdx) (q :: remove L p (.bin unsortedBinIdx))

theorem State.Lists.splitFrom_some (h : s.Lists k N L) (h32 : 32 ≤ nb) (h16 : 16 ∣ nb) (hi : i < 62)
    {r : LargeAllocResult} {m' : LargeBins}
    (hsome : LargeBins.allocFrom nb (largeBinsOf s.mem N L) i = some (r, m')) :
    ∃ v s', v = (r.victim.addr, r.remainder.map (·.addr)) ∧ splitFrom k nb i s = some (some v, s') ∧
      s'.Lists k (splitSizes N nb v) (splitLists L v) := by
  have hmin : minsize = 32 := rfl
  obtain ⟨v, hv, hres⟩ := Option.map_eq_some_iff.mp hsome
  obtain ⟨rfl, rfl⟩ := Prod.mk.inj hres
  have hfit := h.bestFit_bin nb hi
  rw [hv] at hfit
  obtain ⟨hmem, hle, -⟩ := LargeBins.bestFit_start hv
  -- the victim is the chunk at some `p` of the bin
  rw [List.mem_reverse, largeBinsOf_bin hi] at hmem
  obtain ⟨p, hp, rfl⟩ := List.mem_map.mp hmem
  obtain ⟨l₁, l₂, hl⟩ := List.append_of_mem hp
  obtain ⟨⟨hi1, hi2⟩, n, hn⟩ := h.listed _ p hp
  have hsize : sizeAt N p = n := sizeAt_eq hn
  have hle : nb ≤ n := hsize ▸ hle
  obtain ⟨h₁, hout⟩ := h.unlink_bin hl
  have hne : ¬ decide (L (.bin (66 + i)) = []) = true := by simp [hl]
  have hmapped := (h.node_mapped (FreeLists.node_sentinel (N := N) hi1 hi2)).2
  unfold splitFrom
  rw [bind_run (largeBin_run hi), bind_run (h.binEmpty_run (by omega) (by have : nBins = 128 := rfl; omega)), if_neg hne, gets_bind,
    bind_run (load_run hmapped), bind_run hfit]
  dsimp only [Option.map_some, binChunk]
  rw [bind_run (h.unlink_run hp), hsize]
  unfold LargeBins.splitVictim
  by_cases hrest : minsize ≤ n - nb
  · have hrun := h₁.rest_run hn hout h32 h16 (by omega)
    have hlists := (State.Lists.rest h₁ hn hout h32 h16 (by omega)).push (i := unsortedBinIdx) (by decide)
      (by decide) (cut_rest (by omega)) (h₁.not_listed_inside hn (by omega) (by omega))
    rw [if_pos hrest, if_pos hrest]
    refine ⟨(p, some (p + nb)), _, rfl, hrun, ?_⟩
    dsimp only [splitSizes, splitLists]
    rw [hsize, h.remove_eq hl]
    exact hlists
  · rw [if_neg hrest, if_neg hrest]
    refine ⟨(p, none), _, rfl, rfl, ?_⟩
    dsimp only [splitSizes, splitLists]
    rw [h.remove_eq hl]
    exact h₁

/-- If a chunk fits, the search of the words ends where that of the lists does, and finds nothing before. -/
theorem State.Lists.allocSplit_found (h : s.Lists k N L) (h32 : 32 ≤ nb) (h16 : 16 ∣ nb)
    (hfit : ∃ i, largebinIndex nb ≤ i ∧ i < 62 ∧ ∃ c ∈ L (.bin (66 + i)), nb ≤ sizeAt N c) :
    ∃ r m' before i after v s', (largeBinsOf s.mem N L).allocSplit nb = some (r, m') ∧
      LargeBins.candidates nb = before ++ i :: after ∧ i < 62 ∧ (∀ j ∈ before, splitFrom k nb j s = some (none, s)) ∧
      v = (r.victim.addr, r.remainder.map (·.addr)) ∧ splitFrom k nb i s = some (some v, s') ∧
      s'.Lists k (splitSizes N nb v) (splitLists L v) := by
  have h63 : nLargebins = 63 := rfl
  cases hrun : (largeBinsOf s.mem N L).allocSplit nb with
  | none =>
    obtain ⟨i, h1, h2, c, hc, hle⟩ := hfit
    have hcand : i ∈ LargeBins.candidates nb := LargeBins.mem_candidates.mpr ⟨by omega, h1⟩
    have hsmall := LargeBins.allocFrom_none (List.findSome?_eq_none_iff.mp hrun i hcand) (binChunk s.mem N c)
      ((largeBinsOf_bin h2).symm.subst (List.mem_map_of_mem hc))
    exact absurd hle (Nat.not_le.mpr hsmall)
  | some x =>
    obtain ⟨before, i, after, hsplit, hfrom, hbefore⟩ := List.findSome?_eq_some_iff.mp hrun
    have hsorted := LargeBins.candidates_sorted nb
    rw [hsplit] at hsorted
    obtain ⟨hi, -⟩ := LargeBins.mem_candidates.mp (hsplit ▸ by simp : i ∈ LargeBins.candidates nb)
    have hi : i < 62 := by
      have : i ≠ 62 := by
        rintro rfl
        cases hfrom
      omega
    obtain ⟨v, s', hv, hfound, hs⟩ := h.splitFrom_some h32 h16 hi hfrom
    refine ⟨x.1, x.2, before, i, after, v, s', rfl, hsplit, hi, fun j hj => ?_, hv, hfound, hs⟩
    have hlt := (List.pairwise_append.mp hsorted).2.2 j hj i List.mem_cons_self
    exact h.splitFrom_none (by omega) (hbefore j hj)

theorem State.Lists.filed (h : s.Lists k N L)
    (hin : ∀ i < 62, ∀ c ∈ L (.bin (66 + i)), largebinIndex (sizeAt N c) = i) : (largeBinsOf s.mem N L).Filed := by
  have h128 : nBins = 128 := rfl
  refine ⟨fun i _ c hc => ?_, fun i _ => ?_⟩ <;> by_cases hi : i < 62
  · rw [largeBinsOf_bin hi] at hc
    obtain ⟨p, hp, rfl⟩ := List.mem_map.mp hc
    exact hin i hi p hp
  · exact absurd ((if_neg hi).subst hc) List.not_mem_nil
  · rw [largeBinsOf_bin hi]
    exact (h.loop (66 + i) (by omega) (by omega)).nodup.map fun c d e => congrArg BinChunk.addr e
  · exact (if_neg hi).symm.subst List.nodup_nil

/-- `alloc_split` takes the smallest chunk that fits, if the chunks are in the bins of their sizes. What is left
    of it, if it makes a chunk, comes to the unsorted bin. -/
theorem alloc_split_words (h : s.Lists k N L)
    (hin : ∀ i < 62, ∀ c ∈ L (.bin (66 + i)), largebinIndex (sizeAt N c) = i) (h32 : 32 ≤ nb) (h16 : 16 ∣ nb)
    (hfit : ∃ i < 62, ∃ c ∈ L (.bin (66 + i)), nb ≤ sizeAt N c) :
    ∃ p q s', allocSplit k nb s = some (some (p, q), s') ∧
      s'.Lists k (splitSizes N nb (p, q)) (splitLists L (p, q)) ∧
      q = (if minsize ≤ sizeAt N p - nb then some (p + nb) else none) ∧
      (∃ i < 62, p ∈ L (.bin (66 + i))) ∧ nb ≤ sizeAt N p ∧
      ∀ i < 62, ∀ c ∈ L (.bin (66 + i)), nb ≤ sizeAt N c → sizeAt N p ≤ sizeAt N c := by
  have h63 : nLargebins = 63 := rfl
  obtain ⟨i, hi, c, hc, hle⟩ := hfit
  obtain ⟨r, m', before, l, after, v, s', hsplit, hcand, -, hskip, hv, hrun, hs⟩ := h.allocSplit_found h32 h16
    ⟨i, hin i hi c hc ▸ largebinIndex_mono hle, hi, c, hc, hle⟩
  obtain ⟨w, best⟩ := LargeBins.allocSplit_some (h.filed hin) hsplit
  obtain ⟨j, -, hw⟩ := best.listed
  have hj : j < 62 := by_contra fun hj => absurd ((if_neg hj).subst hw) List.not_mem_nil
  rw [largeBinsOf_bin hj] at hw
  obtain ⟨p, hp, rfl⟩ := List.mem_map.mp hw
  have hv : v = (p, if minsize ≤ sizeAt N p - nb then some (p + nb) else none) := by
    rw [hv, best.result]
    by_cases hrest : minsize ≤ sizeAt N p - nb <;> simp [LargeBins.splitVictim, binChunk, hrest]
  subst hv
  refine ⟨p, _, s', ?_, hs, rfl, ⟨j, hj, hp⟩, best.fits, fun i hi c hc =>
    best.best i (by omega) _ ((largeBinsOf_bin hi).symm.subst (List.mem_map_of_mem hc))⟩
  change firstFound (splitFrom k nb) (LargeBins.candidates nb) s = _
  rw [hcand, firstFound_skip hskip, firstFound, bind_run hrun]
  rfl

end take

/-- An arena with one chunk, and empty bins. -/
def loneChunk (n : Nat) : State Unit :=
  { soleUnsorted n with mem := initBins 4096 (fun a => if a = 1048584 then n + 1 else 0) }

/-- A chunk of 2048 bytes in its bin, and a request of 1040. -/
theorem alloc_split_words_one : ∃ (s s' : State Unit) (p : Nat) (q : Option Nat),
    allocSplit 0 1040 s = some (some (p, q), s') := by
  let s := { loneChunk 2048 with mem := pushMem (loneChunk 2048).mem (sentinel 4096 82) 1048576 }
  have h : s.Lists 0 (soleChunk 2048) (Function.update (fun _ => []) (.bin 82) [1048576]) :=
    (soleUnsorted_init (by decide) (by decide) (by decide)).push (by decide) (by decide) (Function.update_self ..) (by simp)
  obtain ⟨p, q, s', hrun, -⟩ := alloc_split_words h (by decide +kernel) (by decide : 32 ≤ 1040) (by decide)
    ⟨16, by decide, 1048576, List.mem_singleton_self _, by decide⟩
  exact ⟨s, s', p, q, hrun⟩

end Words

end MyMalloc.Ptmalloc
