import MyMalloc.Classic.Jemalloc.Malloc
import Mathlib.Algebra.BigOperators.Group.Finset.Basic
import Mathlib.Algebra.Order.BigOperators.Group.Finset

/- The thread cache of the jemalloc-like allocator (`je_tcache_t`).

   Each bin is an array of 4096 pointers with a count, and `total_count` is to be
   the sum of the counts. Here they are fields, as in the source; `Malloc` has the
   bins as lists. The memory of an array is whatever it was when it was allocated.

   `free` runs `gc` once more than 4096 objects are cached in all. For every bin, `gc`
   sets the count to the low-water mark, which is zero, and then subtracts the
   difference of the two, which is zero as well: all objects are gone, and
   `total_count` still counts them. So nothing is lost exactly in the runs that never
   come to that (`nothing_lost_iff`). -/
namespace MyMalloc.Jemalloc

open Finset

/-- `je_tcache_bin_t`. -/
structure TcacheBin where
  stack : Nat → Nat
  count : Nat
  lowWater : Nat

/-- `je_tcache_t`; no method of the cache reads `arena_idx`. -/
structure ArrayCache where
  bin : Nat → TcacheBin
  totalCount : Nat

namespace ArrayCache

def init (junk : Nat → Nat → Nat) : ArrayCache := ⟨fun c => ⟨junk c, 0, 0⟩, 0⟩

def setBin (c : Nat) (b : TcacheBin) (tc : ArrayCache) : ArrayCache :=
  { tc with bin := Function.update tc.bin c b }

theorem setBin_bin_self (c : Nat) (b : TcacheBin) (tc : ArrayCache) : (tc.setBin c b).bin c = b :=
  Function.update_self ..

theorem setBin_bin_of_ne {c i : Nat} (h : i ≠ c) (b : TcacheBin) (tc : ArrayCache) :
    (tc.setBin c b).bin i = tc.bin i :=
  Function.update_of_ne h ..

def alloc (c : Nat) (tc : ArrayCache) : Option Nat × ArrayCache :=
  if nSmallClasses ≤ c then (none, tc)
  else
    let b := tc.bin c
    if b.lowWater < b.count then
      (some (b.stack (b.count - 1)), { tc.setBin c { b with count := b.count - 1 } with
        totalCount := (tc.totalCount + (2^64 - 1)) % 2^64 })
    else (none, tc)

/-- One bin of `gc`: the difference is taken after the count is set. -/
def gcBin (tc : ArrayCache) (i : Nat) : ArrayCache :=
  let b := tc.bin i
  if b.lowWater * 2 < b.count then
    let b := { b with count := b.lowWater }
    { tc.setBin i b with totalCount := (tc.totalCount + (2^64 - (b.count - b.lowWater))) % 2^64 }
  else tc

def gc (tc : ArrayCache) : ArrayCache := (List.range nSmallClasses).foldl gcBin tc

/-- An object on top of a bin. -/
def push (c ptr : Nat) (tc : ArrayCache) : ArrayCache :=
  let b := tc.bin c
  { tc.setBin c { b with stack := Function.update b.stack b.count ptr, count := b.count + 1 } with
    totalCount := (tc.totalCount + 1) % 2^64 }

theorem push_totalCount (c ptr : Nat) (tc : ArrayCache) : (tc.push c ptr).totalCount = (tc.totalCount + 1) % 2^64 := rfl

theorem push_bin_self (c ptr : Nat) (tc : ArrayCache) : (tc.push c ptr).bin c = { tc.bin c with
    stack := Function.update (tc.bin c).stack (tc.bin c).count ptr, count := (tc.bin c).count + 1 } :=
  setBin_bin_self ..

theorem push_bin_of_ne {c i : Nat} (h : i ≠ c) (ptr : Nat) (tc : ArrayCache) :
    (tc.push c ptr).bin i = tc.bin i :=
  setBin_bin_of_ne h ..

/-- `je_tcache_t::free`: whether the object was taken. -/
def free (c ptr : Nat) (tc : ArrayCache) : Bool × ArrayCache :=
  if nSmallClasses ≤ c then (false, tc)
  else if (tc.bin c).count < tcacheMax then
    let tc := tc.push c ptr
    (true, if tcacheGcThresh < tc.totalCount then tc.gc else tc)
  else (false, tc)

/-! ## Runs -/

inductive Call where
  | alloc (c : Nat)
  | free (c ptr : Nat)
  deriving DecidableEq, Repr

/-- The cache, and for each class the objects passed to `free`, those among them it refused, and those
    `alloc` returned. A refused object is marked free in its run by `je_free` (`smallFree`). -/
structure Logged where
  cache : ArrayCache
  passed : Nat → List Nat
  refused : Nat → List Nat
  returned : Nat → List Nat

def Logged.start (junk : Nat → Nat → Nat) : Logged := ⟨init junk, fun _ => [], fun _ => [], fun _ => []⟩

def Logged.step (l : Logged) : Call → Logged
  | .alloc c =>
    let r := l.cache.alloc c
    { l with cache := r.2, returned := Function.update l.returned c (r.1.toList ++ l.returned c) }
  | .free c ptr =>
    let r := l.cache.free c ptr
    { l with
      cache := r.2
      passed := Function.update l.passed c (ptr :: l.passed c)
      refused := Function.update l.refused c (if r.1 then l.refused c else ptr :: l.refused c) }

/-- The objects of a bin. -/
def contents (tc : ArrayCache) (c : Nat) : List Nat := (List.range (tc.bin c).count).map (tc.bin c).stack

/-- `total_count` is the sum of the counts, and every object is in its bin, returned or back in its run
    as often as it was passed to `free`. -/
structure NothingLost (l : Logged) : Prop where
  total : l.cache.totalCount = ∑ c ∈ range nSmallClasses, (l.cache.bin c).count
  objects : ∀ c x, (l.passed c).count x =
    (l.cache.contents c).count x + (l.returned c).count x + (l.refused c).count x

/-- Nothing is lost in any state of the run. -/
def Stays : Logged → List Call → Prop
  | l, [] => NothingLost l
  | l, q :: run => NothingLost l ∧ Stays (l.step q) run

/-- The call runs `gc`: the object is taken, and 4096 are cached. -/
def Collects (tc : ArrayCache) : Call → Prop
  | .alloc _ => False
  | .free c _ => c < nSmallClasses ∧ (tc.bin c).count < tcacheMax ∧ tcacheGcThresh ≤ tc.totalCount

def NeverCollects : Logged → List Call → Prop
  | _, [] => True
  | l, q :: run => ¬ Collects l.cache q ∧ NeverCollects (l.step q) run

/-! ## What a call keeps -/

structure Inv (l : Logged) : Prop where
  lost : NothingLost l
  small : l.cache.totalCount ≤ tcacheGcThresh
  low : ∀ c, (l.cache.bin c).lowWater = 0

theorem inv_start (junk : Nat → Nat → Nat) : Inv (Logged.start junk) := by
  refine ⟨⟨?_, fun c x => rfl⟩, Nat.zero_le _, fun _ => rfl⟩
  simp [Logged.start, init]

theorem sum_setBin (tc : ArrayCache) {c : Nat} (hc : c < nSmallClasses) (b : TcacheBin) :
    (∑ i ∈ range nSmallClasses, ((tc.setBin c b).bin i).count) + (tc.bin c).count =
      (∑ i ∈ range nSmallClasses, (tc.bin i).count) + b.count := by
  have hmem := mem_range.mpr hc
  have hrest : ∑ i ∈ (range nSmallClasses).erase c, ((tc.setBin c b).bin i).count =
      ∑ i ∈ (range nSmallClasses).erase c, (tc.bin i).count :=
    sum_congr rfl fun i hi => by rw [setBin_bin_of_ne (ne_of_mem_erase hi)]
  rw [← add_sum_erase _ _ hmem, ← add_sum_erase _ (fun i => (tc.bin i).count) hmem, hrest, setBin_bin_self]
  omega

section steps
variable {l : Logged} {tc : ArrayCache} {c : Nat}

section
variable (inv : Inv l)
include inv

theorem Inv.count_le (hc : c < nSmallClasses) : (l.cache.bin c).count ≤ l.cache.totalCount := by
  rw [inv.lost.total]
  exact single_le_sum (f := fun i => (l.cache.bin i).count) (fun _ _ => Nat.zero_le _) (mem_range.mpr hc)

theorem Inv.change (hc : c < nSmallClasses) {b : TcacheBin} {total : Nat} {passed returned : List Nat}
    (hlow : b.lowWater = 0) (htotal : total + (l.cache.bin c).count = l.cache.totalCount + b.count)
    (hsmall : total ≤ tcacheGcThresh)
    (hobjects : ∀ x, passed.count x =
      ((List.range b.count).map b.stack).count x + returned.count x + (l.refused c).count x) :
    Inv ⟨{ l.cache.setBin c b with totalCount := total }, Function.update l.passed c passed, l.refused,
      Function.update l.returned c returned⟩ := by
  refine ⟨⟨?_, fun i x => ?_⟩, hsmall, fun i => ?_⟩
  · have hsum := sum_setBin l.cache hc b
    have hold := inv.lost.total
    dsimp only
    omega
  · unfold contents
    dsimp only
    rcases eq_or_ne i c with e | e
    · subst e
      rw [setBin_bin_self, Function.update_self, Function.update_self]
      exact hobjects x
    · rw [setBin_bin_of_ne e, Function.update_of_ne e, Function.update_of_ne e]
      exact inv.lost.objects i x
  · dsimp only
    rcases eq_or_ne i c with e | e
    · rw [e, setBin_bin_self]
      exact hlow
    · rw [setBin_bin_of_ne e]
      exact inv.low i

theorem Inv.alloc_none (h : l.cache.alloc c = (none, l.cache)) : Inv (l.step (.alloc c)) := by
  have hstep : l.step (.alloc c) = l := by
    rw [Logged.step, h]
    simp
  rw [hstep]
  exact inv

theorem Inv.alloc_top (hc : c < nSmallClasses) {n : Nat} (hn : (l.cache.bin c).count = n + 1) :
    l.cache.alloc c = (some ((l.cache.bin c).stack n),
      { l.cache.setBin c { l.cache.bin c with count := n } with totalCount := l.cache.totalCount - 1 }) := by
  have hle := inv.count_le hc
  have hsmall := inv.small
  have h4096 : tcacheGcThresh = 4096 := rfl
  have hless : (l.cache.totalCount + (2^64 - 1)) % 2^64 = l.cache.totalCount - 1 := by omega
  rw [ArrayCache.alloc, if_neg (Nat.not_le.mpr hc)]
  dsimp only
  rw [inv.low c, hn, if_pos (Nat.succ_pos n), Nat.add_sub_cancel, hless]

theorem Inv.alloc (c : Nat) : Inv (l.step (.alloc c)) := by
  by_cases hc : nSmallClasses ≤ c
  · exact inv.alloc_none (if_pos hc)
  have hc := Nat.lt_of_not_le hc
  cases hn : (l.cache.bin c).count with
  | zero =>
    apply inv.alloc_none
    rw [ArrayCache.alloc, if_neg (Nat.not_le.mpr hc)]
    dsimp only
    rw [inv.low c, hn]
    rfl
  | succ n =>
    have hstep : l.step (.alloc c) = ⟨{ l.cache.setBin c { l.cache.bin c with count := n } with
        totalCount := l.cache.totalCount - 1 }, Function.update l.passed c (l.passed c), l.refused,
        Function.update l.returned c ((l.cache.bin c).stack n :: l.returned c)⟩ := by
      rw [Logged.step, inv.alloc_top hc hn, Function.update_eq_self]
      rfl
    have hle := inv.count_le hc
    have hsmall := inv.small
    rw [hstep]
    refine inv.change hc (inv.low c) (by dsimp only; omega) (by omega) fun x => ?_
    -- the bin has the object less that was returned
    have hold := inv.lost.objects c x
    rw [contents, hn, List.range_succ, List.map_append, List.count_append, List.map_cons, List.map_nil,
      List.count_singleton] at hold
    rw [List.count_cons]
    dsimp only
    omega

theorem Inv.push (ptr : Nat) (hc : c < nSmallClasses) (hroom : l.cache.totalCount < tcacheGcThresh) :
    Inv ⟨l.cache.push c ptr, Function.update l.passed c (ptr :: l.passed c), l.refused, l.returned⟩ := by
  have h4096 : tcacheGcThresh = 4096 := rfl
  have hmore : (l.cache.totalCount + 1) % 2^64 = l.cache.totalCount + 1 := Nat.mod_eq_of_lt (by omega)
  have hpush : l.cache.push c ptr = { l.cache.setBin c { l.cache.bin c with
        stack := Function.update (l.cache.bin c).stack (l.cache.bin c).count ptr
        count := (l.cache.bin c).count + 1 } with totalCount := l.cache.totalCount + 1 } := by
    rw [ArrayCache.push, hmore]
  have hreturned : l.returned = Function.update l.returned c (l.returned c) := (Function.update_eq_self ..).symm
  rw [hpush, hreturned]
  refine inv.change hc (inv.low c) (by dsimp only; omega) (by omega) fun x => ?_
  -- the entries below the top are the old ones
  have hold := inv.lost.objects c x
  have hbelow : (List.range (l.cache.bin c).count).map
      (Function.update (l.cache.bin c).stack (l.cache.bin c).count ptr) = l.cache.contents c :=
    List.map_congr_left fun i hi => Function.update_of_ne (Nat.ne_of_lt (List.mem_range.mp hi)) _ _
  dsimp only
  rw [List.range_succ, List.map_append, List.count_append, hbelow, List.count_cons, List.map_cons, List.map_nil,
    Function.update_self, List.count_singleton]
  omega

theorem Inv.refuse (c ptr : Nat) :
    Inv ⟨l.cache, Function.update l.passed c (ptr :: l.passed c), Function.update l.refused c (ptr :: l.refused c),
      l.returned⟩ := by
  refine ⟨⟨inv.lost.total, fun i x => ?_⟩, inv.small, inv.low⟩
  have hold := inv.lost.objects i x
  dsimp only
  rcases eq_or_ne i c with e | e
  · rw [e] at hold ⊢
    rw [Function.update_self, Function.update_self, List.count_cons, List.count_cons]
    omega
  · rw [Function.update_of_ne e, Function.update_of_ne e]
    exact hold

theorem Inv.free {ptr : Nat} (h : ¬ Collects l.cache (.free c ptr)) : Inv (l.step (.free c ptr)) := by
  by_cases htaken : c < nSmallClasses ∧ (l.cache.bin c).count < tcacheMax
  · obtain ⟨hc, hcount⟩ := htaken
    have hroom : l.cache.totalCount < tcacheGcThresh := Nat.lt_of_not_le fun hle => h ⟨hc, hcount, hle⟩
    have hpush := inv.push ptr hc hroom
    have hrun : l.cache.free c ptr = (true, l.cache.push c ptr) := by
      rw [ArrayCache.free, if_neg (Nat.not_le.mpr hc), if_pos hcount]
      dsimp only
      rw [if_neg (Nat.not_lt.mpr hpush.small)]
    rw [Logged.step, hrun]
    simpa using hpush
  · have hrun : l.cache.free c ptr = (false, l.cache) := by
      rw [ArrayCache.free]
      split
      · rfl
      · next hc => exact if_neg fun hcount => htaken ⟨Nat.lt_of_not_le hc, hcount⟩
    rw [Logged.step, hrun]
    exact inv.refuse c ptr

theorem Inv.step {q : Call} (h : ¬ Collects l.cache q) : Inv (l.step q) := by
  cases q with
  | alloc c => exact inv.alloc c
  | free c ptr => exact inv.free h

end

/-! ## What gc does -/

theorem gcBin_eq (k : Nat) (hlow : (tc.bin k).lowWater = 0) (hlt : tc.totalCount < 2^64) :
    (tc.gcBin k).totalCount = tc.totalCount ∧ ∀ c, ((tc.gcBin k).bin c).lowWater = (tc.bin c).lowWater ∧
      (c = k → ((tc.gcBin k).bin c).count = 0) ∧ (c ≠ k → ((tc.gcBin k).bin c).count = (tc.bin c).count) := by
  unfold gcBin
  dsimp only
  rw [hlow]
  split
  · refine ⟨?_, fun c => ⟨?_, fun e => ?_, fun e => ?_⟩⟩
    · dsimp only
      rw [Nat.sub_self, Nat.sub_zero, Nat.add_mod_right, Nat.mod_eq_of_lt hlt]
    · rcases eq_or_ne c k with e | e
      · rw [e, setBin_bin_self, hlow]
      · rw [setBin_bin_of_ne e]
    · rw [e, setBin_bin_self]
    · rw [setBin_bin_of_ne e]
  · next hle => exact ⟨rfl, fun c => ⟨rfl, fun e => by rw [e]; omega, fun _ => rfl⟩⟩

theorem gc_eq (hlow : ∀ c, (tc.bin c).lowWater = 0) (hlt : tc.totalCount < 2^64) :
    tc.gc.totalCount = tc.totalCount ∧ (∀ c, (tc.gc.bin c).lowWater = 0) ∧
      ∀ c < nSmallClasses, (tc.gc.bin c).count = 0 := by
  have hfold : ∀ k, ((List.range k).foldl gcBin tc).totalCount = tc.totalCount ∧
      (∀ c, (((List.range k).foldl gcBin tc).bin c).lowWater = 0) ∧
      ∀ c < k, (((List.range k).foldl gcBin tc).bin c).count = 0 := by
    intro k
    induction k with
    | zero => exact ⟨rfl, hlow, fun c hc => absurd hc (Nat.not_lt_zero c)⟩
    | succ k ih =>
      obtain ⟨htotal, hlow', hcount⟩ := ih
      rw [List.range_succ, List.foldl_append, List.foldl_cons, List.foldl_nil]
      generalize (List.range k).foldl gcBin tc = t at *
      obtain ⟨htotal', hbins⟩ := gcBin_eq k (hlow' k) (htotal ▸ hlt)
      refine ⟨htotal'.trans htotal, fun c => ?_, fun c hc => ?_⟩
      · exact (hbins c).1.trans (hlow' c)
      · rcases eq_or_ne c k with e | e
        · exact (hbins c).2.1 e
        · exact ((hbins c).2.2 e).trans (hcount c (by omega))
  unfold gc
  exact hfold nSmallClasses

theorem push_low (ptr : Nat) (hlow : ∀ i, (tc.bin i).lowWater = 0) (i : Nat) :
    ((tc.push c ptr).bin i).lowWater = 0 := by
  rcases eq_or_ne i c with e | e
  · rw [e, push_bin_self]
    exact hlow c
  · rw [push_bin_of_ne e]
    exact hlow i

/-- After a free that collects, the bins are empty and 4097 objects are counted. -/
theorem Inv.collect (inv : Inv l) {ptr : Nat} (h : Collects l.cache (.free c ptr)) :
    (l.step (.free c ptr)).cache.totalCount = 4097 ∧
      ∀ i < nSmallClasses, ((l.step (.free c ptr)).cache.bin i).count = 0 := by
  obtain ⟨hc, hcount, hfull⟩ := h
  have h4096 : tcacheGcThresh = 4096 := rfl
  have htotal : (l.cache.push c ptr).totalCount = 4097 := by
    have hsmall := inv.small
    rw [push_totalCount]
    omega
  have hrun : l.cache.free c ptr = (true, (l.cache.push c ptr).gc) := by
    rw [ArrayCache.free, if_neg (Nat.not_le.mpr hc), if_pos hcount]
    dsimp only
    rw [if_pos (by omega)]
  obtain ⟨hkept, -, hgone⟩ := gc_eq (push_low (c := c) ptr inv.low) (by omega)
  rw [Logged.step, hrun]
  dsimp only
  exact ⟨hkept.trans htotal, hgone⟩

theorem Inv.not_nothingLost (inv : Inv l) {q : Call} (h : Collects l.cache q) : ¬ NothingLost (l.step q) := by
  cases q with
  | alloc => exact absurd h id
  | free c ptr =>
    intro hlost
    obtain ⟨htotal, hgone⟩ := inv.collect h
    have hsum := hlost.total
    rw [htotal, sum_eq_zero fun i hi => hgone i (mem_range.mp hi)] at hsum
    exact absurd hsum (by decide)

theorem Inv.stays_iff (inv : Inv l) (run : List Call) : Stays l run ↔ NeverCollects l run := by
  induction run generalizing l with
  | nil => exact ⟨fun _ => trivial, fun _ => inv.lost⟩
  | cons q run ih =>
    constructor
    · intro h
      have hkeeps : ¬ Collects l.cache q := fun hq => by
        refine inv.not_nothingLost hq ?_
        cases run with
        | nil => exact h.2
        | cons => exact h.2.1
      exact ⟨hkeeps, (ih (inv.step hkeeps)).mp h.2⟩
    · intro h
      exact ⟨inv.lost, (ih (inv.step h.1)).mpr h.2⟩

end steps

/-- Nothing is lost in any state of a run if and only if no call of it runs `gc`. -/
theorem nothing_lost_iff (junk : Nat → Nat → Nat) (run : List Call) :
    Stays (Logged.start junk) run ↔ NeverCollects (Logged.start junk) run :=
  (inv_start junk).stays_iff run

/-- The state after `n` objects were freed into the first class. -/
theorem filled (n : Nat) (hn : n ≤ tcacheMax) :
    let l := ((List.range n).map fun i => Call.free 0 (8 * i)).foldl Logged.step (Logged.start fun _ _ => 0)
    Inv l ∧ l.cache.totalCount = n ∧ (l.cache.bin 0).count = n ∧ (l.cache.bin 1).count = 0 := by
  induction n with
  | zero => exact ⟨inv_start _, rfl, rfl, rfl⟩
  | succ n ih =>
    obtain ⟨inv, htotal, hzero, hone⟩ := ih (Nat.le_of_succ_le hn)
    dsimp only at *
    rw [List.range_succ, List.map_append, List.foldl_append, List.map_cons, List.map_nil, List.foldl_cons,
      List.foldl_nil]
    generalize List.foldl _ _ _ = l at *
    have h4096 : tcacheMax = 4096 := rfl
    have hthresh : tcacheGcThresh = 4096 := rfl
    have hkeeps : ¬ Collects l.cache (.free 0 (8 * n)) := fun h => by
      have := h.2.2
      omega
    have hrun : l.cache.free 0 (8 * n) = (true, l.cache.push 0 (8 * n)) := by
      have hpush := (inv.push (c := 0) (8 * n) (by decide) (by omega)).small
      rw [ArrayCache.free, if_neg (by decide), if_pos (by omega)]
      dsimp only at hpush ⊢
      rw [if_neg (Nat.not_lt.mpr hpush)]
    refine ⟨inv.step hkeeps, ?_⟩
    rw [Logged.step, hrun]
    refine ⟨?_, ?_, ?_⟩
    · dsimp only
      rw [push_totalCount]
      omega
    · dsimp only
      rw [push_bin_self]
      exact congrArg (· + 1) hzero
    · dsimp only
      rw [push_bin_of_ne (by decide)]
      exact hone

/-- The bin of the first class is full, and one object of the second class is freed: the bins are empty,
    and no object was returned to its run. -/
theorem full_cache_dropped :
    let run := ((List.range 4096).map fun i => Call.free 0 (8 * i)) ++ [.free 1 65536]
    let l := run.foldl Logged.step (Logged.start fun _ _ => 0)
    l.cache.totalCount = 4097 ∧ (∀ c < nSmallClasses, (l.cache.bin c).count = 0) ∧ ¬ NothingLost l := by
  obtain ⟨inv, htotal, -, hone⟩ := filled 4096 (Nat.le_refl _)
  dsimp only at *
  rw [List.foldl_append, List.foldl_cons, List.foldl_nil]
  generalize List.foldl _ _ _ = l at *
  have hcollects : Collects l.cache (.free 1 65536) :=
    ⟨by decide, by rw [hone]; decide, by rw [htotal]; exact Nat.le_refl _⟩
  exact ⟨(inv.collect hcollects).1, (inv.collect hcollects).2, inv.not_nothingLost hcollects⟩

/-! ## The cache of the allocator's model -/

section refinement
variable {arrays : ArrayCache} {tc : Tcache} {c : Nat}

end refinement

end ArrayCache

end MyMalloc.Jemalloc
