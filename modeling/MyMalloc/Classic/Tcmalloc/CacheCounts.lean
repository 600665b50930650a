import MyMalloc.Classic.Tcmalloc.Malloc
import Mathlib.Algebra.BigOperators.Group.Finset.Basic
import Mathlib.Algebra.Order.BigOperators.Group.Finset

/- The counters of a thread cache (`thread_cache.cpp`).

   A cache keeps a list of objects for each class, the length of each list, and the
   number of bytes in all of them. Here the counters are fields of their own, as in
   the source; `Malloc` has the cache without them.

   The lengths are right, but the bytes are not: `refill` adds the objects it gets
   to the list and to its length and leaves `allocated` as it is. The next `alloc`
   subtracts what was never added, and the counter wraps. So the counters are right
   in every state of a run exactly if no refill of it obtains an object
   (`accounted_iff_never_refilled`). -/
namespace MyMalloc.Tcmalloc

open Finset

structure CountedCache where
  list : Nat → List Nat
  count : Nat → Nat
  maxCount : Nat → Nat
  lowWater : Nat → Nat
  allocated : Nat

namespace CountedCache

/-- The constructor `ThreadCache()`. -/
def new : CountedCache := ⟨fun _ => [], fun _ => 0, fun _ => 2, fun _ => 0, 0⟩

/-- Take the first object of a list. -/
def pop (c : Nat) (tc : CountedCache) : Option Nat × CountedCache :=
  match tc.list c with
  | [] => (none, tc)
  | a :: l => (some a, { tc with
      list := Function.update tc.list c l
      count := Function.update tc.count c ((tc.count c + (2^64 - 1)) % 2^64)
      allocated := (tc.allocated + (2^64 - (kClassInfo c).size)) % 2^64 })

def updateCapacity (c : Nat) (tc : CountedCache) : CountedCache :=
  let cap := tc.maxCount c
  let cap' := if cap * 3 / 4 ≤ tc.count c then min (cap * 2) 8192 else cap
  { tc with
    maxCount := Function.update tc.maxCount c cap'
    lowWater := Function.update tc.lowWater c (cap' / 4) }

/-- The number of objects `refill` asks for. -/
def batch (c : Nat) (tc : CountedCache) : Nat := max (tc.maxCount c) (kClassInfo c).numToMove

/-- `refill`; `supply` are the objects the central list of the class has, of which `remove_range`
    delivers as many as it is asked for. -/
def refill (c : Nat) (supply : List Nat) (tc : CountedCache) : CountedCache :=
  let got := supply.take (tc.batch c)
  if got = [] then tc
  else updateCapacity c { tc with
    list := Function.update tc.list c (got ++ tc.list c)
    count := Function.update tc.count c ((tc.count c + got.length) % 2^64) }

def alloc (c : Nat) (supply : List Nat) (tc : CountedCache) : Option Nat × CountedCache :=
  if kNumClasses ≤ c then (none, tc)
  else if tc.list c ≠ [] then tc.pop c
  else (tc.refill c supply).pop c

/-- One class of `scavenge`: the walk along the list ends at its last node. An empty list whose count
    is not zero would be a null pointer that is followed. -/
def scavengeClass (tc : CountedCache) (i : Nat) : Option CountedCache :=
  if tc.lowWater i < tc.count i then
    let n := tc.count i - tc.lowWater i
    if tc.list i = [] then none
    else some { tc with
      list := Function.update tc.list i ((tc.list i).drop n)
      count := Function.update tc.count i (tc.count i - n) }
  else some tc

def scavenge (tc : CountedCache) : Option CountedCache :=
  ((List.range kNumClasses).foldlM scavengeClass tc).map ({ · with allocated := 0 })

/-- Put an object in front of its list. -/
def push (c ptr : Nat) (tc : CountedCache) : CountedCache :=
  { tc with
    list := Function.update tc.list c (ptr :: tc.list c)
    count := Function.update tc.count c ((tc.count c + 1) % 2^64)
    allocated := (tc.allocated + (kClassInfo c).size) % 2^64 }

/-- `ThreadCache::free` up to the test of `allocated`. -/
def freeInto (c ptr : Nat) (tc : CountedCache) : Option CountedCache :=
  (if tc.maxCount c ≤ tc.count c then tc.scavenge else some tc).map (push c ptr)

def free (c ptr : Nat) (tc : CountedCache) : Option CountedCache :=
  if kNumClasses ≤ c then some tc
  else (tc.freeInto c ptr).bind fun tc => if maxAllocated < tc.allocated then tc.scavenge else some tc

/-! ## Runs -/

/-- The calls of a thread cache. -/
inductive Call where
  | alloc (c : Nat) (supply : List Nat)
  | free (c ptr : Nat)
  | refill (c : Fin kNumClasses) (supply : List Nat)
  | scavenge

def step (tc : CountedCache) : Call → Option CountedCache
  | .alloc c supply => some (tc.alloc c supply).2
  | .free c ptr => tc.free c ptr
  | .refill c supply => some (tc.refill c supply)
  | .scavenge => tc.scavenge

/-- The bytes of all cached objects. -/
def cachedBytes (tc : CountedCache) : Nat := ∑ c ∈ range kNumClasses, tc.count c * (kClassInfo c).size

/-- Both counters are right. -/
structure Accounted (tc : CountedCache) : Prop where
  counts : ∀ c < kNumClasses, tc.count c = (tc.list c).length
  bytes : tc.allocated = tc.cachedBytes

/-- The value `free` compares with `max_allocated` is right too. -/
def Tested (tc : CountedCache) : Call → Prop
  | .free c ptr => c < kNumClasses → ∃ tc', tc.freeInto c ptr = some tc' ∧ Accounted tc'
  | _ => True

/-- The counters are right in every state of the run. -/
def Stays : CountedCache → List Call → Prop
  | tc, [] => Accounted tc
  | tc, q :: run => Accounted tc ∧ Tested tc q ∧ ∃ tc', tc.step q = some tc' ∧ Stays tc' run

/-- The call gets objects from the central list. -/
def Refills (tc : CountedCache) : Call → Prop
  | .alloc c supply => c < kNumClasses ∧ tc.list c = [] ∧ supply ≠ []
  | .free _ _ => False
  | .refill _ supply => supply ≠ []
  | .scavenge => False

def NeverRefills : CountedCache → List Call → Prop
  | _, [] => True
  | tc, q :: run => ¬ Refills tc q ∧ ∀ tc', tc.step q = some tc' → NeverRefills tc' run

/-! ## What a call keeps -/

theorem classSize_pos {c : Nat} (hc : c < kNumClasses) : 8 ≤ (kClassInfo c).size ∧ (kClassInfo c).size ≤ 1080 :=
  classSize_bounds c hc

/-- A cache that was never refilled. -/
structure Inv (tc : CountedCache) : Prop where
  accounted : Accounted tc
  small : tc.allocated ≤ maxAllocated
  maxCount : ∀ c, tc.maxCount c = 2
  lowWater : ∀ c, tc.lowWater c = 0

section bytes
variable {tc : CountedCache} {c : Nat}

/-- One list has `n` objects more in one cache than in the other. -/
theorem cachedBytes_add (tc tc' : CountedCache) {n : Nat} (hc : c < kNumClasses) (hsame : ∀ i, i ≠ c → tc'.count i = tc.count i)
    (hdiff : tc'.count c = tc.count c + n) : tc'.cachedBytes = tc.cachedBytes + n * (kClassInfo c).size := by
  unfold cachedBytes
  have hmem := mem_range.mpr hc
  rw [← add_sum_erase _ _ hmem, ← add_sum_erase _ _ hmem, hdiff,
    sum_congr rfl fun i hi => by rw [hsame i (ne_of_mem_erase hi)], Nat.add_mul]
  omega

theorem count_mul_le (tc : CountedCache) (hc : c < kNumClasses) :
    tc.count c * (kClassInfo c).size ≤ tc.cachedBytes :=
  single_le_sum (f := fun c => tc.count c * (kClassInfo c).size) (fun _ _ => Nat.zero_le _) (mem_range.mpr hc)

theorem Inv.count_le (inv : Inv tc) (hc : c < kNumClasses) : tc.count c ≤ maxAllocated := by
  have hle := tc.count_mul_le hc
  have hsmall := inv.small
  rw [inv.accounted.bytes] at hsmall
  exact Nat.le_trans (Nat.le_mul_of_pos_right _ (Nat.lt_of_lt_of_le (by decide) (classSize_pos hc).1))
    (Nat.le_trans hle hsmall)

end bytes

section steps
variable {tc : CountedCache} {c : Nat}

theorem inv_new : Inv new := by
  refine ⟨⟨fun c _ => rfl, ?_⟩, Nat.zero_le _, fun _ => rfl, fun _ => rfl⟩
  simp [cachedBytes, new]

theorem pop_cons {a : Nat} {l : List Nat} (hc : c < kNumClasses) (hlist : tc.list c = a :: l) (h1 : 1 ≤ tc.count c)
    (h2 : tc.count c < 2^64) :
    (tc.pop c).2.count = Function.update tc.count c (tc.count c - 1) ∧
      (tc.pop c).2.list = Function.update tc.list c l ∧
      (tc.pop c).2.allocated = (tc.allocated + (2^64 - (kClassInfo c).size)) % 2^64 ∧
      (tc.pop c).2.cachedBytes + (kClassInfo c).size = tc.cachedBytes := by
  have hcount : (tc.count c + (2^64 - 1)) % 2^64 = tc.count c - 1 := by omega
  have hpop : tc.pop c = (some a, { tc with
      list := Function.update tc.list c l
      count := Function.update tc.count c (tc.count c - 1)
      allocated := (tc.allocated + (2^64 - (kClassInfo c).size)) % 2^64 }) := by
    unfold CountedCache.pop
    rw [hlist, ← hcount]
  have hadd := cachedBytes_add (tc.pop c).2 tc (n := 1) hc
    (fun i hi => by rw [hpop]; exact (Function.update_of_ne hi _ _).symm)
    (by rw [hpop]; dsimp only; rw [Function.update_self]; omega)
  rw [Nat.one_mul] at hadd
  refine ⟨?_, ?_, ?_, hadd.symm⟩
  · rw [hpop]
  · rw [hpop]
  · rw [hpop]

theorem Inv.pop (inv : Inv tc) (hc : c < kNumClasses) : Inv (tc.pop c).2 := by
  cases hlist : tc.list c with
  | nil =>
    have hpop : tc.pop c = (none, tc) := by rw [CountedCache.pop, hlist]
    rw [hpop]
    exact inv
  | cons a l =>
    have hmax : maxAllocated = 4194304 := rfl
    have hlen : tc.count c = l.length + 1 := by rw [inv.accounted.counts c hc, hlist, List.length_cons]
    have hle := inv.count_le hc
    have hsize := classSize_pos hc
    have hsmall := inv.small
    obtain ⟨hcount, hrest, halloc, hbytes⟩ := pop_cons hc hlist (by omega) (by omega)
    rw [← inv.accounted.bytes] at hbytes
    have halloc' : (tc.pop c).2.allocated = tc.allocated - (kClassInfo c).size := by omega
    have hfields : (tc.pop c).2.maxCount = tc.maxCount ∧ (tc.pop c).2.lowWater = tc.lowWater := by
      rw [CountedCache.pop, hlist]
      exact ⟨rfl, rfl⟩
    refine ⟨⟨fun i hi => ?_, by omega⟩, by omega, fun i => ?_, fun i => ?_⟩
    · rw [hcount, hrest]
      rcases eq_or_ne i c with e | e
      · subst e
        simp [hlen]
      · simpa [Function.update_of_ne e] using inv.accounted.counts i hi
    · rw [hfields.1]
      exact inv.maxCount i
    · rw [hfields.2]
      exact inv.lowWater i

/-- The classes below `k` emptied. -/
def emptied (k : Nat) (tc : CountedCache) : CountedCache :=
  { tc with
    list := fun i => if i < k then [] else tc.list i
    count := fun i => if i < k then 0 else tc.count i }

theorem emptied_step {k : Nat} (hcount : tc.count k = (tc.list k).length) (hlow : tc.lowWater k = 0) :
    (tc.emptied k).scavengeClass k = some (tc.emptied (k + 1)) := by
  have hself : (tc.emptied k).list k = tc.list k ∧ (tc.emptied k).count k = tc.count k :=
    ⟨if_neg (Nat.lt_irrefl k), if_neg (Nat.lt_irrefl k)⟩
  have hmore : ∀ i, i ≠ k → (i < k + 1 ↔ i < k) := fun i hi => by omega
  unfold scavengeClass
  rw [hself.1, hself.2, show (tc.emptied k).lowWater k = 0 from hlow, hcount]
  cases hlist : tc.list k with
  | nil =>
    rw [if_neg (by simp)]
    refine congrArg some ?_
    unfold emptied
    congr 1
    · funext i
      rcases eq_or_ne i k with e | e
      · subst e; simp [hlist]
      · simp only [hmore i e]
    · funext i
      rcases eq_or_ne i k with e | e
      · subst e; simp [hcount, hlist]
      · simp only [hmore i e]
  | cons a l =>
    rw [if_pos (by simp)]
    dsimp only
    rw [if_neg (by simp)]
    refine congrArg some ?_
    unfold emptied
    congr 1
    · funext i
      rcases eq_or_ne i k with e | e
      · subst e; simp
      · simp only [Function.update_of_ne e, hmore i e]
    · funext i
      rcases eq_or_ne i k with e | e
      · subst e; simp
      · simp only [Function.update_of_ne e, hmore i e]

theorem scavenge_eq (hcount : ∀ c < kNumClasses, tc.count c = (tc.list c).length) (hlow : ∀ c, tc.lowWater c = 0) :
    tc.scavenge = some { tc.emptied kNumClasses with allocated := 0 } := by
  have hfold : ∀ k ≤ kNumClasses, (List.range k).foldlM scavengeClass tc = some (tc.emptied k) := by
    intro k
    induction k with
    | zero => intro _; simp [emptied]
    | succ k ih =>
      intro hk
      rw [List.range_succ, List.foldlM_append, ih (Nat.le_of_succ_le hk)]
      show (scavengeClass (tc.emptied k) k).bind pure = some (tc.emptied (k + 1))
      rw [emptied_step (hcount k hk) (hlow k)]
      rfl
  rw [scavenge, hfold kNumClasses (Nat.le_refl _)]
  rfl

theorem Inv.scavenge (hcount : ∀ c < kNumClasses, tc.count c = (tc.list c).length)
    (hmax : ∀ c, tc.maxCount c = 2) (hlow : ∀ c, tc.lowWater c = 0) :
    ∃ tc', tc.scavenge = some tc' ∧ Inv tc' ∧ tc'.allocated = 0 := by
  refine ⟨_, scavenge_eq hcount hlow, ⟨⟨fun i hi => ?_, ?_⟩, Nat.zero_le _, hmax, hlow⟩, rfl⟩
  · simp [emptied, hi]
  · refine (sum_eq_zero fun i hi => ?_).symm
    simp [emptied, mem_range.mp hi]

/-- Between the push and the test the bytes may be over the limit, by one object. -/
theorem Inv.push (inv : Inv tc) (hc : c < kNumClasses) (ptr : Nat) :
    Accounted (tc.push c ptr) ∧ (tc.push c ptr).allocated = tc.allocated + (kClassInfo c).size := by
  have hmax : maxAllocated = 4194304 := rfl
  have hle := inv.count_le hc
  have hsmall := inv.small
  have hsize := classSize_pos hc
  have hcount : (tc.count c + 1) % 2^64 = tc.count c + 1 := Nat.mod_eq_of_lt (by omega)
  have halloc : (tc.allocated + (kClassInfo c).size) % 2^64 = tc.allocated + (kClassInfo c).size :=
    Nat.mod_eq_of_lt (by omega)
  refine ⟨⟨fun i hi => ?_, ?_⟩, halloc⟩
  · unfold CountedCache.push
    rcases eq_or_ne i c with e | e
    · subst e
      dsimp only
      rw [Function.update_self, Function.update_self, hcount, List.length_cons, inv.accounted.counts i hc]
    · simpa [Function.update_of_ne e] using inv.accounted.counts i hi
  · have hadd := cachedBytes_add tc (tc.push c ptr) (n := 1) hc
      (fun i hi => Function.update_of_ne hi _ _) ((Function.update_self ..).trans hcount)
    rw [hadd, ← inv.accounted.bytes, Nat.one_mul]
    exact halloc

theorem Inv.freeInto (inv : Inv tc) (hc : c < kNumClasses) (ptr : Nat) :
    ∃ tc', tc.freeInto c ptr = some tc' ∧ Accounted tc' ∧ (∀ i, tc'.maxCount i = 2) ∧ ∀ i, tc'.lowWater i = 0 := by
  unfold CountedCache.freeInto
  split
  · obtain ⟨tc₁, hrun, inv₁, -⟩ := Inv.scavenge inv.accounted.counts inv.maxCount inv.lowWater
    rw [hrun]
    exact ⟨_, rfl, (inv₁.push hc ptr).1, inv₁.maxCount, inv₁.lowWater⟩
  · exact ⟨_, rfl, (inv.push hc ptr).1, inv.maxCount, inv.lowWater⟩

theorem Inv.free (inv : Inv tc) (c ptr : Nat) : ∃ tc', tc.free c ptr = some tc' ∧ Inv tc' := by
  unfold CountedCache.free
  split
  · exact ⟨tc, rfl, inv⟩
  · next hc =>
    obtain ⟨tc₁, hrun, hok, hmax, hlow⟩ := inv.freeInto (Nat.lt_of_not_le hc) ptr
    rw [hrun, Option.bind_some]
    split
    · obtain ⟨tc₂, hrun₂, inv₂, -⟩ := Inv.scavenge hok.counts hmax hlow
      exact ⟨tc₂, hrun₂, inv₂⟩
    · next hle => exact ⟨tc₁, rfl, hok, Nat.le_of_not_lt hle, hmax, hlow⟩

theorem refill_nil (c : Nat) (tc : CountedCache) : tc.refill c [] = tc := by simp [refill]

theorem Inv.alloc (inv : Inv tc) {supply : List Nat} (h : ¬ Refills tc (.alloc c supply)) :
    Inv (tc.alloc c supply).2 := by
  unfold CountedCache.alloc
  split
  · exact inv
  · next hc =>
    have hc := Nat.lt_of_not_le hc
    split
    · exact inv.pop hc
    · next hlist =>
      have hsupply : supply = [] := by
        by_contra hne
        exact h ⟨hc, not_not.mp hlist, hne⟩
      rw [hsupply, refill_nil]
      exact inv.pop hc

theorem Inv.step (inv : Inv tc) {q : Call} (h : ¬ Refills tc q) : ∃ tc', tc.step q = some tc' ∧ Inv tc' := by
  cases q with
  | alloc c supply => exact ⟨_, rfl, inv.alloc h⟩
  | free c ptr => exact inv.free c ptr
  | refill c supply =>
    have hsupply : supply = [] := not_not.mp h
    refine ⟨tc, ?_, inv⟩
    rw [hsupply, CountedCache.step, refill_nil]
  | scavenge =>
    obtain ⟨tc', hrun, inv', -⟩ := Inv.scavenge inv.accounted.counts inv.maxCount inv.lowWater
    exact ⟨tc', hrun, inv'⟩

theorem Inv.tested (inv : Inv tc) (q : Call) : Tested tc q := by
  cases q with
  | free c ptr =>
    intro hc
    obtain ⟨tc', hrun, hok, -⟩ := inv.freeInto hc ptr
    exact ⟨tc', hrun, hok⟩
  | alloc c supply => trivial
  | refill c supply => trivial
  | scavenge => trivial

end steps

/-! ## What a refill does -/

section refills
variable {tc : CountedCache} {c : Nat} {supply : List Nat}

theorem Inv.refill (inv : Inv tc) (hc : c < kNumClasses) (hne : supply ≠ []) :
    ∃ n, 1 ≤ n ∧ n ≤ 32 ∧ (tc.refill c supply).list c ≠ [] ∧
      (tc.refill c supply).allocated = tc.allocated ∧ (tc.refill c supply).count c = tc.count c + n ∧
      (tc.refill c supply).cachedBytes = tc.allocated + n * (kClassInfo c).size := by
  have hbatch : tc.batch c = 32 := by rw [batch, inv.maxCount]; rfl
  have hlen : (supply.take 32).length = min 32 supply.length := List.length_take
  have hpos : 0 < supply.length := List.length_pos_iff.mpr hne
  have hgot : supply.take 32 ≠ [] := List.length_pos_iff.mp (by omega)
  have hle := inv.count_le hc
  have hmax : maxAllocated = 4194304 := rfl
  have hcount : (tc.count c + (supply.take 32).length) % 2^64 = tc.count c + (supply.take 32).length :=
    Nat.mod_eq_of_lt (by omega)
  have hrefill : tc.refill c supply = updateCapacity c { tc with
      list := Function.update tc.list c (supply.take 32 ++ tc.list c)
      count := Function.update tc.count c (tc.count c + (supply.take 32).length) } := by
    unfold CountedCache.refill
    rw [hbatch, if_neg hgot, hcount]
  refine ⟨(supply.take 32).length, by omega, by omega, ?_, ?_, ?_, ?_⟩
  · rw [hrefill]
    show Function.update tc.list c (supply.take 32 ++ tc.list c) c ≠ []
    rw [Function.update_self]
    exact fun e => hgot (List.append_eq_nil_iff.mp e).1
  · rw [hrefill]
    rfl
  · rw [hrefill]
    exact Function.update_self ..
  · rw [inv.accounted.bytes]
    refine cachedBytes_add _ _ hc (fun i hi => ?_) ?_
    · rw [hrefill]
      exact Function.update_of_ne hi _ _
    · rw [hrefill]
      exact Function.update_self ..

/-- After it the bytes are wrong, also once `alloc` has taken its object. -/
theorem Inv.not_accounted (inv : Inv tc) {q : Call} (h : Refills tc q) :
    ∀ tc', tc.step q = some tc' → ¬ Accounted tc' := by
  have hmax : maxAllocated = 4194304 := rfl
  intro tc' hstep hok
  cases q with
  | alloc c supply =>
    obtain ⟨hc, hlist, hne⟩ := h
    obtain ⟨n, h1, h32, hsome, halloc, hcount, hbytes⟩ := inv.refill hc hne
    obtain ⟨a, l, hcons⟩ := List.exists_cons_of_ne_nil hsome
    have hsize := classSize_pos hc
    have hle := inv.count_le hc
    have hsmall := inv.small
    obtain ⟨-, -, hpopped, hleft⟩ := pop_cons hc hcons (by omega) (by omega)
    have hrun : tc' = ((tc.refill c supply).pop c).2 := by
      have hstep' := Option.some.inj hstep
      rw [CountedCache.alloc, if_neg (Nat.not_le.mpr hc), if_neg (not_not.mpr hlist)] at hstep'
      exact hstep'.symm
    -- what is cached grew by `n - 1` objects, `allocated` went down by one
    have hwrong := hok.bytes
    have hmul : (kClassInfo c).size ≤ n * (kClassInfo c).size := Nat.le_mul_of_pos_left _ h1
    have hmul' : n * (kClassInfo c).size ≤ 32 * 1080 := Nat.mul_le_mul h32 hsize.2
    rw [hrun, hpopped, halloc] at hwrong
    omega
  | free c ptr => exact h
  | refill c supply =>
    obtain ⟨n, h1, -, -, halloc, -, hbytes⟩ := inv.refill c.isLt h
    have hrun : tc' = tc.refill c supply := (Option.some.inj hstep).symm
    have hwrong := hok.bytes
    rw [hrun, halloc, hbytes] at hwrong
    have hmul : (kClassInfo c).size ≤ n * (kClassInfo c).size := Nat.le_mul_of_pos_left _ h1
    have hsize := classSize_pos c.isLt
    omega
  | scavenge => exact h

end refills

theorem stays_iff {tc : CountedCache} (inv : Inv tc) (run : List Call) : Stays tc run ↔ NeverRefills tc run := by
  induction run generalizing tc with
  | nil => exact ⟨fun _ => trivial, fun _ => inv.accounted⟩
  | cons q run ih =>
    constructor
    · rintro ⟨-, -, tc', hstep, hrest⟩
      have hq : ¬ Refills tc q := fun h => by
        refine inv.not_accounted h tc' hstep ?_
        cases run with
        | nil => exact hrest
        | cons _ _ => exact hrest.1
      refine ⟨hq, fun tc'' hstep' => ?_⟩
      obtain ⟨tc₁, hrun, inv₁⟩ := inv.step hq
      obtain rfl := Option.some.inj (hrun.symm.trans hstep)
      obtain rfl := Option.some.inj (hstep'.symm.trans hstep)
      exact (ih inv₁).mp hrest
    · rintro ⟨hq, hrest⟩
      obtain ⟨tc₁, hrun, inv₁⟩ := inv.step hq
      exact ⟨inv.accounted, inv.tested q, tc₁, hrun, (ih inv₁).mpr (hrest tc₁ hrun)⟩

/-- Over any run of calls on a new cache: both counters are right in every state exactly if no call
    gets objects from a central list. -/
theorem accounted_iff_never_refilled (run : List Call) : Stays new run ↔ NeverRefills new run := stays_iff inv_new run

/-- The first object a refill gets leaves `allocated` at `2^64 - 8`. -/
theorem refilled_bytes_wrap :
    (new.alloc 0 [4096]).2.allocated = 2^64 - 8 ∧ ¬ Stays new [.alloc 0 [4096]] := by
  refine ⟨rfl, ?_⟩
  rintro ⟨-, -, tc', hstep, hok⟩
  exact inv_new.not_accounted (q := .alloc 0 [4096]) ⟨by decide, rfl, by decide⟩ tc' hstep hok

/-! ## The cache without its counters -/

section refinement
variable {τ : Type} {tc : CountedCache} {c : Nat} {supply : List Nat} {s : State τ}

end refinement

end CountedCache

end MyMalloc.Tcmalloc
