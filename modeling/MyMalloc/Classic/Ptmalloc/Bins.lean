import MyMalloc.Lib.Fault
import MyMalloc.Lib.Region
import MyMalloc.Classic.Ptmalloc.Sizes
import Mathlib.Logic.Function.Basic

/- Chunks in memory and the bins (`chunk.h`, `bins.cpp`, `sys_memory.cpp`).

   Memory is a word for every address that is a multiple of eight; chunk headers,
   list links and tcache entries are words of it, at the offsets the structs give
   them, so that they overlap where the structs do. The bins of an arena are in
   memory too, as circular lists through a sentinel. What cannot be reached by an
   address (the top chunk of an arena, the heads of its fastbins, the tcaches) is
   kept in records.

   A read or write of memory that is not mapped has no result, and so has the last
   large bin, which is one past the end of the array, and a list that does not end. -/
namespace MyMalloc.Ptmalloc.Words

open Exec

/-! ## State -/

/-- An arena; `base` is its address, `fast` the heads of its fastbins. -/
structure Arena where
  base : Nat
  top : Nat
  lastRemainder : Nat
  fast : Nat → Nat

/-- A heap mapped for an arena, with its first chunk and its fencepost. -/
structure Heap where
  start : Nat
  size : Nat
  arena : Nat
  first : Nat
  fence : Nat
  deriving DecidableEq, Repr

structure Tcache where
  bins : Nat → Nat
  count : Nat → Nat

/-- `mmap` answers the calls for memory in order; `mainArena` is where the main arena lies. -/
structure Host where
  mmap : Nat → Option Nat
  mainArena : Nat

/-- `mainLocked`: a call returned with the mutex of the main arena locked. -/
structure State (τ : Type) where
  mem : Nat → Nat
  regions : List Region
  mmapCalls : Nat
  arena : Nat → Arena
  narenas : Nat
  heaps : List Heap
  initialised : Bool
  mainLocked : Bool
  threadArena : τ → Option Nat
  tcache : τ → Option Tcache
  mmapThreshold : Nat

variable {τ : Type}

def State.mapped (s : State τ) (a : Nat) : Bool :=
  s.regions.any (fun r => decide (r.base ≤ a ∧ a + 8 ≤ r.base + r.size))

/-- No list without a cycle has more nodes than there are mapped words. -/
def State.walkLimit (s : State τ) : Nat := (s.regions.map (·.size)).sum / 8 + 1

/-! ## Memory -/

def load (a : Nat) : Exec (State τ) Nat := fun s =>
  if s.mapped a then some (s.mem a, s) else none

def store (a v : Nat) : Exec (State τ) Unit := fun s =>
  if s.mapped a then some ((), { s with mem := Function.update s.mem a v }) else none

theorem load_run {s : State τ} {a : Nat} (h : s.mapped a = true) : load a s = some (s.mem a, s) :=
  if_pos h

theorem store_run {s : State τ} {a v : Nat} (h : s.mapped a = true) :
    store a v s = some ((), { s with mem := Function.update s.mem a v }) := if_pos h

/-- `size & ~7`. -/
def sizeBits (w : Nat) : Nat := maskOff w 7

def chunkSize (c : Nat) : Exec (State τ) Nat := do
  let w ← load (c + 8)
  pure (sizeBits w)

def chunkFlags (c : Nat) : Exec (State τ) Nat := do
  let w ← load (c + 8)
  pure (w &&& 7)

def prevInuse (c : Nat) : Exec (State τ) Bool := do
  let w ← load (c + 8)
  pure (decide (w &&& prevInuseBit ≠ 0))

def setHead (c size flags : Nat) : Exec (State τ) Unit := store (c + 8) (size ||| flags)

def setFoot (c size : Nat) : Exec (State τ) Unit := store (c + size) size

def orSize (c bit : Nat) : Exec (State τ) Unit := do
  let w ← load (c + 8)
  store (c + 8) (w ||| bit)

def markInuse (c : Nat) : Exec (State τ) Unit := do
  let size ← chunkSize c
  orSize (c + size) prevInuseBit

def clearPrevinuse (c : Nat) : Exec (State τ) Unit := do
  let size ← chunkSize c
  let w ← load (c + size + 8)
  store (c + size + 8) (maskOff w prevInuseBit)

/-! ## The system -/

/-- The kernel maps whole pages in the user half of the address space, away from all that is mapped. -/
def MapFits (raw size : Nat) (regions : List Region) : Prop :=
  size ≠ 0 ∧ raw ≠ 0 ∧ 4096 ∣ raw ∧ raw + size ≤ 2^63 ∧ ∀ r ∈ regions, r.Apart ⟨raw, size⟩

instance (raw size : Nat) (regions : List Region) : Decidable (MapFits raw size regions) :=
  inferInstanceAs (Decidable (_ ∧ _ ∧ _ ∧ _ ∧ _))

/-- `(size + ps - 1) & ~(ps - 1)`. -/
def pageRound (size : Nat) : Nat := maskOff ((size + 4095) % 2^64) 4095

def mmapAnswer (host : Host) (size : Nat) (s : State τ) : Option Nat :=
  (host.mmap s.mmapCalls).filter (fun raw => decide (MapFits raw size s.regions))

/-- `SysMemory::map`; new memory is zero. -/
def sysMap (host : Host) (size : Nat) : Exec (State τ) (Option Nat) := fun s =>
  let len := pageRound size
  match mmapAnswer host len s with
  | none => some (none, { s with mmapCalls := s.mmapCalls + 1 })
  | some raw => some (some raw, { s with
      mmapCalls := s.mmapCalls + 1
      regions := ⟨raw, len⟩ :: s.regions
      mem := fun a => if raw ≤ a ∧ a < raw + len then 0 else s.mem a })

/-- `SysMemory::unmap`. -/
def sysUnmap (c size : Nat) : Exec (State τ) Unit :=
  modify (fun s => if c % 4096 ≠ 0 then s else
    { s with regions := s.regions.flatMap (·.minus c (pageRound size)) })

/-- `SysMemory::trim`: `madvise` clears the pages from the end of what is kept, the one with the
    end of the chunk included. -/
def sysTrim (start current keep : Nat) : Exec (State τ) Bool := fun s =>
  let release := pageRound (start + keep)
  if current ≤ keep ∨ start + current ≤ release ∨ start + current - release < 4096 then
    some (false, s)
  else
    let stop := pageRound (start + current)
    some (true, { s with mem := fun a => if release ≤ a ∧ a < stop then 0 else s.mem a })

/-! ## Arenas -/

def getArenaRec (k : Nat) : Exec (State τ) Arena := gets (fun s => s.arena k)

def modifyArena (k : Nat) (f : Arena → Arena) : Exec (State τ) Unit :=
  modify (fun s => { s with arena := Function.update s.arena k (f (s.arena k)) })

def setTop (k top : Nat) : Exec (State τ) Unit := modifyArena k (fun a => { a with top := top })

def setLastRemainder (k p : Nat) : Exec (State τ) Unit :=
  modifyArena k (fun a => { a with lastRemainder := p })

/-- The sentinel of bin `i`: its `fd` and `bk` are the bin's own two words. -/
def sentinel (base i : Nat) : Nat := base + 104 + 16 * i

/-- `BinManager::init` for an arena at `base`: every bin points to itself. -/
def initBins (base : Nat) (mem : Nat → Nat) : Nat → Nat := fun a =>
  if base + 120 ≤ a ∧ a < base + 120 + 16 * nBins then base + 104 + (a - (base + 120)) / 16 * 16
  else mem a

def unsortedBin (k : Nat) : Exec (State τ) Nat := do
  let av ← getArenaRec k
  pure (sentinel av.base unsortedBinIdx)

def smallBin (k idx : Nat) : Exec (State τ) Nat := do
  let av ← getArenaRec k
  pure (sentinel av.base (unsortedBinIdx + 1 + idx))

/-- The last large bin would be `bins_[128]`. -/
def largeBin (k li : Nat) : Exec (State τ) Nat := do
  let i := unsortedBinIdx + 1 + nSmallbins + li
  if nBins ≤ i then fault
  else
    let av ← getArenaRec k
    pure (sentinel av.base i)

/-! ## Lists -/

def binEmpty (snt : Nat) : Exec (State τ) Bool := do
  let fd ← load (snt + 16)
  pure (decide (fd = snt))

def pushFront (snt p : Nat) : Exec (State τ) Unit := do
  let first ← load (snt + 16)
  store (p + 16) first
  store (p + 24) snt
  store (snt + 16) p
  if first ≠ 0 then store (first + 24) p

def pushBack (snt p : Nat) : Exec (State τ) Unit := do
  let last ← load (snt + 24)
  store (p + 16) snt
  store (p + 24) last
  store (snt + 24) p
  if last ≠ 0 then store (last + 16) p

/-- `BinList::unlink`: nothing is done where the neighbours do not point back. -/
def unlink (p : Nat) : Exec (State τ) Unit := do
  let fwd ← load (p + 16)
  let bck ← load (p + 24)
  if fwd = 0 then pure ()
  else
    let back ← load (fwd + 24)
    if back ≠ p ∨ bck = 0 then pure ()
    else
      let forth ← load (bck + 16)
      if forth = p then
        store (fwd + 24) bck
        store (bck + 16) fwd

def popFront (snt : Nat) : Exec (State τ) (Option Nat) := do
  if ← binEmpty snt then pure none
  else
    let p ← load (snt + 16)
    unlink p
    pure (some p)

def fastPush (k i p : Nat) : Exec (State τ) Unit := do
  let av ← getArenaRec k
  store (p + 16) (av.fast i)
  modifyArena k (fun a => { a with fast := Function.update a.fast i p })

theorem fastPush_run {s : State τ} {k i p : Nat} (h : s.mapped (p + 16) = true) :
    fastPush k i p s = some ((), { s with
      mem := Function.update s.mem (p + 16) ((s.arena k).fast i)
      arena := Function.update s.arena k
        { s.arena k with fast := Function.update (s.arena k).fast i p } }) :=
  bind_run (store_run h)

def fastPopAll (k i : Nat) : Exec (State τ) Nat := do
  let av ← getArenaRec k
  modifyArena k (fun a => { a with fast := Function.update a.fast i 0 })
  pure (av.fast i)

def fastPop (k i : Nat) : Exec (State τ) (Option Nat) := do
  let av ← getArenaRec k
  if av.fast i = 0 then pure none
  else
    let next ← load (av.fast i + 16)
    modifyArena k (fun a => { a with fast := Function.update a.fast i next })
    pure (some (av.fast i))

/-- Looks for `p` from `cur` on along `fd`, up to `stop`; the answer is the chunk before it. -/
def seek (stop p : Nat) : Nat → Nat → Nat → Exec (State τ) (Option Nat)
  | 0, _, _ => fault
  | fuel + 1, prev, cur =>
    if cur = 0 ∨ cur = stop then pure none
    else if cur = p then pure (some prev)
    else do
      let next ← load (cur + 16)
      seek stop p fuel cur next

/-- The place of a free chunk: in a fastbin, with the chunk before it or 0, or in a bin. -/
inductive Place where
  | fast (i prev : Nat)
  | bin (i : Nat)
  deriving DecidableEq, Repr

def seekFast (k p i : Nat) : Exec (State τ) (Option Place) := do
  let limit ← gets State.walkLimit
  let av ← getArenaRec k
  let found ← seek 0 p limit 0 (av.fast i)
  pure (found.map (Place.fast i))

def seekBin (k p i : Nat) : Exec (State τ) (Option Place) := do
  let limit ← gets State.walkLimit
  let av ← getArenaRec k
  let fd ← load (sentinel av.base i + 16)
  let found ← seek (sentinel av.base i) p limit 0 fd
  pure (found.map (fun _ => Place.bin i))

/-- The first answer of `f` along a list. -/
def firstFound {α β : Type} (f : α → Exec (State τ) (Option β)) : List α → Exec (State τ) (Option β)
  | [] => pure none
  | a :: l => do
    match ← f a with
    | some b => pure (some b)
    | none => firstFound f l

theorem firstFound_none {α β : Type} {s : State τ} {f : α → Exec (State τ) (Option β)} {l : List α}
    (h : ∀ a ∈ l, f a s = some (none, s)) : firstFound f l s = some (none, s) := by
  induction l with
  | nil => rfl
  | cons a l ih =>
    rw [firstFound, bind_run (h a List.mem_cons_self)]
    exact ih fun b hb => h b (List.mem_cons_of_mem _ hb)

theorem firstFound_some {α β : Type} {s : State τ} {f : α → Exec (State τ) (Option β)} {l : List α} {a : α} {b : β}
    (ha : a ∈ l) (hfound : f a s = some (some b, s))
    (hother : ∀ x ∈ l, x ≠ a → f x s = some (none, s)) : firstFound f l s = some (some b, s) := by
  induction l with
  | nil => cases ha
  | cons x l ih =>
    by_cases e : x = a
    · rw [firstFound, e, bind_run hfound]
      rfl
    · rw [firstFound, bind_run (hother x List.mem_cons_self e)]
      exact ih ((List.mem_cons.mp ha).resolve_left (Ne.symm e)) fun y hy => hother y (List.mem_cons_of_mem _ hy)

/-- The search along a list runs into a fault, and finds nothing before. -/
theorem firstFound_fault {α β : Type} {s : State τ} {f : α → Exec (State τ) (Option β)} {l : List α}
    (h : ∀ a ∈ l, f a s = some (none, s) ∨ f a s = none) {a : α} (ha : a ∈ l) (hf : f a s = none) :
    firstFound f l s = none := by
  induction l with
  | nil => cases ha
  | cons b l ih =>
    unfold firstFound
    rcases h b List.mem_cons_self with hb | hb
    · rw [bind_run hb]
      have hin : a ∈ l := by
        rcases List.mem_cons.mp ha with rfl | hin
        · rw [hf] at hb
          cases hb
        · exact hin
      exact ih (fun d hd => h d (List.mem_cons_of_mem _ hd)) hin
    · exact bind_none hb

theorem firstFound_skip {α β : Type} {s : State τ} {f : α → Exec (State τ) (Option β)} {l₁ l₂ : List α}
    (h : ∀ a ∈ l₁, f a s = some (none, s)) : firstFound f (l₁ ++ l₂) s = firstFound f l₂ s := by
  induction l₁ with
  | nil => rfl
  | cons a l₁ ih =>
    rw [List.cons_append, firstFound, bind_run (h a List.mem_cons_self)]
    exact ih fun b hb => h b (List.mem_cons_of_mem _ hb)

/-- The fastbins first, then the bins from 1 on. -/
def findFree (k p : Nat) : Exec (State τ) (Option Place) := do
  match ← firstFound (seekFast k p) (List.range nFastbins) with
  | some place => pure (some place)
  | none => firstFound (seekBin k p) ((List.range (nBins - 1)).map (· + 1))

def containsFreeChunk (k p : Nat) : Exec (State τ) Bool := do
  if p = 0 then pure false
  else
    let place ← findFree k p
    pure place.isSome

/-- `unlink_free_chunk`: whether the chunk was in a bin. -/
def unlinkFreeChunk (k p : Nat) : Exec (State τ) Bool := do
  match ← findFree k p with
  | none => pure false
  | some (.bin _) =>
    unlink p
    pure true
  | some (.fast i prev) =>
    let next ← load (p + 16)
    if prev ≠ 0 then store (prev + 16) next
    else modifyArena k (fun a => { a with fast := Function.update a.fast i next })
    pure true

def hasFastchunks (k : Nat) : Exec (State τ) Bool := do
  let av ← getArenaRec k
  pure ((List.range nFastbins).any (fun i => decide (av.fast i ≠ 0)))

/-- `BinManager::alloc`: the oldest chunk of a small bin. -/
def smallbinAlloc (k idx : Nat) : Exec (State τ) (Option Nat) := do
  let snt ← smallBin k idx
  if ← binEmpty snt then pure none
  else
    let p ← load (snt + 24)
    if p = snt then pure none
    else
      unlink p
      pure (some p)

/-- To the front of the bin for its size. -/
def pushSorted (k size p : Nat) : Exec (State τ) Unit := do
  let snt ← if inSmallbinRange size then smallBin k (smallbinIndex size)
    else largeBin k (largebinIndex size)
  pushFront snt p

/-- The smallest chunk of at least `nb` bytes from `p` back to the sentinel. -/
def bestFit (snt nb : Nat) : Nat → Nat → Option (Nat × Nat) → Exec (State τ) (Option (Nat × Nat))
  | 0, _, _ => fault
  | fuel + 1, p, best =>
    if p = snt then pure best
    else do
      let size ← chunkSize p
      let better := decide (nb ≤ size ∧ ∀ v ∈ best, size < v.2)
      let best := if better then some (p, size) else best
      if better ∧ size = nb then pure best
      else
        let bk ← load (p + 24)
        bestFit snt nb fuel bk best

/-- `alloc_split` in one bin: the chunk, and what is left of it, now in the unsorted bin. -/
def splitFrom (k nb li : Nat) : Exec (State τ) (Option (Nat × Option Nat)) := do
  let snt ← largeBin k li
  if ← binEmpty snt then pure none
  else
    let limit ← gets State.walkLimit
    let p ← load (snt + 24)
    match ← bestFit snt nb limit p none with
    | none => pure none
    | some (victim, size) =>
      unlink victim
      if minsize ≤ size - nb then
        let flags ← chunkFlags victim
        setHead victim nb flags
        store (victim + nb) nb
        setHead (victim + nb) (size - nb) (prevInuseBit ||| flags)
        setFoot (victim + nb) (size - nb)
        let unsorted ← unsortedBin k
        pushFront unsorted (victim + nb)
        pure (some (victim, some (victim + nb)))
      else pure (some (victim, none))

/-- `alloc_split`: the large bins from the one for the size up. -/
def allocSplit (k nb : Nat) : Exec (State τ) (Option (Nat × Option Nat)) :=
  firstFound (splitFrom k nb)
    ((List.range nLargebins).filter (fun i => decide (largebinIndex nb ≤ i)))

end MyMalloc.Ptmalloc.Words
