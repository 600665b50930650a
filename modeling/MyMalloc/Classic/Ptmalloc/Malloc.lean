import MyMalloc.Classic.Ptmalloc.Coalesce

/- Allocation, release and resizing (`ptmalloc.cpp`, `arena_manager.cpp`, `heap.cpp`, `tcache.cpp`).

   A call runs to its end before the next one starts, so a mutex matters between
   calls only where a call returns with it locked. That happens to the mutex of the
   main arena and to no other: the state says whether it did, and a call that locks
   it again has no result. -/
namespace MyMalloc.Ptmalloc.Words

open Exec

variable {τ : Type}

/-! ## Arenas and heaps -/

/-- `sizeof(Arena)`. -/
def arenaSize : Nat := 2248
/-- `sizeof(HeapInfo)`. -/
def heapInfoSize : Nat := 48
def heapMinSize : Nat := 65536

def noArena : Arena := { base := 0, top := 0, lastRemainder := 0, fast := fun _ => 0 }

/-- Before `pt_malloc_init`: nothing but the static main arena is mapped. -/
def boot (host : Host) : State τ where
  mem := fun _ => 0
  regions := [⟨host.mainArena, arenaSize⟩]
  mmapCalls := 0
  arena := fun _ => noArena
  narenas := 0
  heaps := []
  initialised := false
  mainLocked := false
  threadArena := fun _ => none
  tcache := fun _ => none
  mmapThreshold := defaultMmapThreshold

/-- `Arena::init` for arena `k` at `base`. -/
def arenaInit (k base : Nat) : Exec (State τ) Unit :=
  modify (fun s => { s with
    mem := initBins base s.mem
    arena := Function.update s.arena k { noArena with base := base } })

def recordHeap (h : Heap) : Exec (State τ) Unit := modify (fun s => { s with heaps := h :: s.heaps })

/-- A fencepost at the end of `usable` bytes from `first`. -/
def setFence (first usable flags : Nat) : Exec (State τ) Unit := do
  store (first + usable) usable
  setHead (first + usable) minsize flags

/-- The flags of a chunk of arena `k`, which is in use. -/
def headFlags (k : Nat) : Nat := if k = 0 then prevInuseBit else prevInuseBit ||| nonMainArenaBit

/-- A heap laid out as one chunk, the top chunk of its arena. -/
def layTop (h : Heap) : Exec (State τ) Unit := do
  store h.first 0
  setHead h.first (h.fence - h.first) (headFlags h.arena)
  setFence h.first (h.fence - h.first) (headFlags h.arena)
  recordHeap h
  setTop h.arena h.first

/-- `ArenaManager::init`: the main arena, and a first heap for it. -/
def arenaManagerInit (host : Host) : Exec (State τ) Unit := do
  arenaInit 0 host.mainArena
  modify (fun s => { s with narenas := 1 })
  match ← sysMap host heapMaxSize with
  | none => pure ()
  | some heap =>
    layTop ⟨heap, pageRound heapMaxSize, 0, heap, heap + (heapMaxSize - minsize)⟩

/-- `pt_malloc_init`, once. -/
def ptMallocInit (host : Host) : Exec (State τ) Unit := do
  if ← gets State.initialised then pure ()
  else
    modify (fun s => { s with initialised := true })
    arenaManagerInit host

/-- `HeapInfo::new_heap`: a mapping with room for the `HeapInfo`, its start and its size. What
    the `HeapInfo` says is kept in the list of heaps. -/
def newHeap (host : Host) (size : Nat) : Exec (State τ) (Option (Nat × Nat)) := do
  let total := pageRound (max ((heapInfoSize + size) % 2^64) heapMinSize)
  match ← sysMap host total with
  | none => pure none
  | some raw => pure (some (raw, total))

/-- The first chunk of a heap comes after its `HeapInfo`. -/
def firstChunk (h : Nat) : Nat := maskOff (h + heapInfoSize + mallocAlignMask) mallocAlignMask

/-- The first top chunk of a new arena. -/
def seedArena (host : Host) (k : Nat) : Exec (State τ) Unit := do
  match ← newHeap host heapMaxSize with
  | none => pure ()
  | some (h, total) =>
    let first := firstChunk h
    let usable := h + total - first
    if usable < minsize * 2 then recordHeap ⟨h, total, k, first, first⟩
    else layTop ⟨h, total, k, first, first + (usable - minsize)⟩

/-- `ArenaManager::new_arena`. -/
def newArena (host : Host) : Exec (State τ) (Option Nat) := do
  let k ← gets State.narenas
  if maxArenas ≤ k then pure none
  else match ← sysMap host arenaSize with
    | none => pure none
    | some base =>
      arenaInit k base
      modify (fun s => { s with narenas := k + 1 })
      seedArena host k
      pure (some k)

/-! ## Locks -/

/-- `lock` of an arena: only the main arena can be locked from before, and stays so. -/
def lockArena (k : Nat) : Exec (State τ) Unit := do
  let locked ← gets State.mainLocked
  if k ≠ 0 then pure ()
  else if locked then fault
  else modify (fun s => { s with mainLocked := true })

def unlockArena (k : Nat) : Exec (State τ) Unit :=
  modify (fun s => if k = 0 then { s with mainLocked := false } else s)

section
variable [DecidableEq τ]

def setThreadArena (t : τ) (k : Nat) : Exec (State τ) Unit :=
  modify (fun s => { s with threadArena := Function.update s.threadArena t (some k) })

/-- `get_arena`: a locked arena. There are no arenas to reuse, none is ever put on the list. -/
def getArena (host : Host) (t : τ) : Exec (State τ) Nat := do
  let own ← gets (fun s => s.threadArena t)
  let locked ← gets State.mainLocked
  if own ≠ none ∧ own ≠ some 0 then pure (own.getD 0)
  else if !locked then
    lockArena 0
    pure 0
  else match ← newArena host with
    | some k =>
      setThreadArena t k
      pure k
    | none =>
      lockArena 0
      pure 0

/-! ## Tcache -/

def setTcache (t : τ) (tc : Tcache) : Exec (State τ) Unit :=
  modify (fun s => { s with tcache := Function.update s.tcache t (some tc) })

def emptyTcache : Tcache := { bins := fun _ => 0, count := fun _ => 0 }

/-- `tcache_init`, and the thread's tcache. -/
def tcacheInit (t : τ) : Exec (State τ) Tcache := do
  match ← gets (fun s => s.tcache t) with
  | some tc => pure tc
  | none =>
    setTcache t emptyTcache
    pure emptyTcache

/-- `Tcache::alloc`; the count is an `unsigned`. -/
def tcacheAlloc (t : τ) (tc : Tcache) (i : Nat) : Exec (State τ) (Option Nat) := do
  if tc.bins i = 0 then pure none
  else
    let next ← load (tc.bins i)
    setTcache t { bins := Function.update tc.bins i next
                  count := Function.update tc.count i ((tc.count i + (2^32 - 1)) % 2^32) }
    store (tc.bins i + 8) 0
    pure (some (tc.bins i))

/-- `Tcache::free`. -/
def tcacheFree (t : τ) (tc : Tcache) (i p : Nat) : Exec (State τ) Bool := do
  if tcacheFillCount ≤ tc.count i then pure false
  else
    store (p + chunkHeader) (tc.bins i)
    store (p + chunkHeader + 8) p
    setTcache t { bins := Function.update tc.bins i (p + chunkHeader)
                  count := Function.update tc.count i (tc.count i + 1) }
    pure true

end

def validSize (size : Nat) : Bool := decide (minsize ≤ size ∧ size % 16 = 0)

/-! ## Malloc -/

/-- The next strategy, where one finds nothing. -/
def orElse {α : Type} (x y : Exec (State τ) (Option α)) : Exec (State τ) (Option α) := do
  match ← x with
  | some a => pure (some a)
  | none => y

/-- Marks the chunk after and returns the user's pointer. -/
def hand (c : Nat) : Exec (State τ) (Option Nat) := do
  markInuse c
  pure (some (c + chunkHeader))

/-- A chunk off a list, unless its header is not that of a chunk. -/
def handValid (c : Nat) : Exec (State τ) (Option Nat) := do
  let size ← chunkSize c
  if validSize size then hand c else pure none

section
variable [DecidableEq τ]

/-- Strategy 1, the tcache. -/
def fromTcache (t : τ) (nb : Nat) : Exec (State τ) (Option Nat) := do
  let tc ← tcacheInit t
  if tcacheMaxBins ≤ csize2tidx nb then pure none
  else match ← tcacheAlloc t tc (csize2tidx nb) with
    | none => pure none
    | some e => handValid (e - chunkHeader)

/-- A chunk off the fastbin for the size. -/
def popFastbin (k nb : Nat) : Exec (State τ) (Option Nat) := do
  if nFastbins ≤ fastbinIndex nb then pure none
  else match ← fastPop k (fastbinIndex nb) with
    | none => pure none
    | some c => handValid c

/-- Strategy 2, fastbins. A thread without an arena locks the main arena first. -/
def fromFastbins (host : Host) (t : τ) (nb : Nat) : Exec (State τ) (Option Nat) := do
  if maxFastSize < nb then pure none
  else
    let own ← gets (fun s => s.threadArena t)
    if own = none then lockArena 0
    let k ← getArena host t
    let r ← popFastbin k nb
    unlockArena k
    pure r

/-- The arena for strategies 3 to 7, locked. -/
def chooseArena (host : Host) (t : τ) : Exec (State τ) Nat := do
  let own ← gets (fun s => s.threadArena t)
  let locked ← gets State.mainLocked
  match own with
  | none =>
    let k ← getArena host t
    setThreadArena t k
    pure k
  | some k =>
    if k ≠ 0 ∨ !locked then
      lockArena k
      pure k
    else
      let k ← getArena host t
      setThreadArena t k
      pure k

end

/-- Strategy 3, small bins. -/
def fromSmallbins (k nb : Nat) : Exec (State τ) (Option Nat) := do
  if minLargeSize ≤ nb then pure none
  else match ← smallbinAlloc k (smallbinIndex nb) with
    | none => pure none
    | some p => hand p

/-- A chunk of the unsorted bin that is large enough, split if what is left is a chunk. -/
def takeUnsorted (k nb p psize : Nat) : Exec (State τ) (Option Nat) := do
  let _ ← unlinkFreeChunk k p
  let flags ← chunkFlags p
  let flags := flags ||| prevInuseBit
  if minsize ≤ psize - nb then
    setHead p nb flags
    store (p + nb) nb
    setHead (p + nb) (psize - nb) flags
    setFoot (p + nb) (psize - nb)
    pushSorted k (psize - nb) (p + nb)
  else setHead p psize flags
  hand p

/-- The scan of the unsorted bin: chunks too small are sorted into their bins. -/
def scanUnsorted (k nb snt : Nat) : Nat → Nat → Exec (State τ) (Option Nat)
  | 0, _ => fault
  | fuel + 1, p =>
    if p = snt ∨ p = 0 then pure none
    else do
      let next ← load (p + 16)
      let psize ← chunkSize p
      if inSmallbinRange psize ∧ psize = nb then
        let _ ← unlinkFreeChunk k p
        hand p
      else if nb ≤ psize then takeUnsorted k nb p psize
      else
        unlink p
        pushSorted k psize p
        scanUnsorted k nb snt fuel next

/-- Strategy 4, the unsorted bin, with the fastbins consolidated into it. -/
def fromUnsorted (k nb : Nat) : Exec (State τ) (Option Nat) := do
  if ← hasFastchunks k then mallocConsolidate k
  let limit ← gets State.walkLimit
  let snt ← unsortedBin k
  let p ← load (snt + 16)
  scanUnsorted k nb snt limit p

/-- Strategy 5, large bins. -/
def fromLargebins (k nb : Nat) : Exec (State τ) (Option Nat) := do
  if nb < minLargeSize then pure none
  else match ← allocSplit k nb with
    | none => pure none
    | some (victim, remainder) =>
      markInuse victim
      match remainder with
      | some r => setLastRemainder k r
      | none => pure ()
      pure (some (victim + chunkHeader))

/-- Strategy 6, the top chunk; `markInuse` is not called. -/
def fromTop (k nb : Nat) : Exec (State τ) (Option Nat) := do
  let av ← getArenaRec k
  if av.top = 0 then pure none
  else
    let topSize ← chunkSize av.top
    if topSize < nb then pure none
    else
      if minsize ≤ topSize - nb then
        store (av.top + nb) nb
        setHead (av.top + nb) (topSize - nb) (headFlags k)
        setTop k (av.top + nb)
        setHead av.top nb (headFlags k)
      else
        setTop k 0
        setHead av.top topSize (headFlags k)
      pure (some (av.top + chunkHeader))

def adjustMmapThreshold (isMmap : Bool) : Exec (State τ) Unit :=
  modify (fun s =>
    let m := s.mmapThreshold
    if isMmap then
      if m < defaultMmapThresholdMax then
        { s with mmapThreshold := min (m + m >>> 2) defaultMmapThresholdMax }
      else s
    else if defaultMmapThresholdMin < m then
      { s with mmapThreshold := max (m - m >>> 3) defaultMmapThresholdMin }
    else s)

/-- A direct mapping. -/
def mmapChunk (host : Host) (nb : Nat) : Exec (State τ) (Option Nat) := do
  let size := maskOff ((nb + chunkHdrSz + mallocAlignMask) % 2^64) mallocAlignMask
  match ← sysMap host size with
  | none => pure none
  | some raw =>
    store raw 0
    setHead raw size (prevInuseBit ||| isMmappedBit)
    adjustMmapThreshold true
    pure (some (raw + chunkHeader))

/-- The extension of a heap: its chunk at `first`, and the rest as the new top chunk. The top
    chunk of before goes to the unsorted bin as it is. -/
def carve (k nb first usable : Nat) : Exec (State τ) (Option Nat) := do
  store first 0
  setFence first usable (headFlags k)
  -- `usable - nb` in `size_t`; the heap was sized for the request
  let remainder := (usable + (2^64 - nb)) % 2^64
  if minsize ≤ remainder then
    setHead first nb (headFlags k)
    store (first + nb) 0
    setHead (first + nb) remainder (headFlags k)
    let av ← getArenaRec k
    if av.top ≠ 0 then
      let unsorted ← unsortedBin k
      pushFront unsorted av.top
    setTop k (first + nb)
  else setHead first usable (headFlags k)
  adjustMmapThreshold false
  pure (some (first + chunkHeader))

/-- The size of an extension: whole multiples of `HEAP_MAX_SIZE`. -/
def extendSize (nb : Nat) : Nat :=
  let size := max ((nb + 2 * minsize) % 2^64) heapMaxSize
  maskOff ((size + heapMaxSize - 1) % 2^64) (heapMaxSize - 1)

/-- Strategy 7, memory from the system. -/
def fromSystem (host : Host) (k nb : Nat) : Exec (State τ) (Option Nat) := do
  let threshold ← gets State.mmapThreshold
  if threshold ≤ nb then mmapChunk host nb
  else if k ≠ 0 then
    match ← newHeap host (extendSize nb) with
    | none => pure none
    | some (h, total) =>
      let first := firstChunk h
      if extendSize nb ≤ first - h + minsize then
        recordHeap ⟨h, total, k, first, first⟩
        pure none
      else
        let usable := extendSize nb - (first - h) - minsize
        recordHeap ⟨h, total, k, first, first + usable⟩
        carve k nb first usable
  else
    match ← sysMap host (extendSize nb) with
    | none => pure none
    | some heap =>
      let usable := extendSize nb - minsize
      recordHeap ⟨heap, pageRound (extendSize nb), k, heap, heap + usable⟩
      carve k nb heap usable

/-- Strategies 3 to 7 in one arena. -/
def fromArena (host : Host) (k nb : Nat) : Exec (State τ) (Option Nat) :=
  orElse (fromSmallbins k nb) <|
  orElse (fromUnsorted k nb) <|
  orElse (fromLargebins k nb) <|
  orElse (fromTop k nb) <|
  fromSystem host k nb

section
variable [DecidableEq τ]

/-- Strategies 3 to 7. -/
def fromChosen (host : Host) (t : τ) (nb : Nat) : Exec (State τ) (Option Nat) := do
  let k ← chooseArena host t
  let r ← fromArena host k nb
  unlockArena k
  pure r

def ptMalloc (host : Host) (t : τ) (size : Nat) : Exec (State τ) (Option Nat) := do
  ptMallocInit host
  let nb := request2size (if size = 0 then 1 else size)
  orElse (fromTcache t nb) <|
  orElse (fromFastbins host t nb) <|
  fromChosen host t nb

/-! ## Free -/

/-- `arena_for_chunk`, or the main arena. The heaps of the main arena are not registered. -/
def arenaOf (s : State τ) (p : Nat) : Nat :=
  ((s.heaps.find? (fun h => decide (h.arena ≠ 0 ∧ h.start ≤ p ∧ p < h.start + h.size))).map
    Heap.arena).getD 0

/-- Release to the tcache: whether that was the end of it, also for what is taken for a double
    free. -/
def freeToTcache (t : τ) (p size : Nat) : Exec (State τ) Bool := do
  match ← gets (fun s => s.tcache t) with
  | none => pure false
  | some tc =>
    if !inTcacheRange size ∨ tcacheMaxBins ≤ csize2tidx size then pure false
    else
      let key ← load (p + chunkHeader + 8)
      if key ≠ 0 then pure true
      else tcacheFree t tc (csize2tidx size) p

/-- Release to a fastbin, or with coalescing. -/
def freeToArena (p size : Nat) : Exec (State τ) Unit := do
  let k ← gets (fun s => arenaOf s p)
  lockArena k
  if size ≤ maxFastSize ∧ fastbinIndex size < nFastbins then fastPush k (fastbinIndex size) p
  else
    clearPrevinuse p
    consolidateAndFree k p
  unlockArena k

def ptFree (t : τ) (ptr : Nat) : Exec (State τ) Unit := do
  if ptr = 0 then pure ()
  else
    let p := ptr - chunkHeader
    let w ← load (p + 8)
    let size := sizeBits w
    if !validSize size then pure ()
    else if w &&& isMmappedBit ≠ 0 then sysUnmap p size
    else if ← freeToTcache t p size then pure ()
    else freeToArena p size

/-! ## Realloc and memalign -/

/-- `pt_malloc_usable_size`. -/
def usableSize (ptr : Nat) : Exec (State τ) Nat := do
  if ptr = 0 then pure 0
  else
    let size ← chunkSize (ptr - chunkHeader)
    pure (if sizeSz < size then size - sizeSz else 0)

/-- `memcpy` of `n` words. -/
def copyWords (dst src : Nat) : Nat → Exec (State τ) Unit
  | 0 => pure ()
  | n + 1 => do
    let w ← load src
    store dst w
    copyWords (dst + 8) (src + 8) n

/-- The extension of `p` into the top chunk. -/
def growIntoTop (k p oldSize nb flags : Nat) : Exec (State τ) Bool := do
  let av ← getArenaRec k
  if p + oldSize ≠ av.top then pure false
  else
    let topSize ← chunkSize av.top
    let total := oldSize + topSize
    if total < nb then pure false
    else
      if minsize ≤ total - nb then
        store (p + nb) nb
        setHead (p + nb) (total - nb) (flags ||| prevInuseBit)
        setFoot (p + nb) (total - nb)
        setTop k (p + nb)
        setHead p nb flags
      else
        setTop k 0
        setHead p total flags
        markInuse p
      pure true

/-- The extension of `p` into a free chunk after it. -/
def growIntoNext (k p oldSize nb flags : Nat) : Exec (State τ) Bool := do
  let next := p + oldSize
  if ← prevInuse next then pure false
  else if !(← containsFreeChunk k next) then pure false
  else
    let nextSize ← chunkSize next
    let total := oldSize + nextSize
    if total < nb then pure false
    else if !(← unlinkFreeChunk k next) then pure false
    else
      forgetRemainder k next
      if minsize ≤ total - nb then
        setHead p nb flags
        store (p + nb) nb
        setHead (p + nb) (total - nb) (flags ||| prevInuseBit)
        setFoot (p + nb) (total - nb)
        clearPrevinuse (p + nb)
        let unsorted ← unsortedBin k
        pushFront unsorted (p + nb)
      else
        setHead p total flags
        markInuse p
      pure true

/-- The extension of `p` into what follows it. -/
def growIn (k p oldSize nb : Nat) : Exec (State τ) Bool := do
  let flags ← chunkFlags p
  if ← growIntoTop k p oldSize nb flags then pure true
  else growIntoNext k p oldSize nb flags

/-- The extension of `p` in place, in its arena; not for a direct mapping, whose header is `w`. -/
def grow (w p oldSize nb : Nat) : Exec (State τ) Bool := do
  if w &&& isMmappedBit ≠ 0 then pure false
  else
    let k ← gets (fun s => arenaOf s p)
    lockArena k
    let done ← growIn k p oldSize nb
    unlockArena k
    pure done

/-- The fallback of `pt_realloc`. What is copied is `old_usable`: the new size is larger. -/
def moveTo (host : Host) (t : τ) (ptr oldSize size : Nat) : Exec (State τ) (Option Nat) := do
  match ← ptMalloc host t size with
  | none => pure none
  | some new =>
    copyWords new ptr (min (oldSize - sizeSz) size / 8)
    ptFree t ptr
    pure (some new)

def ptRealloc (host : Host) (t : τ) (ptr size : Nat) : Exec (State τ) (Option Nat) := do
  if ptr = 0 then ptMalloc host t size
  else if size = 0 then
    ptFree t ptr
    pure none
  else
    let p := ptr - chunkHeader
    let w ← load (p + 8)
    let oldSize := sizeBits w
    let nb := request2size size
    if nb ≤ oldSize then pure (some ptr)
    else
      if ← grow w p oldSize nb then pure (some ptr)
      else moveTo host t ptr oldSize size

/-- The alignment as `pt_memalign` uses it: at least eight, and the next power of two; `0` where
    that is `2^64`. -/
def roundAlignment (alignment : Nat) : Nat :=
  let a := max alignment 8
  if a &&& (a - 1) = 0 then a
  else
    let a := a - 1
    let a := a ||| a >>> 1
    let a := a ||| a >>> 2
    let a := a ||| a >>> 4
    let a := a ||| a >>> 8
    let a := a ||| a >>> 16
    let a := a ||| a >>> 32
    (a + 1) % 2^64

/-- An aligned block in the block at `raw`; the piece in front is released. -/
def alignIn (t : τ) (raw alignment : Nat) : Exec (State τ) (Option Nat) := do
  let p := raw - chunkHeader
  let psize ← chunkSize p
  if raw &&& (alignment - 1) = 0 then pure (some raw)
  else
    let aligned := maskOff ((raw + alignment - 1) % 2^64) (alignment - 1)
    -- a piece too small for a chunk: the next aligned address
    let aligned := if aligned - raw < minsize then aligned + alignment else aligned
    let front := aligned - raw
    setHead (aligned - chunkHeader) ((psize + (2^64 - front)) % 2^64) prevInuseBit
    markInuse (aligned - chunkHeader)
    setHead p front prevInuseBit
    ptFree t raw
    pure (some aligned)

def ptMemalign (host : Host) (t : τ) (alignment size : Nat) : Exec (State τ) (Option Nat) := do
  let a := roundAlignment alignment
  if a = 0 then pure none
  else if a ≤ mallocAlignment then ptMalloc host t size
  else match ← ptMalloc host t ((request2size size + 2 * a + chunkHdrSz) % 2^64) with
    | none => pure none
    | some raw => alignIn t raw a

end

end MyMalloc.Ptmalloc.Words
