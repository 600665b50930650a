import MyMalloc.Classic.Ptmalloc.Bins

/- Coalescing of free chunks (`coalesce.cpp`).

   A chunk that leaves the fastbins or is freed is merged with its neighbours where
   these are found in a bin, and then with the top chunk or put in the unsorted
   bin. The `prev_size` of a chunk whose `PREV_INUSE` is clear says where the one
   before it starts. -/
namespace MyMalloc.Ptmalloc.Words

open Exec

variable {τ : Type}

/-- A chunk that leaves its bin is no longer the last remainder. -/
def forgetRemainder (k p : Nat) : Exec (State τ) Unit := do
  let av ← getArenaRec k
  if av.lastRemainder = p then setLastRemainder k 0

/-- The merge with the chunk before: the start and the size of what is merged. -/
def mergeBackward (k p psize : Nat) : Exec (State τ) (Nat × Nat) := do
  if ← prevInuse p then pure (p, psize)
  else
    let prevSz ← load p
    if prevSz < minsize ∨ prevSz % 16 ≠ 0 ∨ p < prevSz then pure (p, psize)
    else
      let size ← chunkSize (p - prevSz)
      if size ≠ prevSz then pure (p, psize)
      else if ← unlinkFreeChunk k (p - prevSz) then
        forgetRemainder k (p - prevSz)
        pure (p - prevSz, psize + prevSz)
      else pure (p, psize)

/-- The merge with the chunk after, once it is taken for free. -/
def mergeNext (k p psize next : Nat) : Exec (State τ) Nat := do
  let nextSize ← chunkSize next
  if ← unlinkFreeChunk k next then
    forgetRemainder k next
    pure (psize + nextSize)
  else
    clearPrevinuse p
    pure psize

/-- A merged chunk in the unsorted bin, with its foot and the bit of the chunk after it. -/
def placeUnsorted (k p psize flags : Nat) : Exec (State τ) Unit := do
  setHead p psize flags
  setFoot p psize
  if psize ≠ 0 then
    let w ← load (p + psize + 8)
    store (p + psize + 8) (maskOff w prevInuseBit)
  let unsorted ← unsortedBin k
  pushFront unsorted p

/-- One chunk of a fastbin in `malloc_consolidate`. -/
def consolidateChunk (k p : Nat) : Exec (State τ) Unit := do
  let psize ← chunkSize p
  let av ← getArenaRec k
  let merge ← if p + psize = av.top then pure false
    else do
      let inuse ← prevInuse (p + psize)
      pure (!inuse)
  let psize ← if merge then mergeNext k p psize (p + psize) else pure psize
  let (p, psize) ← mergeBackward k p psize
  if av.top = p + psize then
    let topSize ← chunkSize av.top
    setHead p (psize + topSize) prevInuseBit
    setTop k p
  else placeUnsorted k p psize prevInuseBit

def consolidateList (k : Nat) : Nat → Nat → Exec (State τ) Unit
  | 0, _ => fault
  | fuel + 1, p =>
    if p = 0 then pure ()
    else do
      let next ← load (p + 16)
      consolidateChunk k p
      consolidateList k fuel next

/-- The fastbins from `i` on, `n` of them. -/
def consolidateFrom (k : Nat) : Nat → Nat → Exec (State τ) Unit
  | _, 0 => pure ()
  | i, n + 1 => do
    let limit ← gets State.walkLimit
    let av ← getArenaRec k
    modifyArena k (fun a => { a with fast := Function.update a.fast i 0 })
    consolidateList k limit (av.fast i)
    consolidateFrom k (i + 1) n

def mallocConsolidate (k : Nat) : Exec (State τ) Unit := consolidateFrom k 0 nFastbins

/-- `systrim` with no padding; the header of the top chunk loses its arena bit. -/
def systrim (k : Nat) : Exec (State τ) Unit := do
  let av ← getArenaRec k
  if av.top = 0 then pure ()
  else
    let topSize ← chunkSize av.top
    if topSize ≤ defaultTrimThreshold then pure ()
    else if ← sysTrim av.top topSize defaultTrimThreshold then
      setHead av.top defaultTrimThreshold prevInuseBit

def consolidateAndFree (k p : Nat) : Exec (State τ) Unit := do
  let psize ← chunkSize p
  let flags ← chunkFlags p
  let av ← getArenaRec k
  let merge ← if p + psize = av.top then pure false else containsFreeChunk k (p + psize)
  let psize ← if merge then mergeNext k p psize (p + psize) else pure psize
  let (p, psize) ← mergeBackward k p psize
  let head := prevInuseBit ||| (flags &&& nonMainArenaBit)
  if av.top = p + psize then
    let topSize ← chunkSize av.top
    setHead p (psize + topSize) head
    setTop k p
    systrim k
  else if psize < minsize ∨ psize % 16 ≠ 0 then pure ()
  else placeUnsorted k p psize head

end MyMalloc.Ptmalloc.Words
