import MyMalloc.Lib.Word
import MyMalloc.Lib.Bisect
import Mathlib.Logic.Function.Basic

/- The jemalloc-like allocator (`size_classes.h`, `jemalloc.cpp`).

   A call that touches memory it must not touch does not return: functions that
   can do so give an `Option`, and `none` is the fault. The one place where it
   happens is the bitmap of a run. `bin_alloc_run` allocates it as a plain
   array of bytes, and everything else reads it through `RunBitmap`, whose
   first field is a pointer: the first eight bytes of the array are taken for
   the address of the bits.

   Extents are records in a store indexed by their address, 0 is null. Memory
   is known by which addresses are mapped. `low_water` is zero from
   `je_tcache_t::init` on, so a bin of the cache is used down to its last
   entry; `count` is the length of the stack. `je_tcache_t::flush` has no
   caller. -/
namespace MyMalloc.Jemalloc

def pageSize : Nat := 4096
def nSmallClasses : Nat := 36
def smallMax : Nat := 14336
def hugeThreshold : Nat := 2097152
def nArenas : Nat := 8
def tcacheMax : Nat := 4096
def tcacheGcThresh : Nat := 4096
def runMaxPages : Nat := 32
def rtreeNslots : Nat := 65536

/-! ## Size classes -/

/-- The sizes of `je_class_info`, row by row. -/
def classSizes : List Nat :=
  [8, 16, 24, 32, 40, 48, 56, 64, 80, 96, 112, 128, 160, 192, 224, 256, 320, 384, 448, 512,
   640, 768, 896, 1024, 1280, 1536, 1792, 2048, 2560, 3072, 3584, 4096, 5120, 6144, 7168, 8192]

def classInfo (i : Nat) : Nat := classSizes.getD i 0

def sizeToClass (size : Nat) : Nat :=
  let size := if size = 0 then 1 else size
  if smallMax < size then nSmallClasses
  else bisect classInfo size nSmallClasses 0 (nSmallClasses - 1)

def classToSize (i : Nat) : Nat := if nSmallClasses ≤ i then 0 else classInfo i

/-! ## The bitmap of a run -/

/-- The array `new unsigned char[n]()` and where it lies. -/
structure Bitmap where
  addr : Nat
  bytes : List Nat
  deriving DecidableEq, Repr

def littleEndian : List Nat → Nat
  | [] => 0
  | b :: l => b + 256 * littleEndian l

namespace Bitmap

/-- `rb->bits`: the first eight bytes of the array, if it has eight. -/
def bits (b : Bitmap) : Option Nat :=
  if 8 ≤ b.bytes.length then some (littleEndian (b.bytes.take 8)) else none

/-- The byte of the array at address `a`; there is none outside it. -/
def byteAt (b : Bitmap) (a : Nat) : Option Nat :=
  if b.addr ≤ a then b.bytes[a - b.addr]? else none

/-- The address `&bits[idx >> 3]`. -/
def cell (b : Bitmap) (idx : Nat) : Option Nat := b.bits.map (fun p => (p + idx >>> 3) % 2^64)

def isFree (b : Bitmap) (idx : Nat) : Option Bool :=
  (b.cell idx).bind (fun a => (b.byteAt a).map (fun v => !v.testBit (idx &&& 7)))

/-- Write the byte that holds slot `idx`. -/
def write (b : Bitmap) (idx : Nat) (f : Nat → Nat) : Option Bitmap :=
  (b.cell idx).bind (fun a => (b.byteAt a).map (fun v =>
    { b with bytes := b.bytes.set (a - b.addr) (f v) }))

def setUsed (b : Bitmap) (idx : Nat) : Option Bitmap := b.write idx (· ||| 1 <<< (idx &&& 7))

def setFree (b : Bitmap) (idx : Nat) : Option Bitmap :=
  b.write idx (fun v => v &&& (255 - 1 <<< (idx &&& 7)))

end Bitmap

/-! ## State -/

structure Extent where
  addr : Nat
  size : Nat
  usize : Nat
  arenaIdx : Nat
  nfree : Nat
  prev : Nat
  next : Nat
  runBitmap : Option Bitmap
  runNslots : Nat
  runObjSize : Nat

def zeroExtent : Extent := ⟨0, 0, 0, 0, 0, 0, 0, none, 0, 0⟩

structure Bin where
  runcur : Nat
  runs : Nat
  nslots : Nat

/-- `je_tcache_t`: each stack with its top first. -/
structure Tcache where
  stack : Nat → List Nat
  arenaIdx : Nat
  totalCount : Nat

/-- What the allocator gets from outside: the answers of `mmap` and the addresses of the
bitmaps, in order. -/
structure Host where
  mmap : Nat → Option Nat
  newArray : Nat → Nat
  newArray_pos : ∀ k, 0 < newArray k

theorem Host.spaced_pos (k : Nat) : 0 < 16 * (k + 1) := by omega

structure State (τ : Type) where
  ext : Nat → Extent
  exts : Nat
  freed : List Nat
  rtree : Nat → Nat
  bin : Nat → Nat → Bin
  initialized : Bool
  nextArena : Nat
  tcache : τ → Option Tcache
  mapped : Nat → Bool
  mmapCalls : Nat
  arrays : Nat

def State.start (τ : Type) : State τ where
  ext := fun _ => zeroExtent
  exts := 0
  freed := []
  rtree := fun _ => 0
  bin := fun _ _ => ⟨0, 0, 0⟩
  initialized := false
  nextArena := 0
  tcache := fun _ => none
  mapped := fun _ => false
  mmapCalls := 0
  arrays := 0

variable {τ : Type}

/-! ## Mappings and extents -/

def rtreeSlot (addr : Nat) : Nat := (addr >>> 12) % rtreeNslots

def State.rtreeGet (s : State τ) (addr : Nat) : Nat := s.rtree (rtreeSlot addr)

/-- What becomes of an answer of `mmap`. -/
def mapAt (answer : Option Nat) (size : Nat) (s : State τ) : Option Nat × State τ :=
  let s₁ := { s with mmapCalls := s.mmapCalls + 1 }
  match answer with
  | none => (none, s₁)
  | some addr => (some addr, { s₁ with
      mapped := fun a => if addr ≤ a ∧ a < addr + size then true else s.mapped a })

/-- `mmap` of `size` bytes; a mapping of no bytes is refused. -/
def mmap (host : Host) (size : Nat) (s : State τ) : Option Nat × State τ :=
  mapAt (if size = 0 then none else host.mmap s.mmapCalls) size s

def munmap (addr size : Nat) (s : State τ) : State τ :=
  { s with mapped := fun a => if addr ≤ a ∧ a < addr + size then false else s.mapped a }

/-- The loop that enters the pages of an extent. -/
def rtreeSet (addr g : Nat) : Nat → (Nat → Nat) → Nat → Nat
  | 0, r => r
  | n + 1, r => Function.update (rtreeSet addr g n r) (rtreeSlot (addr + n * pageSize)) g

/-- `extent_alloc` once `mmap` has answered. -/
def newExtent (pages bytes : Nat) (r : Option Nat × State τ) : Nat × State τ :=
  match r.1 with
  | none => (0, r.2)
  | some addr =>
    let g := r.2.exts + 1
    (g, { r.2 with
      exts := g
      ext := Function.update r.2.ext g
        { zeroExtent with addr := addr, size := bytes, usize := bytes }
      rtree := rtreeSet addr g pages r.2.rtree })

/-- The bytes `extent_alloc` maps for a number of pages. -/
def extentBytes (pages : Nat) : Nat :=
  maskOff ((pages * pageSize % 2^64 + pageSize - 1) % 2^64) (pageSize - 1)

/-- `extent_alloc`; 0 if there is no memory. -/
def extentAlloc (host : Host) (pages : Nat) (s : State τ) : Nat × State τ :=
  newExtent pages (extentBytes pages) (mmap host (extentBytes pages) s)

def extentFree (g : Nat) (s : State τ) : State τ :=
  let e := s.ext g
  munmap e.addr e.size { s with
    rtree := rtreeSet e.addr 0 (e.size / pageSize) s.rtree, freed := g :: s.freed }

def State.modifyExt (g : Nat) (f : Extent → Extent) (s : State τ) : State τ :=
  { s with ext := Function.update s.ext g (f (s.ext g)) }

def State.modifyBin (a c : Nat) (f : Bin → Bin) (s : State τ) : State τ :=
  { s with bin := Function.update s.bin a (Function.update (s.bin a) c (f (s.bin a c))) }

/-! ## Runs and the thread cache -/

/-- The loop of `bin_alloc_run` that picks the number of pages. -/
def runPages (objSize : Nat) : Nat → Nat → Nat
  | 0, pages => pages
  | fuel + 1, pages =>
    if pages * pageSize / objSize < 64 ∧ pages < runMaxPages then runPages objSize fuel (pages + 1)
    else pages

def targetPages (objSize : Nat) : Nat := runPages objSize runMaxPages 1

def runCapacity (objSize : Nat) : Nat := targetPages objSize * pageSize / objSize

/-- `bin_alloc_run` for class `c` of arena `a`. -/
def binAllocRun (host : Host) (a c : Nat) (s : State τ) : Nat × State τ :=
  let objSize := classInfo c
  let r := extentAlloc host (targetPages objSize) s
  if r.1 = 0 then r
  else
    let capacity := runCapacity objSize
    let old := (r.2.bin a c).runs
    let s := r.2.modifyBin a c ({ · with nslots := capacity, runs := r.1 })
    let s := { s with arrays := s.arrays + 1 }
    let s := s.modifyExt r.1 ({ · with
      runBitmap := some ⟨host.newArray (s.arrays - 1), List.replicate ((capacity + 7) / 8) 0⟩
      runNslots := capacity
      runObjSize := objSize
      nfree := capacity
      arenaIdx := a
      next := old })
    (r.1, if old = 0 then s else s.modifyExt old ({ · with prev := r.1 }))

def tcacheAlloc (c : Nat) (tc : Tcache) : Option Nat × Tcache :=
  match tc.stack c with
  | [] => (none, tc)
  | p :: l => (some p, { tc with
      stack := Function.update tc.stack c l, totalCount := tc.totalCount - 1 })

/-- `je_tcache_t::gc`: every bin is emptied. Its count is set before the difference is taken,
so `total_count` stays. -/
def tcacheGc (tc : Tcache) : Tcache := { tc with stack := fun _ => [] }

/-- `je_tcache_t::free` for a class of the table; `none` if the bin is full. -/
def tcacheFree (c ptr : Nat) (tc : Tcache) : Option Tcache :=
  if (tc.stack c).length < tcacheMax then
    let tc : Tcache := { tc with
      stack := Function.update tc.stack c (ptr :: tc.stack c), totalCount := tc.totalCount + 1 }
    some (if tcacheGcThresh < tc.totalCount then tcacheGc tc else tc)
  else none

/-! ## Allocation -/

section threads
variable [DecidableEq τ]

/-- `je_init`, called by thread `t`: the thread that initialises gets a cache. -/
def jeInit (t : τ) (s : State τ) : State τ :=
  if s.initialized then s
  else
    let s := { s with initialized := true, bin := fun _ _ => ⟨0, 0, 0⟩ }
    if (s.tcache t).isSome then s
    else { s with
      nextArena := s.nextArena + 1
      tcache := Function.update s.tcache t (some ⟨fun _ => [], s.nextArena % nArenas, 0⟩) }

/-- The pages `je_large_alloc` asks for. -/
def largePages (size : Nat) : Nat := ((size + (pageSize - 1)) % 2^64) >>> 12

def largeAlloc (host : Host) (size : Nat) (s : State τ) : Option Nat × State τ :=
  let r := extentAlloc host (largePages size) s
  if r.1 = 0 then (none, r.2)
  else
    let s := r.2.modifyExt r.1 ({ · with usize := size })
    (some (s.ext r.1).addr, s)

def hugeAlloc (host : Host) (size : Nat) (s : State τ) : Option Nat × State τ :=
  mmap host (maskOff ((size + (pageSize - 1)) % 2^64) (pageSize - 1)) s

/-- The walk over the runs of a bin to one with free slots. -/
def findRun (s : State τ) : Nat → Nat → Nat
  | 0, _ => 0
  | fuel + 1, g => if g ≠ 0 ∧ (s.ext g).nfree = 0 then findRun s fuel (s.ext g).next else g

/-- The run `je_malloc` takes a slot from; 0 if there is no memory. -/
def chooseRun (host : Host) (a c : Nat) (s : State τ) : Nat × State τ :=
  let bin := s.bin a c
  if bin.runcur = 0 ∨ (s.ext bin.runcur).nfree = 0 then
    let g := findRun s (s.exts + 1) bin.runs
    let r := if g = 0 then binAllocRun host a c s else (g, s)
    if r.1 = 0 then r else (r.1, r.2.modifyBin a c ({ · with runcur := r.1 }))
  else (bin.runcur, s)

/-- The search for a free slot from slot `i` on; the outer `none` is a fault. -/
def findSlot (b : Bitmap) : Nat → Nat → Option (Option Nat)
  | 0, _ => some none
  | n + 1, i => (b.isFree i).bind (fun free => if free then some (some i) else findSlot b n (i + 1))

/-- Take a free slot of run `g`. -/
def takeSlot (g c : Nat) (s : State τ) : Option (Option Nat × State τ) :=
  let e := s.ext g
  e.runBitmap.bind fun b =>
    (findSlot b e.runNslots 0).bind fun slot =>
      match slot with
      | none => some (none, s)
      | some i => (b.setUsed i).map fun b' =>
          (some (e.addr + i * classInfo c), s.modifyExt g (fun e =>
            { e with runBitmap := some b', nfree := (e.nfree + 2^32 - 1) % 2^32 }))

/-- The small path of `je_malloc` once the cache has nothing. -/
def binAlloc (host : Host) (a c : Nat) (s : State τ) : Option (Option Nat × State τ) :=
  let r := chooseRun host a c s
  if r.1 = 0 then some (none, r.2) else takeSlot r.1 c r.2

def smallAlloc (host : Host) (t : τ) (c : Nat) (s : State τ) : Option (Option Nat × State τ) :=
  match s.tcache t with
  | none => some (none, s)
  | some tc =>
    let r := tcacheAlloc c tc
    let s := { s with tcache := Function.update s.tcache t (some r.2) }
    if r.1.isSome then some (r.1, s) else binAlloc host tc.arenaIdx c s

def jeMalloc (host : Host) (t : τ) (size : Nat) (s : State τ) : Option (Option Nat × State τ) :=
  let s := jeInit t s
  let size := if size = 0 then 1 else size
  if hugeThreshold ≤ size then some (hugeAlloc host size s)
  else if smallMax < size then some (largeAlloc host size s)
  else smallAlloc host t (sizeToClass size) s

/-! ## Freeing and the rest of the interface -/

/-- Take a run that is free again out of its bin, and give its extent back. -/
def releaseRun (g a c : Nat) (s : State τ) : State τ :=
  let e := s.ext g
  let s := s.modifyBin a c (fun b => { b with runcur := if b.runcur = g then 0 else b.runcur })
  let s := if e.prev ≠ 0 then s.modifyExt e.prev ({ · with next := e.next })
    else s.modifyBin a c ({ · with runs := e.next })
  let s := if e.next ≠ 0 then s.modifyExt e.next ({ · with prev := e.prev }) else s
  extentFree g s

/-- The path of `je_free` that gives a slot back to its run. -/
def runFree (g ptr c : Nat) (s : State τ) : Option (State τ) :=
  let e := s.ext g
  let slot := (ptr + 2^64 - e.addr) % 2^64 / e.runObjSize
  let freed :=
    if slot < e.runNslots then
      e.runBitmap.bind fun b => (b.setFree slot).map fun b' =>
        s.modifyExt g (fun e => { e with runBitmap := some b', nfree := (e.nfree + 1) % 2^32 })
    else some s
  freed.map fun s =>
    if (s.ext g).nfree = (s.ext g).runNslots then releaseRun g e.arenaIdx c s
    else s.modifyBin e.arenaIdx c ({ · with runcur := g })

def smallFree (t : τ) (g ptr : Nat) (s : State τ) : Option (State τ) :=
  let c := sizeToClass (s.ext g).runObjSize
  match (s.tcache t).bind (tcacheFree c ptr) with
  | some tc => some { s with tcache := Function.update s.tcache t (some tc) }
  | none => runFree g ptr c s

/-- `je_free` of a pointer that is not null. -/
def jeFree (t : τ) (ptr : Nat) (s : State τ) : Option (State τ) :=
  let g := s.rtreeGet ptr
  if g = 0 then some (munmap (maskOff ptr (pageSize - 1)) hugeThreshold s)
  else if 0 < (s.ext g).runNslots then smallFree t g ptr s
  else some (extentFree g s)

def jeUsableSize (ptr : Nat) (s : State τ) : Nat :=
  let g := s.rtreeGet ptr
  if g = 0 then hugeThreshold
  else if 0 < (s.ext g).runObjSize then (s.ext g).runObjSize
  else (s.ext g).usize

def jeCalloc (host : Host) (t : τ) (n size : Nat) (s : State τ) : Option (Option Nat × State τ) :=
  let total := n * size % 2^64
  if n ≠ 0 ∧ total / n ≠ size then some (none, s) else jeMalloc host t total s

/-- `je_realloc` of a pointer that is not null. -/
def jeRealloc (host : Host) (t : τ) (ptr size : Nat) (s : State τ) :
    Option (Option Nat × State τ) :=
  if size = 0 then (jeFree t ptr s).map (fun s => (none, s))
  else if size ≤ jeUsableSize ptr s then some (some ptr, s)
  else (jeMalloc host t size s).bind fun r =>
    if r.1.isNone then some r else (jeFree t ptr r.2).map (fun s => (r.1, s))

def jeMemalign (host : Host) (t : τ) (alignment size : Nat) (s : State τ) :
    Option (Option Nat × State τ) :=
  if alignment ≤ 16 then jeMalloc host t size s
  else if alignment &&& (alignment - 1) ≠ 0 then some (none, s)
  else some (largeAlloc host ((size + alignment) % 2^64) s)

end threads

end MyMalloc.Jemalloc
