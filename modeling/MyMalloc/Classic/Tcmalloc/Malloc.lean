import MyMalloc.Lib.Word
import MyMalloc.Classic.Tcmalloc.Central

/- The thread cache and the entry points (`thread_cache.cpp`, `tcmalloc.cpp`).

   A cache bin is the list of its objects; `count[i]` is the length of
   `list[i]`, which every function of the source keeps equal. `max_allocated`
   never changes. `tc_thread_cache` is set by `tc_init`, which `pthread_once`
   runs once per process: only the first thread gets a cache.

   A pointer is `none` when it is null. -/
namespace MyMalloc.Tcmalloc

structure ThreadCache where
  list : Nat → List Nat
  maxCount : Nat → Nat
  lowWater : Nat → Nat
  allocated : Nat

def newCache : ThreadCache := ⟨fun _ => [], fun _ => 2, fun _ => 0, 0⟩

def maxAllocated : Nat := 4194304

/-- What the allocator gets from outside: the answer to each `mmap` call, in order, and
whether `aligned_alloc` has memory for the cache. -/
structure Host where
  mmap : Nat → Option Nat
  cacheMem : Bool

structure State (τ : Type) where
  heap : PageHeap
  central : Nat → Central
  once : Bool
  cache : τ → Option ThreadCache
  mmapCalls : Nat

def State.start (τ : Type) : State τ := ⟨emptyHeap, fun _ => ⟨[], []⟩, false, fun _ => none, 0⟩

variable {τ : Type} [DecidableEq τ]

namespace State

/-- The central list of class `c`, with the spans. -/
def lists (c : Nat) (s : State τ) : Lists := ⟨s.heap.span, s.central c⟩

def putLists (c : Nat) (l : Lists) (s : State τ) : State τ :=
  { s with heap := { s.heap with span := l.span }, central := Function.update s.central c l.central }

def putCache (t : τ) (tc : ThreadCache) (s : State τ) : State τ :=
  { s with cache := Function.update s.cache t (some tc) }

/-- `alloc_span` with the next answer of `mmap`. -/
def allocSpan (host : Host) (n : Nat) (s : State τ) : Nat × State τ :=
  let r := s.heap.allocSpan n (host.mmap s.mmapCalls)
  (r.2, { s with
    heap := r.1
    mmapCalls := if (s.heap.findFree n).isNone then s.mmapCalls + 1 else s.mmapCalls })

def modifySpan (g : Nat) (f : Span → Span) (s : State τ) : State τ :=
  { s with heap := s.heap.modify g f }

end State

/-! ## The thread cache -/

def updateCapacity (c : Nat) (tc : ThreadCache) : ThreadCache :=
  let cap := tc.maxCount c
  let cap' := if cap * 3 / 4 ≤ (tc.list c).length then min (cap * 2) 8192 else cap
  { tc with
    maxCount := Function.update tc.maxCount c cap'
    lowWater := Function.update tc.lowWater c (cap' / 4) }

def refill (c : Nat) (tc : ThreadCache) (s : State τ) : ThreadCache × State τ :=
  let batch := max (tc.maxCount c) (kClassInfo c).numToMove
  let r := removeRange batch (s.lists c)
  let s := s.putLists c r.2
  if r.1 = [] then (tc, s)
  else (updateCapacity c { tc with list := Function.update tc.list c (r.1 ++ tc.list c) }, s)

/-- Take the first object of a cache bin. -/
def popCache (c : Nat) (tc : ThreadCache) : Option Nat × ThreadCache :=
  match tc.list c with
  | [] => (none, tc)
  | a :: l => (some a, { tc with
      list := Function.update tc.list c l
      allocated := (tc.allocated + 2^64 - (kClassInfo c).size) % 2^64 })

def cacheAlloc (c : Nat) (tc : ThreadCache) (s : State τ) : Option Nat × ThreadCache × State τ :=
  if tc.list c ≠ [] then ((popCache c tc).1, (popCache c tc).2, s)
  else
    let r := refill c tc s
    ((popCache c r.1).1, (popCache c r.1).2, r.2)

/-- One class of `scavenge`. -/
def scavengeClass (p : ThreadCache × State τ) (i : Nat) : ThreadCache × State τ :=
  let tc := p.1
  let count := (tc.list i).length
  if tc.lowWater i < count then
    let n := count - tc.lowWater i
    ({ tc with list := Function.update tc.list i ((tc.list i).drop n) },
      p.2.putLists i (insertRange ((tc.list i).take n) (p.2.lists i)))
  else p

def scavenge (tc : ThreadCache) (s : State τ) : ThreadCache × State τ :=
  let r := (List.range kNumClasses).foldl scavengeClass (tc, s)
  ({ r.1 with allocated := 0 }, r.2)

/-- Put an object in front of a cache bin. -/
def pushCache (c ptr : Nat) (tc : ThreadCache) : ThreadCache :=
  { tc with
    list := Function.update tc.list c (ptr :: tc.list c)
    allocated := (tc.allocated + (kClassInfo c).size) % 2^64 }

/-- `ThreadCache::free` for a class of the table. -/
def cacheFree (c ptr : Nat) (tc : ThreadCache) (s : State τ) : ThreadCache × State τ :=
  let r := if tc.maxCount c ≤ (tc.list c).length then scavenge tc s else (tc, s)
  let tc := pushCache c ptr r.1
  if maxAllocated < tc.allocated then scavenge tc r.2 else (tc, r.2)

/-! ## The entry points -/

/-- `tc_init_allocator`, called by thread `t`. -/
def initAllocator (host : Host) (t : τ) (s : State τ) : State τ :=
  if s.once then s
  else { s with
    once := true
    cache := if host.cacheMem then Function.update s.cache t (some newCache) else s.cache }

/-- The number of pages `alloc_large` asks for. -/
def largePages (size : Nat) : Nat := ((size + kPageSize - 1) % 2^64) >>> kPageShift

def largeAlloc (host : Host) (size : Nat) (s : State τ) : Option Nat × State τ :=
  let r := s.allocSpan host (largePages size)
  if r.1 = 0 then (none, r.2)
  else
    let s := r.2.modifySpan r.1 ({ · with sizeClass := kNumClasses, refcount := 1 })
    (some (pageAddr (s.heap.span r.1).start), s)

/-- `remove_range(1)` of class `c`. -/
def takeOne (c : Nat) (s : State τ) : Option Nat × State τ :=
  let r := removeRange 1 (s.lists c)
  (r.1.head?, s.putLists c r.2)

/-- A new span for class `c`, and its first object. -/
def carveSpan (host : Host) (c : Nat) (s : State τ) : Option Nat × State τ :=
  let info := kClassInfo c
  let r := s.allocSpan host info.pages
  if r.1 = 0 then (none, r.2)
  else
    let s := r.2.modifySpan r.1 (fun sp => { sp with
      sizeClass := c
      freelist := buildFreelist sp.start sp.length info.size
      refcount := 0 })
    takeOne c (s.putLists c (addSpan r.1 (s.lists c)))

/-- The small path of `tc_malloc` once the thread cache could not serve. -/
def centralAlloc (host : Host) (c : Nat) (s : State τ) : Option Nat × State τ :=
  let r := takeOne c s
  if r.1.isSome then r else carveSpan host c r.2

def smallAlloc (host : Host) (t : τ) (c : Nat) (s : State τ) : Option Nat × State τ :=
  match s.cache t with
  | none => (none, s)
  | some tc =>
    let r := cacheAlloc c tc s
    let s := r.2.2.putCache t r.2.1
    if r.1.isSome then (r.1, s) else centralAlloc host c s

def tcMalloc (host : Host) (t : τ) (size : Nat) (s : State τ) : Option Nat × State τ :=
  let s := initAllocator host t s
  let size := if size = 0 then 1 else size
  if kMaxSize < size then largeAlloc host size s else smallAlloc host t (sizeToClass size) s

/-- `tc_large_free`; the page map keeps its entries. -/
def largeFree (ptr : Nat) (s : State τ) : State τ :=
  let g := s.heap.get (pageNumber ptr)
  if g = 0 then s
  else
    let h := s.heap
    { s with heap := { h with
        systemBytes := (h.systemBytes + 2^64 - (h.span g).length * kPageSize % 2^64) % 2^64
        deleted := g :: h.deleted } }

/-- `tc_free` of an object when the calling thread has no cache. -/
def directFree (ptr g c : Nat) (s : State τ) : State τ :=
  let s := s.putLists c (insertRange [ptr] (s.lists c))
  let s := { s with heap := { s.heap with span := dropRef g s.heap.span } }
  if (s.heap.span g).refcount = 0 then { s with heap := s.heap.freeSpan g } else s

def tcFree (t : τ) (ptr : Nat) (s : State τ) : State τ :=
  let g := s.heap.get (pageNumber ptr)
  if g = 0 then s
  else
    let c := (s.heap.span g).sizeClass
    if kNumClasses ≤ c then largeFree ptr s
    else
      match s.cache t with
      | some tc =>
        let r := cacheFree c ptr tc s
        r.2.putCache t r.1
      | none => directFree ptr g c s

def tcUsableSize (ptr : Nat) (s : State τ) : Nat :=
  let g := s.heap.get (pageNumber ptr)
  if g = 0 then 0
  else
    let sp := s.heap.span g
    if kNumClasses ≤ sp.sizeClass then sp.length * kPageSize % 2^64
    else (kClassInfo sp.sizeClass).size

/-- `tc_calloc`; the bytes it clears are not part of the state. -/
def tcCalloc (host : Host) (t : τ) (n size : Nat) (s : State τ) : Option Nat × State τ :=
  let total := n * size % 2^64
  if n ≠ 0 ∧ total / n ≠ size then (none, s) else tcMalloc host t total s

def tcRealloc (host : Host) (t : τ) (ptr size : Nat) (s : State τ) : Option Nat × State τ :=
  if size = 0 then (none, tcFree t ptr s)
  else if size ≤ tcUsableSize ptr s then (some ptr, s)
  else
    let r := tcMalloc host t size s
    if r.1.isNone then r else (r.1, tcFree t ptr r.2)

/-- Rounding up to a power of two, as `tc_memalign` does it. -/
def alignPtr (p alignment : Nat) : Nat := maskOff ((p + alignment - 1) % 2^64) (alignment - 1)

def tcMemalign (host : Host) (t : τ) (alignment size : Nat) (s : State τ) :
    Option Nat × State τ :=
  if alignment ≤ 16 then tcMalloc host t size s
  else if alignment &&& (alignment - 1) ≠ 0 then (none, s)
  else
    let r := largeAlloc host ((size + alignment) % 2^64) s
    (r.1.map (alignPtr · alignment), r.2)

end MyMalloc.Tcmalloc
