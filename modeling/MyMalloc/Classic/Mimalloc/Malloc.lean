import MyMalloc.Lib.Word
import MyMalloc.Lib.Region
import Mathlib.Logic.Function.Basic

/- The mimalloc-like allocator (`types.h`, `segment.cpp`, `os.cpp`, `mimalloc.cpp`).

   A thread has a heap, and for every size class the heap remembers one page
   with free blocks. A page is the only page of a 64 KiB segment, and a block
   finds its page by rounding its address down to the segment and comparing the
   word there with a magic number. Requests over 8 KiB are mapped on their own
   and have their size in the word before the block.

   Nothing ever fills the segment cache, the abandoned list or `thread_free`
   (`mi_segment_free`, `destroy` and every writer of `thread_free` are without
   callers), so the branches that read them are the empty ones. A call that
   follows a null heap or reads memory that is not mapped has no result, and
   neither has one that takes words of the client's memory for a segment, or the
   still encoded links of a remote queue for addresses. -/
namespace MyMalloc.Mimalloc

/-! ## Sizes -/

def segmentSize : Nat := 65536
def osPageSize : Nat := 4096
def maxSmallSize : Nat := 8192
def pageMediumSize : Nat := 65536
def blockAlign : Nat := 16
def classStepSmall : Nat := 16
def classCountSmall : Nat := 256
def classCountMedium : Nat := 32
def classCount : Nat := classCountSmall + classCountMedium

/-- "mimalloc", the first word of a segment. -/
def segmentMagic : Nat := 0x6d696d616c6c6f63

/-- `sizeof(mi_segment_t) + sizeof(mi_page_t)`: the blocks of a segment begin after both. -/
def blockOffset : Nat := 32 + 96

def miClassIndex (size : Nat) : Nat :=
  let size := if size = 0 then 1 else size
  if size ≤ maxSmallSize then
    let idx := (size + classStepSmall - 1) / classStepSmall - 1
    if idx < classCountSmall then idx else classCountSmall - 1
  else if size ≤ pageMediumSize then
    let base := (size - maxSmallSize + 127) / 128
    classCountSmall + if base < classCountMedium then base else classCountMedium - 1
  else classCount

def miClassSize (idx : Nat) : Nat :=
  if idx < classCountSmall then (idx + 1) * classStepSmall
  else maxSmallSize + (idx - classCountSmall + 1) * 128

/-- `(size + sizeof(size_t) + 15) & ~15`. -/
def largeActual (size : Nat) : Sized Nat := do
  let a ← addS size 8
  let b ← addS a 15
  pure (maskOff b 15)

/-- `(size + ps - 1) & ~(ps - 1)`, what `raw_alloc` maps and `raw_free` unmaps. -/
def mapSize (size : Nat) : Sized Nat := do
  let a ← addS size (osPageSize - 1)
  pure (maskOff a (osPageSize - 1))

/-- All the size arithmetic of a large request: its stored size and what is mapped for it. -/
def largeSizes (size : Nat) : Sized (Nat × Nat) := do
  let actual ← largeActual size
  let total ← addS actual 8
  let mapped ← mapSize total
  pure (actual, mapped)

/-! ## State -/

/-- The page of a segment. `localFree` and `xthreadFree` are the lists that the
    encoded links make. -/
structure Page where
  blockSize : Nat
  capacity : Nat
  used : Nat
  localFree : List Nat
  xthreadFree : List Nat
  heapTag : Nat
  deriving DecidableEq, Repr

/-- `pageDirect` names a page by its segment; 0 is null. -/
structure Heap where
  id : Nat
  pageDirect : Nat → Nat

/-- What the system answers: to the `mmap` calls for segments and large blocks,
    and whether a new heap gets its memory. -/
structure Host where
  mmap : Nat → Option Nat
  heapMemory : Nat → Bool

/-- `page` has the segments by address, `word` the sizes stored in front of large blocks. -/
structure State (τ : Type) where
  regions : List Region
  mmapCalls : Nat
  page : Nat → Option Page
  word : Nat → Option Nat
  heap : τ → Option Heap
  heapCalls : Nat
  nextHeapId : Nat
  initOnce : Bool

def State.start (τ : Type) : State τ where
  regions := []
  mmapCalls := 0
  page := fun _ => none
  word := fun _ => none
  heap := fun _ => none
  heapCalls := 0
  nextHeapId := 1
  initOnce := false

variable {τ : Type}

def State.mapped (s : State τ) (a : Nat) : Bool :=
  s.regions.any (fun r => decide (r.base ≤ a ∧ a < r.base + r.size))

def State.putPage (s : State τ) (seg : Nat) (pg : Page) : State τ :=
  { s with page := Function.update s.page seg (some pg) }

/-! ## System calls -/

/-- The kernel maps whole pages in the user half of the address space, away from all that is mapped. -/
def MapFits (raw size : Nat) (regions : List Region) : Prop :=
  size ≠ 0 ∧ raw ≠ 0 ∧ osPageSize ∣ raw ∧ raw + size ≤ 2^63 ∧ ∀ r ∈ regions, r.Apart ⟨raw, size⟩

instance (raw size : Nat) (regions : List Region) : Decidable (MapFits raw size regions) :=
  inferInstanceAs (Decidable (_ ∧ _ ∧ _ ∧ _ ∧ _))

/-- The answer to an `mmap` of `size` bytes; one that does not fit is a failure. -/
def mmapAnswer (host : Host) (size : Nat) (s : State τ) : Option Nat :=
  (host.mmap s.mmapCalls).filter (fun raw => decide (MapFits raw size s.regions))

/-- `OS::segment_alloc`: two segments are mapped and all but the aligned one in them unmapped. -/
def segmentAlloc (host : Host) (s : State τ) : Option Nat × State τ :=
  match mmapAnswer host (2 * segmentSize) s with
  | none => (none, { s with mmapCalls := s.mmapCalls + 1 })
  | some raw =>
    let aligned := maskOff (raw + segmentSize - 1) (segmentSize - 1)
    (some aligned, { s with
      mmapCalls := s.mmapCalls + 1
      regions := ⟨aligned, segmentSize⟩ :: s.regions })

/-- `OS::raw_alloc`, for an alignment of at most a page. -/
def rawAlloc (host : Host) (size : Nat) (s : State τ) : Option Nat × State τ :=
  let mapped := (mapSize size).val
  match mmapAnswer host mapped s with
  | none => (none, { s with mmapCalls := s.mmapCalls + 1 })
  | some raw => (some raw, { s with
      mmapCalls := s.mmapCalls + 1
      regions := ⟨raw, mapped⟩ :: s.regions })

/-- `OS::raw_free`. `munmap` refuses an address inside a page, and nothing looks at its answer. -/
def rawFree (raw size : Nat) (s : State τ) : State τ :=
  let len := (mapSize size).val
  if raw % osPageSize ≠ 0 ∨ len = 0 then s
  else { s with
    regions := s.regions.flatMap (·.minus raw len)
    page := fun a => if raw ≤ a ∧ a < raw + len then none else s.page a
    word := fun a => if raw ≤ a ∧ a < raw + len then none else s.word a }

/-! ## Heaps -/

variable [DecidableEq τ]

def threadInit (host : Host) (t : τ) (s : State τ) : State τ :=
  if (s.heap t).isSome then s
  else if host.heapMemory s.heapCalls then
    { s with
      heap := Function.update s.heap t (some ⟨s.nextHeapId, fun _ => 0⟩)
      heapCalls := s.heapCalls + 1
      nextHeapId := (s.nextHeapId + 1) % 2^32 }
  else { s with heapCalls := s.heapCalls + 1 }

def miInit (host : Host) (t : τ) (s : State τ) : State τ :=
  if s.initOnce then s else threadInit host t { s with initOnce := true }

def setDirect (t : τ) (c seg : Nat) (s : State τ) : State τ :=
  { s with heap := Function.update s.heap t ((s.heap t).map
      (fun h => { h with pageDirect := Function.update h.pageDirect c seg })) }

/-- The page that `mi_page_alloc` sets up in a segment: every block is pushed on
    the free list, so the last one comes out first. -/
def freshPage (seg blockSize heapTag : Nat) : Page :=
  let capacity := min ((segmentSize - blockOffset) / blockSize) 65535
  { blockSize := blockSize
    capacity := capacity
    used := 0
    localFree := (List.range capacity).reverse.map (fun i => seg + blockOffset + i * blockSize)
    xthreadFree := []
    heapTag := heapTag }

def miPageAlloc (host : Host) (t : τ) (heapTag c : Nat) (s : State τ) : Option Nat × State τ :=
  match segmentAlloc host s with
  | (none, s) => (none, s)
  | (some seg, s) =>
    (some seg, setDirect t c seg (s.putPage seg (freshPage seg (miClassSize c) heapTag)))

/-! ## Allocation -/

/-- Pops a block off the page's list; a page that is full now is forgotten by the heap. -/
def popBlock (t : τ) (c seg : Nat) (s : State τ) : Option (Option Nat × State τ) :=
  match s.page seg with
  | none => none
  | some pg =>
    match pg.localFree with
    | [] => none
    | b :: rest =>
      let used := (pg.used + 1) % 2^32
      let s := s.putPage seg { pg with localFree := rest, used := used }
      some (some b, if used = pg.capacity then setDirect t c 0 s else s)

/-- A block from a new page. -/
def growAndPop (host : Host) (t : τ) (heapTag c : Nat) (s : State τ) :
    Option (Option Nat × State τ) :=
  match miPageAlloc host t heapTag c s with
  | (none, s) => some (none, s)
  | (some seg, s) => popBlock t c seg s

/-- The free blocks of a page; null has none. -/
def State.freeBlocks (s : State τ) (seg : Nat) : List Nat :=
  ((s.page seg).map (·.localFree)).getD []

/-- A block of class `c`, from the heap's page of that class or a new one. -/
def smallAlloc (host : Host) (t : τ) (c : Nat) (s : State τ) : Option (Option Nat × State τ) :=
  match s.heap t with
  | none => none
  | some h =>
    let seg := h.pageDirect c
    if seg = 0 ∨ s.freeBlocks seg = [] then growAndPop host t h.id c s
    -- `drain_remote` follows links that are still encoded
    else if ((s.page seg).map (·.xthreadFree)).getD [] ≠ [] then none
    else popBlock t c seg s

/-- A large block with the stored size `actual` in the first word of its mapping. -/
def directAlloc (host : Host) (t : τ) (actual : Nat) (s : State τ) : Option (Option Nat × State τ) :=
  match rawAlloc host (addS actual 8).val s with
  | (none, s) => some (none, s)
  | (some raw, s) =>
    let s := threadInit host t { s with word := Function.update s.word raw (some actual) }
    if (s.heap t).isSome then some (some (raw + 8), s) else none

def miMalloc (host : Host) (t : τ) (n : Nat) (s : State τ) : Option (Option Nat × State τ) :=
  let s := miInit host t s
  let n := if n = 0 then 1 else n
  if maxSmallSize < n then directAlloc host t (largeActual n).val s
  else smallAlloc host t (miClassIndex n) (threadInit host t s)

/-! ## Lookup and free -/

/-- `mi_segment_t::from_ptr`. -/
def segmentOf (p : Nat) : Nat := maskOff p (segmentSize - 1)

omit [DecidableEq τ] in
/-- The word at an address that is mapped; `user` is what the client's memory holds. -/
def State.peek (s : State τ) (user : Nat → Nat) (a : Nat) : Option Nat :=
  if s.mapped a then
    some (if (s.page a).isSome then segmentMagic else (s.word a).getD (user a))
  else none

/-- Whether `p` counts as a block of a segment. -/
def inSegment (user : Nat → Nat) (p : Nat) (s : State τ) : Option Bool :=
  if segmentOf p = 0 then some false
  else (s.peek user (segmentOf p)).map (fun w => decide (w = segmentMagic))

/-- `mi_segment_t::page_of` for a segment with its page at hand. -/
def Page.has (pg : Page) (seg p : Nat) : Bool :=
  decide (pg.blockSize ≠ 0 ∧ seg + blockOffset ≤ p ∧
    p < seg + blockOffset + pg.capacity * pg.blockSize)

def miUsableSize (user : Nat → Nat) (p : Nat) (s : State τ) : Option Nat :=
  if p = 0 then some 0
  else match inSegment user p s with
  | none => none
  | some false => s.peek user (p - 8)
  | some true => (s.page (segmentOf p)).map (fun pg =>
      if pg.has (segmentOf p) p then pg.blockSize else 0)

/-- `page_of` found the block's page: to its own list if the thread's heap has
    the page's tag, else to the remote queue. -/
def pageFree (t : τ) (p : Nat) (pg : Page) (s : State τ) : State τ :=
  let used := (pg.used + 2^32 - 1) % 2^32
  let pg := if (s.heap t).map (·.id) = some pg.heapTag then
      { pg with localFree := p :: pg.localFree, used := used }
    else { pg with xthreadFree := p :: pg.xthreadFree, used := used }
  s.putPage (segmentOf p) pg

def miFree (user : Nat → Nat) (t : τ) (p : Nat) (s : State τ) : Option (State τ) :=
  if p = 0 then some s
  else match inSegment user p s with
  | none => none
  | some false => (s.peek user (p - 8)).map (fun actual => rawFree (p - 8) (addS actual 8).val s)
  | some true => (s.page (segmentOf p)).map (fun pg =>
      if pg.has (segmentOf p) p then pageFree t p pg s else s)

/-! ## The rest of the interface -/

/-- `mi_calloc`; clearing the block changes no state that is modelled. -/
def miCalloc (host : Host) (user : Nat → Nat) (t : τ) (n size : Nat) (s : State τ) :
    Option (Option Nat × State τ) :=
  let total := n * size % 2^64
  if n ≠ 0 ∧ total / n ≠ size then some (none, s)
  else match miMalloc host t total s with
  | some (some p, s) => (miUsableSize user p s).map (fun _ => (some p, s))
  | r => r

/-- `mi_realloc`; its two branches differ in the number of bytes copied. -/
def miRealloc (host : Host) (user : Nat → Nat) (t : τ) (p n : Nat) (s : State τ) :
    Option (Option Nat × State τ) :=
  if p = 0 then miMalloc host t n s
  else if n = 0 then (miFree user t p s).map (fun s => (none, s))
  else match miUsableSize user p s with
  | none => none
  | some old =>
    if n ≤ old then some (some p, s)
    else match miMalloc host t n s with
    | some (some np, s) => (miFree user t p s).map (fun s => (some np, s))
    | r => r

/-- `mi_memalign`: the size is stored at the start of the mapping, which the
    lookup in front of the block does not find again. -/
def miMemalign (host : Host) (t : τ) (alignment n : Nat) (s : State τ) :
    Option (Option Nat × State τ) :=
  if alignment ≤ blockAlign then miMalloc host t n s
  else if alignment &&& (alignment - 1) ≠ 0 then some (none, s)
  else
    let actual := maskOff ((n + 8 + alignment - 1) % 2^64) (alignment - 1)
    match rawAlloc host ((actual + 8 + alignment) % 2^64) s with
    | (none, s) => some (none, s)
    | (some raw, s) => some (some (maskOff (raw + 8 + alignment - 1) (alignment - 1)),
        { s with word := Function.update s.word raw (some actual) })

end MyMalloc.Mimalloc
