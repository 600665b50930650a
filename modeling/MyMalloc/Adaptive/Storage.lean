import MyMalloc.Adaptive.State

/- Pool pages and direct mappings (`adaptive_services.cpp`): the sections that
   run under a pool mutex, and those that map or unmap memory.

   A locked section is one function here; it calls the smaller functions the
   source calls, in the same order, telemetry included. -/
namespace MyMalloc.Adaptive

variable {τ : Type} [DecidableEq τ] (host : Host τ)

/-! ## The kernel -/

/-- The mappings a kernel may answer with: page aligned, not null, in user space, and
apart from every mapping there is. -/
def MapFits (base size : Nat) (s : State τ) : Prop :=
  base ≠ 0 ∧ pageSize ∣ base ∧ base + size ≤ host.top ∧
    ∀ r ∈ s.mapped, base + size ≤ r.base ∨ r.base + r.size ≤ base

instance (base size : Nat) (s : State τ) : Decidable (MapFits host base size s) := by
  unfold MapFits; infer_instance

/-- `mmap`: fresh memory reads as zero. An answer that does not fit is a failure. -/
def mmap (size : Nat) (mode : ModeId) (s : State τ) : Option Nat × State τ :=
  let s₁ := { s with mmapCalls := s.mmapCalls + 1 }
  let failed := { s₁ with mmapFailures := s.mmapFailures + 1 }
  match host.mmap s.mmapCalls with
  | none => (none, failed)
  | some base =>
    if MapFits host base size s then
      (some base, { s₁ with
        mapped := ⟨base, size, mode⟩ :: s.mapped
        hdr := fun a => if base ≤ a ∧ a < base + size then zeroHeader else s.hdr a
        mem := fill base size (fun _ => 0) s.mem })
    else (none, failed)

def munmap (base : Nat) (s : State τ) : State τ :=
  { s with mapped := s.mapped.filter (·.base ≠ base) }

/-! ## Pool pages -/

/-- The header `create_pool_page` writes into a free block. -/
def blankHeader (page : Nat) (p : Page) : Header where
  magic := 0
  storage := p.storage
  modeId := p.modeId
  flags := ⟨false, true, false⟩
  configVersion := p.configVersion
  requested := 0
  usable := p.blockUsable
  mappedSize := p.mappedSize
  regionBase := page
  ownerPage := page
  ownerThread := 0
  allocEpoch := 0
  debugCookie := 0

/-- Block `i` of a page; `first_block` is `align_up(sizeof(AdaptivePage), 16)`, which is
`sizeof(AdaptivePage)`. -/
def blockAt (page : Nat) (p : Page) (i : Nat) : Nat := page + sizeofPage + i * p.blockStride

/-- Link a block into its page's free list. -/
def freePush (page hdr : Nat) (s : State τ) : State τ :=
  { s with
    prev := Function.update s.prev hdr 0
    next := Function.update s.next hdr (s.head (.free page))
    head := Function.update s.head (.free page) hdr }

/-- The loop of `create_pool_page` over the first `n` blocks. -/
def carve (page : Nat) (p : Page) : Nat → State τ → State τ
  | 0, s => s
  | n + 1, s =>
    let s := carve page p n s
    let hdr := blockAt page p n
    freePush page hdr { s with hdr := Function.update s.hdr hdr (blankHeader page p) }

/-- `create_pool_page` once stride, first block and capacity are computed. -/
def mapPoolPage (geometry : Option (Nat × Nat × Nat)) (mode : ModeId) (storage : StorageId)
    (cls usable mappedSize : Nat) (s : State τ) : Option Nat × State τ :=
  match geometry with
  | none => (none, s)
  | some (stride, _, capacity) =>
    match mmap host mappedSize mode s with
    | (none, s) => (none, s)
    | (some region, s) =>
      let s := registerRegion region mappedSize s
      let s := { s with stats := s.stats.onMapped mode mappedSize }
      let p : Page := ⟨storage, mode, host.cfg.version, cls % 2^16, usable, stride, mappedSize, capacity⟩
      let s := { s with
        page := Function.update s.page region p
        liveCount := Function.update s.liveCount region 0
        head := Function.update s.head (.free region) 0 }
      (some region, carve region p capacity s)

def createPoolPage (mode : ModeId) (storage : StorageId) (cls usable mappedSize : Nat)
    (s : State τ) : Option Nat × State τ :=
  mapPoolPage host (poolGeometry usable mappedSize).val mode storage cls usable mappedSize s

def countEmpty (pages : List Nat) (s : State τ) : Nat :=
  pages.countP fun page => s.liveCount page == 0

/-- `release_page_locked`. The page record goes with the mapping. -/
def releasePage (storage : StorageId) (cls : Nat) (target : Nat) (s : State τ) : State τ :=
  if s.liveCount target ≠ 0 then s
  else
    let p := s.page target
    let s := { s with
      pools := Function.update s.pools storage
        (Function.update (s.pools storage) cls ((s.pools storage cls).erase target))
      stats := (s.stats.onRelease p.storage p.mappedSize).onUnmapped p.modeId p.mappedSize }
    let s := munmap target (unregisterRegion target p.mappedSize s)
    { s with
      head := Function.update s.head (.free target) 0
      stats := s.stats.onMunmap }

def releaseTargetEmpty (storage : StorageId) (cls : Nat) (target : Nat) (s : State τ) :
    Bool × State τ :=
  if s.liveCount target ≠ 0 ∨ target ∉ s.pools storage cls then (false, s)
  else
    let s := releasePage storage cls target s
    (true, { s with stats := s.stats.onEmptyCounts storage (countEmpty (s.pools storage cls) s) })

/-- The loop of `release_empty_locked`, which runs while more than `keep` pages are empty. -/
def releaseLoop (storage : StorageId) (cls : Nat) : Nat → State τ → State τ
  | 0, s => s
  | n + 1, s =>
    match (s.pools storage cls).find? fun page => s.liveCount page == 0 with
    | none => s
    | some page => releaseLoop storage cls n (releasePage storage cls page s)

def releaseEmpty (storage : StorageId) (cls keep : Nat) (s : State τ) : State τ :=
  let empty := countEmpty (s.pools storage cls) s
  releaseLoop storage cls (empty - keep)
    { s with stats := s.stats.onEmptyCounts storage empty }

/-- The fullest page with a free block, the first of several. -/
def fullest (s : State τ) : Option Nat → List Nat → Option Nat
  | selected, [] => selected
  | selected, page :: pages =>
    if s.head (.free page) = 0 then fullest s selected pages
    else match selected with
      | none => fullest s (some page) pages
      | some best =>
        fullest s (if s.liveCount best < s.liveCount page then some page else some best) pages

def selectPoolPage (pages : List Nat) (req : AllocationRequest) (s : State τ) : Option Nat :=
  if !req.preferOccupancyPacking then pages.find? fun page => s.head (.free page) != 0
  else fullest s none pages

/-- One turn of `refill_tcache_locked`: the first free block moves to the bin. -/
def refillOne (k : BinId τ) (page : Nat) (s : State τ) : State τ :=
  let hdr := s.head (.free page)
  binPush k hdr { s with
    head := Function.update s.head (.free page) (s.next hdr)
    hdr := Function.update s.hdr hdr { s.hdr hdr with ownerThread := 0 }
    liveCount := Function.update s.liveCount page ((s.liveCount page + 1) % 2^32) }

def refillLoop (k : BinId τ) (page : Nat) (limit : Nat) : Nat → State τ → State τ
  | 0, s => s
  | n + 1, s =>
    if s.head (.free page) = 0 ∨ limit ≤ s.binCount k then s
    else refillLoop k page limit n (refillOne k page s)

def refillTcache (k : BinId τ) (page : Nat) (req : AllocationRequest) (s : State τ) : State τ :=
  if !req.preferThreadCache ∨ req.batchSize ≤ 1 then s
  else
    let limit := tcacheLimitFor k.storage req.tcacheSmallLimit req.tcacheMediumLimit
    if ¬ validClass k.storage k.cls ∨ limit = 0 then s
    else refillLoop k page limit (req.batchSize - 1) s

/-- What `finalize_pooled_header` writes. -/
def pooledHeader (req : AllocationRequest) (storage : StorageId) (usable mappedSize : Nat)
    (page : Nat) (version epoch : Nat) : Header where
  magic := adaptiveMagic
  storage := storage
  modeId := req.mode
  flags := ⟨false, true, false⟩
  configVersion := version
  requested := req.size
  usable := usable
  mappedSize := mappedSize
  regionBase := page
  ownerPage := page
  ownerThread := req.threadId
  allocEpoch := epoch
  debugCookie := 0

def finalizePooledHeader (hdr : Nat) (req : AllocationRequest) (storage : StorageId)
    (usable mappedSize : Nat) (page : Nat) (s : State τ) : State τ :=
  let epoch := (s.epoch + 1) % 2^64
  { s with
    epoch := epoch
    next := Function.update s.next hdr 0
    prev := Function.update s.prev hdr 0
    hdr := Function.update s.hdr hdr
      (pooledHeader req storage usable mappedSize page (s.page page).configVersion epoch) }

/-- Take the first block of a page's free list into the hands of thread `t`. -/
def freePop (t : τ) (page : Nat) (s : State τ) : State τ :=
  let hdr := s.head (.free page)
  { s with
    head := Function.update s.head (.free page) (s.next hdr)
    liveCount := Function.update s.liveCount page ((s.liveCount page + 1) % 2^32)
    heldBy := Function.update s.heldBy hdr (some t) }

/-- What the locked section of an allocation returns: the block, the size of the page it
is in, whether the page is new, and how much was mapped for it. -/
structure Taken where
  hdr : Nat
  mappedSize : Nat
  created : Bool
  newlyMapped : Nat

/-- Once a page with a free block is chosen: pop, refill, finalize. -/
def takeFrom (t : τ) (req : AllocationRequest) (storage : StorageId) (cls usable : Nat)
    (page : Nat) (created : Bool) (newlyMapped : Nat) (s : State τ) : Option Taken × State τ :=
  let hdr := s.head (.free page)
  let s := freePop t page s
  let s := refillTcache ⟨t, storage, cls⟩ page req s
  let mappedSize := (s.page page).mappedSize
  (some ⟨hdr, mappedSize, created, newlyMapped⟩,
    finalizePooledHeader hdr req storage usable mappedSize page s)

/-- The locked section of `allocate_size_class` and `allocate_span`. -/
def poolTake (t : τ) (req : AllocationRequest) (storage : StorageId)
    (cls usable mappedSize : Nat) (s : State τ) : Option Taken × State τ :=
  match selectPoolPage (s.pools storage cls) req s with
  | some page => takeFrom t req storage cls usable page false 0 s
  | none =>
    match createPoolPage host req.mode storage cls usable mappedSize s with
    | (none, s) => (none, s)
    | (some page, s) =>
      takeFrom t req storage cls usable page true mappedSize { s with
        pools := Function.update s.pools storage
          (Function.update (s.pools storage) cls (page :: s.pools storage cls)) }

/-- The first half of `deallocate`'s locked section: the block goes back to its page. -/
def centralPush (hdr page : Nat) (s : State τ) : State τ :=
  freePush page hdr { s with
    hdr := Function.update s.hdr hdr { s.hdr hdr with magic := 0, requested := 0, ownerThread := 0 }
    liveCount := Function.update s.liveCount page
      (if 0 < s.liveCount page then s.liveCount page - 1 else s.liveCount page)
    heldBy := Function.update s.heldBy hdr none }

/-- The locked section of `deallocate`. -/
def centralFree (hdr page : Nat) (storage : StorageId) (cls : Nat) (action : ReleaseAction)
    (emptyKeepLimit : Nat) (s : State τ) : State τ :=
  let s := centralPush hdr page s
  let drop : Bool := action == .purge || action == .unmap
  match (if drop then releaseTargetEmpty storage cls page s else (false, s)) with
  | (true, s) => s
  | (false, s) => releaseEmpty storage cls (if drop then 0 else emptyKeepLimit) s

/-! ## Direct mappings -/

/-- What `allocate_direct_map` writes into the header of a fresh mapping. -/
def directHeader (req : AllocationRequest) (usable mappedSize : Nat) (region : Nat)
    (version epoch : Nat) : Header where
  magic := adaptiveMagic
  storage := .directMap
  modeId := req.mode
  flags := ⟨decide (16 < req.alignment), false, req.debugRedzone⟩
  configVersion := version
  requested := req.size
  usable := usable
  mappedSize := mappedSize
  regionBase := region
  ownerPage := 0
  ownerThread := req.threadId
  allocEpoch := epoch
  debugCookie := 0

/-- Map, register, write header and guards: everything `allocate_direct_map` does to a
new region before the registry knows the block. -/
def mapDirect (t : τ) (req : AllocationRequest) (usable mappedSize : Nat) (s : State τ) :
    Option Nat × State τ :=
  match mmap host mappedSize req.mode s with
  | (none, s) => (none, s)
  | (some region, s) =>
    let s := registerRegion region mappedSize s
    let hdr := (directUser region req.alignment).val - hdrOffset
    let epoch := (s.epoch + 1) % 2^64
    let s := { s with
      epoch := epoch
      next := Function.update s.next hdr 0
      prev := Function.update s.prev hdr 0
      hdr := Function.update s.hdr hdr
        (directHeader req usable mappedSize region host.cfg.version epoch)
      heldBy := Function.update s.heldBy hdr (some t) }
    (some hdr, writeDebugGuards hdr s)

/-- Reuse a cached extent. -/
def reuseExtent (hdr : Nat) (req : AllocationRequest) (usable : Nat) (s : State τ) : State τ :=
  let epoch := (s.epoch + 1) % 2^64
  { s with
    epoch := epoch
    next := Function.update s.next hdr 0
    prev := Function.update s.prev hdr 0
    hdr := Function.update s.hdr hdr { s.hdr hdr with
      magic := adaptiveMagic, storage := .directMap, modeId := req.mode,
      flags := ⟨false, false, false⟩, configVersion := host.cfg.version, requested := req.size,
      usable := usable, ownerPage := 0, ownerThread := req.threadId, allocEpoch := epoch,
      debugCookie := 0 } }

/-- Unregister and unmap the mapping of a block in the hands of a call. -/
def unmapDirect (hdr base : Nat) (mappedSize : Nat) (s : State τ) : State τ :=
  let s := munmap base (unregisterRegion base mappedSize s)
  { s with heldBy := Function.update s.heldBy hdr none }

/-- Quarantine keeps the mapping and clears the magic word. -/
def enterQuarantine (hdr : Nat) (s : State τ) : State τ :=
  { s with
    hdr := Function.update s.hdr hdr { s.hdr hdr with magic := 0 }
    heldBy := Function.update s.heldBy hdr none
    quarantine := Function.update s.quarantine hdr true }

end MyMalloc.Adaptive
