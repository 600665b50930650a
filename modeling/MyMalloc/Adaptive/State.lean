import MyMalloc.Adaptive.Layout
import MyMalloc.Adaptive.Modes
import MyMalloc.Adaptive.Telemetry
import MyMalloc.Lib.Links
import MyMalloc.Lib.ProbeTable

/- The shared state of the allocator and its atomic operations
   (`adaptive_services.cpp`): the block lists, the page table, the thread
   caches, the remote queues, the registry.

   Memory is typed. `hdr` is the `AdaptiveHeader` at an address, `page` the
   `AdaptivePage`, `mem` the user bytes; that a user byte is never a byte of a
   header or of a page record is a theorem about the layout, not an assumption
   about callers of these functions. The link fields `registry_next` and
   `registry_prev` are `next` and `prev`; the head of every list threaded
   through them is `head`.

   Four fields are not in the source. `heldBy` is the local variable in which
   a call in flight keeps a block that is in no list, `uncounted` the local
   `current` of a drain between caching the block and counting it down,
   `quarantine` the mappings that are kept for good, and `ledger` what the
   callers of the allocator own. -/
namespace MyMalloc.Adaptive

/-- A pointer the allocator handed out, with the size and alignment asked for. -/
structure Grant where
  ptr : Nat
  size : Nat
  alignment : Nat
  deriving DecidableEq, Repr

/-- A mapping, and the mode it was made under. -/
structure Region where
  base : Nat
  size : Nat
  mode : ModeId
  deriving DecidableEq, Repr

/-- One `TCacheBin`: whose cache it is in and what it is for. -/
structure BinId (τ : Type) where
  thread : τ
  storage : StorageId
  cls : Nat
  deriving DecidableEq

/-- The lists that share the link field. -/
inductive Place (τ : Type) where
  | free (page : Nat)
  | bin (k : BinId τ)
  | bucket (i : Nat)
  | draining (t : τ)
  | registry
  | extents
  deriving DecidableEq

/-- `g_active_mode` and what surrounds it; `windowBase` is the selector's last sample. -/
structure Runtime where
  active : ModeId
  previous : ModeId
  states : ModeId → ModeState
  selectorCounter : Nat
  cooldownUntil : Nat
  windowBase : Stats

structure State (τ : Type) where
  hdr : Nat → Header
  next : Nat → Nat
  prev : Nat → Nat
  head : Place τ → Nat
  page : Nat → Page
  liveCount : Nat → Nat
  pools : StorageId → Nat → List Nat
  binCount : BinId τ → Nat
  table : Nat → Nat
  remotePending : Nat
  bucketOwner : Nat → Nat
  extentCount : Nat
  mapped : List Region
  mmapCalls : Nat
  mmapFailures : Nat
  mem : Nat → UInt8
  epoch : Nat
  stats : Stats
  rt : Runtime
  heldBy : Nat → Option τ
  uncounted : Nat → Bool
  quarantine : Nat → Bool
  ledger : Nat → Option Grant

/-- What lies outside the allocator: the configuration, the threads' tokens
(`pthread_self`), the kernel, and the selector's floating point judgement. `mmap n`
is the kernel's answer to the `n`-th request; user space ends at `top`. -/
structure Host (τ : Type) where
  cfg : RuntimeConfig
  token : τ → Nat
  token_pos : ∀ t, 0 < token t
  mmap : Nat → Option Nat
  top : Nat
  top_le : top ≤ 2^63
  select : Stats → Stats → ModeId → ModeId × Bool

theorem Host.low_top : 2^40 ≤ 2^63 := Nat.pow_le_pow_right (by decide) (by decide)

variable {τ : Type} [DecidableEq τ]

def zeroHeader : Header :=
  ⟨0, .sizeClass, .balanced, ⟨false, false, false⟩, 0, 0, 0, 0, 0, 0, 0, 0, 0⟩

def userFromHeader (hdr : Nat) : Nat := hdr + hdrOffset

/-! ## The page table -/

def pageKey (addr : Nat) : Nat := maskOff addr 4095

def pageTableIndex (page : Nat) : Nat := (page >>> 12) &&& (pageTableSize - 1)

/-- The slot of probe `i`. -/
def pageSlot (page i : Nat) : Nat := (pageTableIndex page + i) &&& (pageTableSize - 1)

/-- The pages of a region, in the order the registration loop visits them. -/
def regionPages (base size : Nat) : List Nat :=
  let first := pageKey base
  (List.range ((pageKey (base + size - 1) - first) / 4096 + 1)).map fun i => first + 4096 * i

def registerRegion (base size : Nat) (s : State τ) : State τ :=
  if base = 0 ∨ size = 0 then s
  else { s with
    table := (regionPages base size).foldl (probeInsert pageSlot pageTableProbe 0 pageTombstone) s.table }

def unregisterRegion (base size : Nat) (s : State τ) : State τ :=
  if base = 0 ∨ size = 0 then s
  else { s with
    table := (regionPages base size).foldl (probeErase pageSlot pageTableProbe 0 pageTombstone) s.table }

def pageMaybeOwned (ptr : Nat) (s : State τ) : Bool :=
  decide (ptr ≠ 0) && probeFind pageSlot pageTableProbe 0 s.table (pageKey ptr)

/-- `header_plausible` without the tests a typed header always passes (storage and mode ids). -/
def headerPlausible (hdr user : Nat) (s : State τ) : Bool :=
  let h := s.hdr hdr
  if hdr = 0 ∨ h.magic ≠ adaptiveMagic then false
  else if userFromHeader hdr ≠ user then false
  else if h.usable < h.requested then false
  else if h.flags.pooled then decide (h.ownerPage ≠ 0) && decide (h.regionBase = h.ownerPage)
  else decide (h.regionBase ≠ 0) && decide (hdrOffset ≤ h.mappedSize)

/-! ## Debug guards -/

def debugCookieFor (hdr : Nat) (h : Header) : Nat :=
  debugCanary ^^^ hdr ^^^ (h.requested * 0x9E3779B1 % 2^64)

def canaryByte (i : Nat) : UInt8 := UInt8.ofNat ((debugCanary >>> ((i % 8) * 8)) &&& 0xFF)

/-- Bytes `base .. base + n` overwritten by `f`. -/
def fill (base n : Nat) (f : Nat → UInt8) (mem : Nat → UInt8) : Nat → UInt8 :=
  fun a => if base ≤ a ∧ a < base + n then f (a - base) else mem a

def writeDebugGuards (hdr : Nat) (s : State τ) : State τ :=
  let h := s.hdr hdr
  if h.flags.redzone then
    { s with
      hdr := Function.update s.hdr hdr { h with debugCookie := debugCookieFor hdr h }
      mem := fill (userFromHeader hdr + h.usable) debugRedzoneSize canaryByte s.mem }
  else s

def validateDebugGuards (hdr : Nat) (s : State τ) : Bool :=
  let h := s.hdr hdr
  if !h.flags.redzone then true
  else if h.debugCookie ≠ debugCookieFor hdr h then false
  else (List.range debugRedzoneSize).all fun i =>
    s.mem (userFromHeader hdr + h.usable + i) == canaryByte i

def poison (hdr : Nat) (s : State τ) : State τ :=
  { s with mem := fill (userFromHeader hdr) (s.hdr hdr).usable (fun _ => 0xDD) s.mem }

/-- `memcpy`; source and destination are different blocks. -/
def copyBytes (dst src n : Nat) (s : State τ) : State τ :=
  { s with mem := fill dst n (fun i => s.mem (src + i)) s.mem }

/-! ## The registry of live blocks -/

def registryInsert (hdr : Nat) (s : State τ) : State τ :=
  let old := s.head .registry
  let prev := Function.update s.prev hdr 0
  { s with
    next := Function.update s.next hdr old
    prev := if old = 0 then prev else Function.update prev old hdr
    head := Function.update s.head .registry hdr
    heldBy := Function.update s.heldBy hdr none }

def registryRemove (t : τ) (hdr : Nat) (s : State τ) : State τ :=
  { s with
    next := unlinkNext 0 s.next s.prev hdr
    prev := unlinkPrev 0 s.next s.prev hdr
    head := Function.update s.head .registry (unlinkHead 0 s.next s.prev (s.head .registry) hdr)
    heldBy := Function.update s.heldBy hdr (some t) }

/-! ## Thread caches -/

/-- The classes `pool_head_for`, `pool_mutex_for` and `tcache_bin_for` know. -/
def validClass (storage : StorageId) (cls : Nat) : Prop :=
  match storage with
  | .sizeClass => cls < smallClassCount
  | .span => cls < mediumClassCount
  | .directMap => False

instance (storage : StorageId) (cls : Nat) : Decidable (validClass storage cls) := by
  unfold validClass; cases storage <;> infer_instance

def tcacheLimitFor (storage : StorageId) (smallLimit mediumLimit : Nat) : Nat :=
  let limit := match storage with
    | .sizeClass => smallLimit
    | .span => mediumLimit
    | .directMap => 0
  if 2^16 - 1 < limit then 2^16 - 1 else limit

/-- Link a block into a bin. -/
def binPush (k : BinId τ) (hdr : Nat) (s : State τ) : State τ :=
  { s with
    prev := Function.update s.prev hdr 0
    next := Function.update s.next hdr (s.head (.bin k))
    head := Function.update s.head (.bin k) hdr
    binCount := Function.update s.binCount k ((s.binCount k + 1) % 2^16) }

def pushTcache (t : τ) (hdr : Nat) (smallLimit mediumLimit : Nat) (s : State τ) : Bool × State τ :=
  let h := s.hdr hdr
  if hdr = 0 ∨ !h.flags.pooled ∨ h.ownerPage = 0 then (false, s)
  else
  let k : BinId τ := ⟨t, (s.page h.ownerPage).storage, (s.page h.ownerPage).classIndex⟩
  if ¬ validClass k.storage k.cls ∨
      tcacheLimitFor k.storage smallLimit mediumLimit ≤ s.binCount k then (false, s)
  else (true, binPush k hdr { s with
    hdr := Function.update s.hdr hdr { h with magic := 0, requested := 0, ownerThread := 0 }
    heldBy := Function.update s.heldBy hdr none })

def popTcache (t : τ) (storage : StorageId) (cls : Nat) (s : State τ) : Nat × State τ :=
  let k : BinId τ := ⟨t, storage, cls⟩
  let hdr := s.head (.bin k)
  if ¬ validClass storage cls ∨ hdr = 0 then (0, s)
  else (hdr, { s with
    head := Function.update s.head (.bin k) (s.next hdr)
    binCount := Function.update s.binCount k ((s.binCount k + 2^16 - 1) % 2^16)
    next := Function.update s.next hdr 0
    prev := Function.update s.prev hdr 0
    heldBy := Function.update s.heldBy hdr (some t) })

/-! ## Remote frees -/

def remoteBucketIndex (ownerThread : Nat) : Nat :=
  (ownerThread ^^^ (ownerThread >>> 17) ^^^ (ownerThread >>> 33)) % remoteQueueBuckets

/-- The bucket of probe `i`. -/
def probeBucket (ownerThread i : Nat) : Nat :=
  (remoteBucketIndex ownerThread + i) % remoteQueueBuckets

/-- One locked section of `enqueue_remote_free`: try bucket `i`. -/
def enqueueProbe (hdr : Nat) (i : Nat) (s : State τ) : Bool × State τ :=
  let h := s.hdr hdr
  if s.bucketOwner i = 0 ∨ s.bucketOwner i = h.ownerThread then
    (true, { s with
      bucketOwner := Function.update s.bucketOwner i h.ownerThread
      hdr := Function.update s.hdr hdr { h with magic := 0, requested := 0 }
      prev := Function.update s.prev hdr 0
      next := Function.update s.next hdr (s.head (.bucket i))
      head := Function.update s.head (.bucket i) hdr
      remotePending := (s.remotePending + 1) % 2^64
      heldBy := Function.update s.heldBy hdr none })
  else (false, s)

/-- The first locked section of a drain: take the whole list of bucket `i`. -/
def spliceBucket (t : τ) (i ownerThread : Nat) (s : State τ) : Nat × State τ :=
  let list := s.head (.bucket i)
  if s.bucketOwner i ≠ ownerThread ∨ list = 0 then (0, s)
  else (list, { s with
    head := Function.update (Function.update s.head (.draining t) list) (.bucket i) 0 })

/-- One turn of the drain loop: the first block goes to the thread cache, or stays.
The answer is the rest of the list, or `none` if the cache refused the block. -/
def drainPush (t : τ) (current : Nat) (smallLimit mediumLimit : Nat) (s : State τ) :
    Option Nat × State τ :=
  let next := s.next current
  let s₁ := { s with next := Function.update s.next current 0 }
  let (pushed, s₂) := pushTcache t current smallLimit mediumLimit s₁
  if pushed then (some next, { s₂ with
    head := Function.update s₂.head (.draining t) next
    uncounted := Function.update s₂.uncounted current true })
  else (none, { s₂ with next := Function.update s₂.next current next })

def fetchSubPending (current : Nat) (s : State τ) : State τ :=
  { s with
    remotePending := (s.remotePending + 2^64 - 1) % 2^64
    uncounted := Function.update s.uncounted current false }

/-- The last locked section of a drain: what is left goes back in front of bucket `i`. -/
def requeue (t : τ) (i : Nat) (s : State τ) : State τ :=
  let list := s.head (.draining t)
  let tail := lastFrom 0 s.next (2^64) list
  { s with
    next := Function.update s.next tail (s.head (.bucket i))
    head := Function.update (Function.update s.head (.bucket i) list) (.draining t) 0 }

/-! ## The large-extent cache -/

/-- First fit among at most `fuel` cached extents, with the node before it. -/
def findExtent (needed : Nat) (s : State τ) : Nat → Nat → Nat → Option (Nat × Nat)
  | 0, _, _ => none
  | fuel + 1, prev, hdr =>
    if hdr = 0 then none
    else if needed ≤ (s.hdr hdr).mappedSize ∧ (s.hdr hdr).mappedSize ≤ needed * 2 then some (prev, hdr)
    else findExtent needed s fuel hdr (s.next hdr)

def popLargeExtentCache (t : τ) (needed : Nat) (s : State τ) : Nat × State τ :=
  if needed = 0 ∨ largeExtentCacheMax < needed then (0, s)
  else match findExtent needed s (largeExtentCacheLimit + 1) 0 (s.head .extents) with
    | none => (0, s)
    | some (prev, hdr) =>
      let next := s.next hdr
      (hdr, { s with
        next := Function.update (if prev = 0 then s.next else Function.update s.next prev next) hdr 0
        head := if prev = 0 then Function.update s.head .extents next else s.head
        extentCount := s.extentCount - 1
        prev := Function.update s.prev hdr 0
        heldBy := Function.update s.heldBy hdr (some t) })

def pushLargeExtentCache (hdr : Nat) (s : State τ) : Bool × State τ :=
  let h := s.hdr hdr
  if hdr = 0 ∨ h.storage ≠ .directMap then (false, s)
  else if h.mappedSize = 0 ∨ largeExtentCacheMax < h.mappedSize then (false, s)
  else if largeExtentCacheLimit ≤ s.extentCount then (false, s)
  else (true, { s with
    hdr := Function.update s.hdr hdr { h with magic := 0, requested := 0, ownerThread := 0 }
    prev := Function.update s.prev hdr 0
    next := Function.update s.next hdr (s.head .extents)
    head := Function.update s.head .extents hdr
    extentCount := s.extentCount + 1
    heldBy := Function.update s.heldBy hdr none })

end MyMalloc.Adaptive
