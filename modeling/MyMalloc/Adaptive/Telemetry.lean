import MyMalloc.Adaptive.Types
import Mathlib.Data.BitVec

/- `adaptive_telemetry.cpp`: the counters and what each event adds to them.

   Every counter is a 64-bit word (`std::atomic<uint64_t>` or
   `std::atomic<int64_t>`), so adding and subtracting wrap. Feature
   extraction, which reads the counters as floating point numbers for the
   selector, is not modelled; its outcome is a parameter of the selector. -/
namespace MyMalloc.Adaptive

abbrev Counter := BitVec 64

/-- `AdaptiveStats` and the two size histograms. -/
structure Stats where
  mallocCalls : Counter := 0
  freeCalls : Counter := 0
  reallocCalls : Counter := 0
  failureCount : Counter := 0
  emptyPages : Counter := 0
  emptySpans : Counter := 0
  releasedPages : Counter := 0
  releasedSpans : Counter := 0
  releaseUnmappedBytes : Counter := 0
  modeSwitches : Counter := 0
  remoteFreeCount : Counter := 0
  sameThreadFreeCount : Counter := 0
  invalidFreeCount : Counter := 0
  doubleFreeCount : Counter := 0
  headerCorruptionCount : Counter := 0
  slowPathCount : Counter := 0
  mmapCount : Counter := 0
  munmapCount : Counter := 0
  storageAllocCount : StorageId → Counter := fun _ => 0
  storageFreeCount : StorageId → Counter := fun _ => 0
  storageRequestedBytes : StorageId → Counter := fun _ => 0
  storageUsableBytes : StorageId → Counter := fun _ => 0
  storagePoolHits : StorageId → Counter := fun _ => 0
  storagePoolMisses : StorageId → Counter := fun _ => 0
  modeAllocCount : ModeId → Counter := fun _ => 0
  modeFreeCount : ModeId → Counter := fun _ => 0
  modeLiveBytes : ModeId → Counter := fun _ => 0
  modeMappedBytes : ModeId → Counter := fun _ => 0
  liveBytes : Counter := 0
  mappedBytes : Counter := 0
  sizeHistogram : Nat → Counter := fun _ => 0
  sizeBytesHistogram : Nat → Counter := fun _ => 0

def sizeHistogramIndex (size : Nat) : Nat :=
  if size ≤ 32 then 0
  else if size ≤ 64 then 1
  else if size ≤ 128 then 2
  else if size ≤ 256 then 3
  else if size ≤ 1024 then 4
  else if size ≤ 4096 then 5
  else if size ≤ 64 * 1024 then 6
  else if size ≤ 256 * 1024 then 7
  else if size ≤ 1024 * 1024 then 8
  else 9

/-- Add to one entry of a family of counters. -/
def bump {κ : Type} [DecidableEq κ] (f : κ → Counter) (k : κ) (x : Counter) : κ → Counter :=
  Function.update f k (f k + x)

namespace Stats
variable (st : Stats)

def onMallocCall : Stats := { st with mallocCalls := st.mallocCalls + 1 }

/-- `adaptive_telemetry_on_alloc`; `mode` is `result.header->mode_id`. -/
def onAlloc (result : AllocationResult) (mode : ModeId) : Stats :=
  let usable : Counter := BitVec.ofNat 64 result.usable
  let requested : Counter := BitVec.ofNat 64 result.requested
  let bucket := sizeHistogramIndex result.requested
  { st with
    storageAllocCount := bump st.storageAllocCount result.storage 1
    storageRequestedBytes := bump st.storageRequestedBytes result.storage requested
    storageUsableBytes := bump st.storageUsableBytes result.storage usable
    storagePoolHits :=
      if result.fromCache then bump st.storagePoolHits result.storage 1 else st.storagePoolHits
    storagePoolMisses :=
      if result.fromCache then st.storagePoolMisses else bump st.storagePoolMisses result.storage 1
    mmapCount := if result.usedMmap then st.mmapCount + 1 else st.mmapCount
    slowPathCount := if result.slowPath then st.slowPathCount + 1 else st.slowPathCount
    sizeHistogram := bump st.sizeHistogram bucket 1
    sizeBytesHistogram := bump st.sizeBytesHistogram bucket requested
    liveBytes := st.liveBytes + usable
    modeAllocCount := bump st.modeAllocCount mode 1
    modeLiveBytes := bump st.modeLiveBytes mode usable }

def onAllocFailure : Stats := { st with failureCount := st.failureCount + 1 }

def onFreeCall : Stats := { st with freeCalls := st.freeCalls + 1 }

/-- `adaptive_telemetry_on_free_begin`; `token` is the freeing thread's. -/
def onFreeBegin (hdr : Header) (token : Nat) : Stats :=
  let usable : Counter := BitVec.ofNat 64 hdr.usable
  let same := hdr.ownerThread == token
  { st with
    sameThreadFreeCount := if same then st.sameThreadFreeCount + 1 else st.sameThreadFreeCount
    remoteFreeCount := if same then st.remoteFreeCount else st.remoteFreeCount + 1
    storageFreeCount := bump st.storageFreeCount hdr.storage 1
    liveBytes := st.liveBytes - usable
    modeFreeCount := bump st.modeFreeCount hdr.modeId 1
    modeLiveBytes := bump st.modeLiveBytes hdr.modeId (-usable) }

def onInvalidFree : Stats := { st with invalidFreeCount := st.invalidFreeCount + 1 }

def onRealloc : Stats := { st with reallocCalls := st.reallocCalls + 1 }

def onMapped (mode : ModeId) (bytes : Nat) : Stats :=
  { st with
    mappedBytes := st.mappedBytes + BitVec.ofNat 64 bytes
    modeMappedBytes := bump st.modeMappedBytes mode (BitVec.ofNat 64 bytes) }

def onUnmapped (mode : ModeId) (bytes : Nat) : Stats :=
  { st with
    mappedBytes := st.mappedBytes - BitVec.ofNat 64 bytes
    modeMappedBytes := bump st.modeMappedBytes mode (-BitVec.ofNat 64 bytes) }

def onEmptyCounts (storage : StorageId) (count : Nat) : Stats :=
  match storage with
  | .sizeClass => { st with emptyPages := BitVec.ofNat 64 count }
  | .span => { st with emptySpans := BitVec.ofNat 64 count }
  | .directMap => st

def onRelease (storage : StorageId) (bytes : Nat) : Stats :=
  let st := { st with releaseUnmappedBytes := st.releaseUnmappedBytes + BitVec.ofNat 64 bytes }
  match storage with
  | .sizeClass => { st with releasedPages := st.releasedPages + 1 }
  | .span => { st with releasedSpans := st.releasedSpans + 1 }
  | .directMap => st

def onMunmap : Stats := { st with munmapCount := st.munmapCount + 1 }

def onHeaderCorruption : Stats := { st with headerCorruptionCount := st.headerCorruptionCount + 1 }

def onDoubleFree : Stats := { st with doubleFreeCount := st.doubleFreeCount + 1 }

def onModeSwitch : Stats := { st with modeSwitches := st.modeSwitches + 1 }

end Stats

end MyMalloc.Adaptive
