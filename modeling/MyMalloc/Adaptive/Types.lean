import MyMalloc.Lib.Word

/- The adaptive allocator's shared types (`adaptive_types.h`,
   `adaptive_services.h`, `adaptive_mode.h`, `adaptive_runtime.h`) and the
   constants of `adaptive_services.cpp`.

   Addresses and sizes are natural numbers; 0 is the null pointer. An
   `AdaptiveHeader` is kept without its two list links: `registry_next` and
   `registry_prev` live in link maps of their own (`State.next`,
   `State.prev`), because four different lists share them. An `AdaptivePage`
   is kept without `live_count`, `free_list` and `next`, the fields that
   change after the page is created. -/
namespace MyMalloc.Adaptive

/-- The base of the cost model's powers of ten. -/
instance atLeastTwo_ten : Nat.AtLeastTwo (nat_lit 10) := ⟨by decide⟩

inductive ModeId where
  | balanced
  | throughputCache
  | deterministicLatency
  | compactRSS
  | fragmentationStable
  | crossThreadMessage
  | largeObjectStreaming
  | hardenedDebug
  deriving DecidableEq, Repr

/-- The mode of a raw byte; `none` is a byte `adaptive_valid_mode_id` refuses. -/
def ModeId.ofByte : Nat → Option ModeId
  | 0 => some .balanced
  | 1 => some .throughputCache
  | 2 => some .deterministicLatency
  | 3 => some .compactRSS
  | 4 => some .fragmentationStable
  | 5 => some .crossThreadMessage
  | 6 => some .largeObjectStreaming
  | 7 => some .hardenedDebug
  | _ => none

inductive StorageId where
  | sizeClass
  | span
  | directMap
  deriving DecidableEq, Repr

inductive StoragePreference where
  | auto
  | sizeClass
  | span
  | extent
  | directMap
  deriving DecidableEq, Repr

inductive ReleaseAction where
  | cache
  | returnToCentralPool
  | purge
  | unmap
  | quarantine
  deriving DecidableEq, Repr

inductive SelectorKind where
  | rule
  | fixed
  | manual
  | model
  deriving DecidableEq, Repr

inductive ModeState where
  | inactive
  | active
  | retired
  deriving DecidableEq, Repr

/-! ## Constants -/

def adaptiveMagic : Nat := 0xADA9B10C
def hdrOffset : Nat := 112
/-- `sizeof(AdaptivePage)`. -/
def sizeofPage : Nat := 64
def smallMax : Nat := 1024
def mediumMax : Nat := 64 * 1024
def smallClassStep : Nat := 16
def mediumClassStep : Nat := 1024
def smallClassCount : Nat := smallMax / smallClassStep
def mediumClassCount : Nat := (mediumMax - smallMax) / mediumClassStep
def remoteQueueBuckets : Nat := 256
def remoteDrainLimit : Nat := 64
def largeExtentCacheLimit : Nat := 8
def largeExtentCacheMax : Nat := 2 * 1024 * 1024
def debugRedzoneSize : Nat := 16
def debugCanary : Nat := 0xA6D4BEEF51E7CAFE
def pageTableSize : Nat := 262144
def pageTableProbe : Nat := 16
def pageTombstone : Nat := 2^64 - 1
def pageSize : Nat := 4096

/-! ## Records -/

/-- The three bits of `AdaptiveHeader::flags`. -/
structure Flags where
  memalign : Bool
  pooled : Bool
  redzone : Bool
  deriving DecidableEq, Repr

structure Header where
  magic : Nat
  storage : StorageId
  modeId : ModeId
  flags : Flags
  configVersion : Nat
  requested : Nat
  usable : Nat
  mappedSize : Nat
  regionBase : Nat
  ownerPage : Nat
  ownerThread : Nat
  allocEpoch : Nat
  debugCookie : Nat
  deriving DecidableEq, Repr

structure Page where
  storage : StorageId
  modeId : ModeId
  configVersion : Nat
  classIndex : Nat
  blockUsable : Nat
  blockStride : Nat
  mappedSize : Nat
  capacity : Nat
  deriving DecidableEq, Repr

structure AllocationRequest where
  size : Nat
  alignment : Nat
  mode : ModeId
  threadId : Nat
  zeroFill : Bool
  preferThreadCache : Bool
  preferDirectMap : Bool
  preferReuse : Bool
  preferLowRss : Bool
  debugRedzone : Bool
  debugQuarantine : Bool
  drainRemoteQueue : Bool
  preferOccupancyPacking : Bool
  batchSize : Nat
  emptyKeepLimit : Nat
  tcacheSmallLimit : Nat
  tcacheMediumLimit : Nat
  directMapThreshold : Nat
  deriving DecidableEq, Repr

structure AllocationResult where
  userPtr : Nat
  header : Nat
  storage : StorageId
  requested : Nat
  usable : Nat
  mappedSize : Nat
  newlyMappedSize : Nat
  fromCache : Bool
  usedMmap : Bool
  slowPath : Bool
  deriving DecidableEq, Repr

/-- `fail_result`: a result without a pointer. -/
def failResult : AllocationResult :=
  ⟨0, 0, .sizeClass, 0, 0, 0, 0, false, false, false⟩

structure ReleaseDecision where
  action : ReleaseAction
  poison : Bool
  checkRedzone : Bool
  quarantine : Bool
  useRemoteQueue : Bool
  emptyKeepLimit : Nat
  tcacheSmallLimit : Nat
  tcacheMediumLimit : Nat
  deriving DecidableEq, Repr

structure AllocationPlan where
  storage : StoragePreference
  useThreadCache : Bool
  preferReuse : Bool
  preferLowRss : Bool
  debugRedzone : Bool
  debugQuarantine : Bool
  preferDirectMap : Bool
  drainRemoteQueue : Bool
  preferOccupancyPacking : Bool
  batchSize : Nat
  emptyKeepLimit : Nat
  tcacheSmallLimit : Nat
  tcacheMediumLimit : Nat
  directMapThreshold : Nat
  deriving DecidableEq, Repr

/-- `AdaptiveRuntimeConfig` with the ranges `init_once` clamps it to. -/
structure RuntimeConfig where
  version : Nat
  smallPageSize : Nat
  mediumSpanSize : Nat
  emptyCacheLimit : Nat
  configuredMode : ModeId
  selector : SelectorKind
  modeWindow : Nat
  modeCooldown : Nat
  small_page : pageSize ∣ smallPageSize
  small_range : 16 * 1024 ≤ smallPageSize ∧ smallPageSize ≤ 1024 * 1024
  medium_page : pageSize ∣ mediumSpanSize
  medium_range : 64 * 1024 ≤ mediumSpanSize ∧ mediumSpanSize ≤ 4 * 1024 * 1024
  keep_range : emptyCacheLimit ≤ 128
  window_range : 64 ≤ modeWindow ∧ modeWindow ≤ 2^20
  cooldown_range : modeCooldown ≤ 1024

end MyMalloc.Adaptive
