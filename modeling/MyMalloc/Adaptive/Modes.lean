import MyMalloc.Adaptive.Types

/- The mode policies of `adaptive_modes.cpp`: for each of the eight modes, how
   an allocation is planned and what happens to a freed block. A policy never
   touches memory; it reads the request, the header of the freed block, and the
   configured number of empty pages to keep. -/
namespace MyMalloc.Adaptive

variable (cfg : RuntimeConfig)

def configuredEmptyKeep : Nat := cfg.emptyCacheLimit

def makePlan (storage : StoragePreference)
    (threadCache reuse lowRss redzone quarantine direct drainRemote occupancyPack : Bool)
    (batch keep tcacheSmall tcacheMedium directThreshold : Nat) : AllocationPlan :=
  ⟨storage, threadCache, reuse, lowRss, redzone, quarantine, direct, drainRemote, occupancyPack,
    batch, keep, tcacheSmall, tcacheMedium, directThreshold⟩

def makeRelease (action : ReleaseAction) (poison redzone quarantine remoteQueue : Bool)
    (keep tcacheSmall tcacheMedium : Nat) : ReleaseDecision :=
  ⟨action, poison, redzone, quarantine, remoteQueue, keep, tcacheSmall, tcacheMedium⟩

def balancedAllocate (_size alignment : Nat) : AllocationPlan :=
  makePlan (if 16 < alignment then .directMap else .auto)
    false true false false false false false false 16 (configuredEmptyKeep cfg) 0 0 (64 * 1024)

def balancedFree (_hdr : Header) : ReleaseDecision :=
  makeRelease .returnToCentralPool false false false false (configuredEmptyKeep cfg) 0 0

def throughputAllocate (size alignment : Nat) : AllocationPlan :=
  let storage : StoragePreference :=
    if 16 < alignment then .directMap
    else if size ≤ 1024 then .sizeClass
    else if size ≤ 64 * 1024 then .span
    else .auto
  makePlan storage true true false false false false false false 96 32 192 48 (256 * 1024)

def throughputFree (_hdr : Header) : ReleaseDecision :=
  makeRelease .cache false false false false 32 192 48

def latencyAllocate (_size alignment : Nat) : AllocationPlan :=
  makePlan (if 16 < alignment then .directMap else .auto)
    true true false false false false false false 8 6 16 6 (256 * 1024)

def latencyFree (_hdr : Header) : ReleaseDecision :=
  makeRelease .cache false false false false 6 16 6

def compactAllocate (size alignment : Nat) : AllocationPlan :=
  let storage : StoragePreference :=
    if 16 < alignment ∨ 96 * 1024 < size then .directMap else .auto
  makePlan storage false false true false false (storage == .directMap) false true
    4 0 0 0 (96 * 1024)

def compactFree (hdr : Header) : ReleaseDecision :=
  if hdr.storage = .directMap then makeRelease .unmap false false false false 0 0 0
  else makeRelease .purge false false false false 0 0 0

/-- `fragmentation_prefers_direct`, with the record of its arithmetic. -/
def fragmentationPrefersDirect (size alignment : Nat) : Sized Bool := do
  if 16 < alignment ∨ 96 * 1024 ≤ size then return true
  if size ≤ 1024 ∨ 64 * 1024 < size then return false
  let rounded ← alignUp size 1024
  if rounded ≤ size then return false
  let waste ← subS rounded size
  let lhs ← mulS waste 100
  let rhs ← mulS size 20
  return decide (16 * 1024 ≤ size) && decide (rhs ≤ lhs)

def fragmentationAllocate (size alignment : Nat) : AllocationPlan :=
  let storage : StoragePreference :=
    if (fragmentationPrefersDirect size alignment).val then .directMap else .auto
  makePlan storage false true false false false (storage == .directMap) false true
    8 1 0 0 (96 * 1024)

def fragmentationFree (hdr : Header) : ReleaseDecision :=
  if hdr.storage = .directMap then makeRelease .unmap false false false false 0 0 0
  else makeRelease .returnToCentralPool false false false false 1 0 0

def crossThreadAllocate (_size alignment : Nat) : AllocationPlan :=
  makePlan (if 16 < alignment then .directMap else .auto)
    true true false false false false true false 64 8 96 24 (256 * 1024)

def crossThreadFree (_hdr : Header) : ReleaseDecision :=
  makeRelease .cache false false false true 8 96 24

def largeStreamAllocate (size alignment : Nat) : AllocationPlan :=
  let storage : StoragePreference :=
    if 16 < alignment ∨ 4 * 1024 ≤ size then .directMap else .sizeClass
  makePlan storage false false true false false (storage == .directMap) false false
    1 0 0 0 (4 * 1024)

def largeStreamFree (hdr : Header) : ReleaseDecision :=
  if hdr.storage = .directMap then makeRelease .unmap false false false false 0 0 0
  else makeRelease .purge false false false false 0 0 0

def hardenedAllocate (_size _alignment : Nat) : AllocationPlan :=
  makePlan .directMap false false false true true true false false 1 0 0 0 0

def hardenedFree (_hdr : Header) : ReleaseDecision :=
  makeRelease .quarantine true true true false 0 0 0

structure ModePolicy where
  id : ModeId
  name : String
  planAllocate : Nat → Nat → AllocationPlan
  planFree : Header → ReleaseDecision

def adaptiveModePolicy : ModeId → ModePolicy
  | .balanced => ⟨.balanced, "balanced", balancedAllocate cfg, balancedFree cfg⟩
  | .throughputCache => ⟨.throughputCache, "throughput_cache", throughputAllocate, throughputFree⟩
  | .deterministicLatency =>
    ⟨.deterministicLatency, "deterministic_latency", latencyAllocate, latencyFree⟩
  | .compactRSS => ⟨.compactRSS, "compact_rss", compactAllocate, compactFree⟩
  | .fragmentationStable =>
    ⟨.fragmentationStable, "fragmentation_stable", fragmentationAllocate, fragmentationFree⟩
  | .crossThreadMessage => ⟨.crossThreadMessage, "cross_thread", crossThreadAllocate, crossThreadFree⟩
  | .largeObjectStreaming =>
    ⟨.largeObjectStreaming, "large_object", largeStreamAllocate, largeStreamFree⟩
  | .hardenedDebug => ⟨.hardenedDebug, "hardened_debug", hardenedAllocate, hardenedFree⟩

/-! ## What the policies have in common -/

end MyMalloc.Adaptive
