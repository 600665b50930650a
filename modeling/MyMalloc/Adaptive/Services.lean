import MyMalloc.Adaptive.Storage
import MyMalloc.Lib.Program

/- The memory services and the public facade (`adaptive_services.cpp`,
   `adaptive_allocator.cpp`, `adaptive_selector.cpp`) as programs over atomic
   steps.

   Each mutex-protected section, each thread-local cache operation and each
   telemetry event is one step; between two steps of a call any other thread
   may run. What a program keeps between steps is what the source keeps in
   local variables. -/
namespace MyMalloc.Adaptive

/-! ## Steps -/

/-- A telemetry event, with what the source passes to it. -/
inductive Event where
  | mallocCall
  | alloc (result : AllocationResult)
  | allocFailure
  | freeCall
  | freeBegin (hdr : Nat)
  | invalidFree
  | realloc
  | mapped (mode : ModeId) (bytes : Nat)
  | unmapped (mode : ModeId) (bytes : Nat)
  | munmap
  | headerCorruption
  | doubleFree
  | modeSwitch

inductive Act where
  | tele (e : Event)
  | loadMode
  | switchMode (old new : ModeId)
  | selectorTick
  | sampleWindow
  | loadCooldown
  | setCooldown (value : Nat)
  | pageMaybeOwned (ptr : Nat)
  | headerPlausible (hdr user : Nat)
  | readHeader (hdr : Nat)
  | readPage (page : Nat)
  | registryInsert (hdr : Nat)
  | registryRemove (hdr : Nat)
  | popTcache (storage : StorageId) (cls : Nat)
  | pushTcache (hdr : Nat) (smallLimit mediumLimit : Nat)
  | finalizeCached (hdr : Nat) (req : AllocationRequest) (storage : StorageId) (usable : Nat)
  | loadPending
  | fetchSubPending (current : Nat)
  | spliceBucket (i ownerThread : Nat)
  | drainPush (current : Nat) (smallLimit mediumLimit : Nat)
  | requeue (i : Nat)
  | enqueueProbe (hdr : Nat) (i : Nat)
  | poolTake (req : AllocationRequest) (storage : StorageId) (cls usable mappedSize : Nat)
  | centralFree (hdr page : Nat) (storage : StorageId) (cls : Nat) (action : ReleaseAction)
      (emptyKeepLimit : Nat)
  | validateDebugGuards (hdr : Nat)
  | poison (hdr : Nat)
  | copyBytes (dst src n : Nat)
  | popLargeExtentCache (needed : Nat)
  | reuseExtent (hdr : Nat) (req : AllocationRequest) (usable : Nat)
  | pushLargeExtentCache (hdr : Nat)
  | mapDirect (req : AllocationRequest) (usable mappedSize : Nat)
  | unmapDirect (hdr base : Nat) (mappedSize : Nat)
  | enterQuarantine (hdr : Nat)

/-- What a step answers. -/
@[reducible] def Ans : Act → Type
  | .loadMode => ModeId
  | .selectorTick => Nat
  | .sampleWindow => Stats × Stats
  | .loadCooldown => Nat
  | .pageMaybeOwned _ => Bool
  | .headerPlausible _ _ => Bool
  | .readHeader _ => Header
  | .readPage _ => Page
  | .popTcache _ _ => Nat
  | .pushTcache _ _ _ => Bool
  | .finalizeCached _ _ _ _ => Nat
  | .loadPending => Nat
  | .spliceBucket _ _ => Nat
  | .drainPush _ _ _ => Option Nat
  | .enqueueProbe _ _ => Bool
  | .poolTake _ _ _ _ _ => Option Taken
  | .validateDebugGuards _ => Bool
  | .popLargeExtentCache _ => Nat
  | .pushLargeExtentCache _ => Bool
  | .mapDirect _ _ _ => Option Nat
  | _ => Unit

abbrev P := Prog Act Ans

section exec
variable {τ : Type} [DecidableEq τ] (host : Host τ)

/-- The counters after an event. -/
def record (t : τ) (s : State τ) : Event → Stats
  | .mallocCall => s.stats.onMallocCall
  | .alloc result => s.stats.onAlloc result (s.hdr result.header).modeId
  | .allocFailure => s.stats.onAllocFailure
  | .freeCall => s.stats.onFreeCall
  | .freeBegin hdr => s.stats.onFreeBegin (s.hdr hdr) (host.token t)
  | .invalidFree => s.stats.onInvalidFree
  | .realloc => s.stats.onRealloc
  | .mapped mode bytes => s.stats.onMapped mode bytes
  | .unmapped mode bytes => s.stats.onUnmapped mode bytes
  | .munmap => s.stats.onMunmap
  | .headerCorruption => s.stats.onHeaderCorruption
  | .doubleFree => s.stats.onDoubleFree
  | .modeSwitch => s.stats.onModeSwitch

/-- The stores of `adaptive_activate_mode`. -/
def Runtime.switch (rt : Runtime) (old new : ModeId) : Runtime :=
  { rt with
    states := Function.update (Function.update rt.states old .retired) new .active
    previous := old
    active := new }

/-- One step of thread `t`. -/
def exec (t : τ) : (a : Act) → State τ → Ans a × State τ
  | .tele e, s => ((), { s with stats := record host t s e })
  | .loadMode, s => (s.rt.active, s)
  | .switchMode old new, s => ((), { s with rt := s.rt.switch old new })
  | .selectorTick, s =>
    ((s.rt.selectorCounter + 1) % 2^64,
      { s with rt := { s.rt with selectorCounter := (s.rt.selectorCounter + 1) % 2^64 } })
  | .sampleWindow, s =>
    ((s.stats, s.rt.windowBase), { s with rt := { s.rt with windowBase := s.stats } })
  | .loadCooldown, s => (s.rt.cooldownUntil, s)
  | .setCooldown value, s => ((), { s with rt := { s.rt with cooldownUntil := value } })
  | .pageMaybeOwned ptr, s => (pageMaybeOwned ptr s, s)
  | .headerPlausible hdr user, s => (headerPlausible hdr user s, s)
  | .readHeader hdr, s => (s.hdr hdr, s)
  | .readPage page, s => (s.page page, s)
  | .registryInsert hdr, s => ((), registryInsert hdr s)
  | .registryRemove hdr, s => ((), registryRemove t hdr s)
  | .popTcache storage cls, s => popTcache t storage cls s
  | .pushTcache hdr smallLimit mediumLimit, s => pushTcache t hdr smallLimit mediumLimit s
  | .finalizeCached hdr req storage usable, s =>
    ((s.hdr hdr).mappedSize, finalizePooledHeader hdr req storage usable
      (s.hdr hdr).mappedSize (s.hdr hdr).ownerPage s)
  | .loadPending, s => (s.remotePending, s)
  | .fetchSubPending current, s => ((), fetchSubPending current s)
  | .spliceBucket i ownerThread, s => spliceBucket t i ownerThread s
  | .drainPush current smallLimit mediumLimit, s => drainPush t current smallLimit mediumLimit s
  | .requeue i, s => ((), requeue t i s)
  | .enqueueProbe hdr i, s => enqueueProbe hdr i s
  | .poolTake req storage cls usable mappedSize, s =>
    poolTake host t req storage cls usable mappedSize s
  | .centralFree hdr page storage cls action keep, s =>
    ((), centralFree hdr page storage cls action keep s)
  | .validateDebugGuards hdr, s => (validateDebugGuards hdr s, s)
  | .poison hdr, s => ((), poison hdr s)
  | .copyBytes dst src n, s => ((), copyBytes dst src n s)
  | .popLargeExtentCache needed, s => popLargeExtentCache t needed s
  | .reuseExtent hdr req usable, s => ((), reuseExtent host hdr req usable s)
  | .pushLargeExtentCache hdr, s => pushLargeExtentCache hdr s
  | .mapDirect req usable mappedSize, s => mapDirect host t req usable mappedSize s
  | .unmapDirect hdr base mappedSize, s => ((), unmapDirect hdr base mappedSize s)
  | .enterQuarantine hdr, s => ((), enterQuarantine hdr s)

end exec

/-- One step of a call. -/
@[reducible] def step (a : Act) : P (Ans a) := Prog.perform a

/-- A telemetry call. -/
@[reducible] def tele (e : Event) : P Unit := step (.tele e)

/-! ## Mode switches -/

def adaptiveActivateMode (mode : ModeId) : P Unit := do
  let old ← step .loadMode
  if old = mode then pure () else do
    step (.switchMode old mode)
    tele .modeSwitch

/-- `adaptive_set_mode` on a raw byte. -/
def adaptiveSetMode (mode : Nat) : P Unit :=
  match ModeId.ofByte mode with
  | none => pure ()
  | some mode => adaptiveActivateMode mode

section facade
variable {τ : Type} (host : Host τ) (t : τ)

def adaptiveSelectorMaybeSwitch : P Unit :=
  if host.cfg.selector = .fixed ∨ host.cfg.selector = .manual then pure () else do
    let n ← step .selectorTick
    if n % host.cfg.modeWindow ≠ 0 then pure () else do
      let window ← step .sampleWindow
      let current ← step .loadMode
      let (next, gain) := host.select window.1 window.2 current
      let cooldownUntil ← step .loadCooldown
      if n < cooldownUntil ∨ next = current ∨ !gain then pure () else do
        adaptiveActivateMode next
        step (.setCooldown ((n + host.cfg.modeCooldown * host.cfg.modeWindow) % 2^64))

/-! ## Looking a pointer up -/

def headerFast (ptr : Nat) : P Nat :=
  if ptr = 0 then pure 0 else do
    let owned ← step (.pageMaybeOwned ptr)
    if !owned ∨ ptr < hdrOffset then pure 0 else do
      let known ← step (.headerPlausible (ptr - hdrOffset) ptr)
      pure (if known then ptr - hdrOffset else 0)

/-- The diagnosis of a pointer that is not live. The source asks for the candidate's page
once for each of the two verdicts. -/
def diagnose (ptr : Nat) : P Unit := do
  let owned ← step (.pageMaybeOwned ptr)
  if !owned ∨ ptr < hdrOffset then pure () else do
    let candidateOwned ← step (.pageMaybeOwned (ptr - hdrOffset))
    let cleared ←
      if candidateOwned then do
        let h ← step (.readHeader (ptr - hdrOffset))
        pure (h.magic == 0)
      else pure false
    if cleared then tele .doubleFree else do
      let candidateOwned ← step (.pageMaybeOwned (ptr - hdrOffset))
      if candidateOwned then tele .headerCorruption else pure ()

def headerFromUser (ptr : Nat) : P Nat := do
  let hdr ← headerFast ptr
  if hdr ≠ 0 then pure hdr else do
    diagnose ptr
    pure 0

/-! ## Remote frees -/

/-- The probes of `enqueue_remote_free`, `n` of them left. -/
def enqueueFrom (hdr ownerThread : Nat) : Nat → Nat → P Bool
  | 0, _ => pure false
  | n + 1, probe => do
    let queued ← step (.enqueueProbe hdr (probeBucket ownerThread probe))
    if queued then pure true else enqueueFrom hdr ownerThread n (probe + 1)

def enqueueRemoteFree (hdr : Nat) (h : Header) : P Bool :=
  if hdr = 0 ∨ !h.flags.pooled then pure false
  else enqueueFrom hdr h.ownerThread remoteQueueBuckets 0

/-- The loop over a list taken out of a bucket, `n` turns left. Returns what remains. -/
def drainLoop (smallLimit mediumLimit : Nat) : Nat → Nat → P Nat
  | 0, list => pure list
  | n + 1, list =>
    if list = 0 then pure 0 else do
      let pushed ← step (.drainPush list smallLimit mediumLimit)
      match pushed with
      | none => pure list
      | some next => do
        let pending ← step .loadPending
        if 0 < pending then do
          step (.fetchSubPending list)
          drainLoop smallLimit mediumLimit n next
        else drainLoop smallLimit mediumLimit n next

/-- The probes of `drain_remote_frees_for`, `n` of them left. -/
def drainFrom (ownerThread smallLimit mediumLimit : Nat) : Nat → Nat → P Unit
  | 0, _ => pure ()
  | n + 1, probe => do
    let i := probeBucket ownerThread probe
    let list ← step (.spliceBucket i ownerThread)
    if list = 0 then drainFrom ownerThread smallLimit mediumLimit n (probe + 1) else do
      let rest ← drainLoop smallLimit mediumLimit remoteDrainLimit list
      if rest = 0 then pure () else step (.requeue i)

def drainRemoteFreesFor (ownerThread smallLimit mediumLimit : Nat) : P Unit :=
  if ownerThread = 0 then pure ()
  else drainFrom ownerThread smallLimit mediumLimit remoteQueueBuckets 0

/-! ## Allocation -/

def finishCached (req : AllocationRequest) (storage : StorageId) (usable : Nat) (cached : Nat) :
    P AllocationResult := do
  let mappedSize ← step (.finalizeCached cached req storage usable)
  step (.registryInsert cached)
  pure ⟨userFromHeader cached, cached, storage, req.size, usable, mappedSize, 0, true, false, false⟩

def drainFor (req : AllocationRequest) : P Unit :=
  drainRemoteFreesFor req.threadId req.tcacheSmallLimit req.tcacheMediumLimit

/-- The drain that is made only if the counter says that there is something to drain. -/
def drainIfPending (req : AllocationRequest) : P Unit :=
  if req.drainRemoteQueue then do
    let pending ← step .loadPending
    if 0 < pending then drainFor req else pure ()
  else pure ()

/-- The thread-cache part of `allocate_size_class` and `allocate_span`. -/
def takeCached (req : AllocationRequest) (storage : StorageId) (cls usable : Nat) :
    P (Option AllocationResult) :=
  if !req.preferThreadCache then pure none else do
    drainIfPending req
    let cached ← step (.popTcache storage cls)
    if cached ≠ 0 then do
      let r ← finishCached req storage usable cached
      pure (some r)
    else if req.drainRemoteQueue then do
      drainFor req
      let cached ← step (.popTcache storage cls)
      if cached ≠ 0 then do
        let r ← finishCached req storage usable cached
        pure (some r)
      else pure none
    else pure none

/-- `allocate_size_class` and `allocate_span` once the class is known. -/
def allocatePooled (req : AllocationRequest) (storage : StorageId) (cls usable mappedSize : Nat) :
    P AllocationResult := do
  let cached ← takeCached req storage cls usable
  match cached with
  | some r => pure r
  | none =>
    if ¬ validClass storage cls then pure failResult else do
      let taken ← step (.poolTake req storage cls usable mappedSize)
      match taken with
      | none => pure failResult
      | some b => do
        step (.registryInsert b.hdr)
        pure ⟨userFromHeader b.hdr, b.hdr, storage, req.size, usable, b.mappedSize, b.newlyMapped,
          !b.created, false, b.created⟩

/-- Go on with a computed size, or fail. -/
def orFail {α : Type} (size : Option α) (k : α → P AllocationResult) : P AllocationResult :=
  match size with
  | none => pure failResult
  | some a => k a

def allocateDirectMap (req : AllocationRequest) : P AllocationResult :=
  orFail (directSizes req.size req.alignment req.debugRedzone).val fun (usable, mapped) => do
    let cached ←
      if req.mode = .largeObjectStreaming ∧ req.alignment ≤ 16 then
        step (.popLargeExtentCache mapped)
      else pure 0
    if cached ≠ 0 then do
      step (.reuseExtent cached req usable)
      step (.registryInsert cached)
      let h ← step (.readHeader cached)
      pure ⟨userFromHeader cached, cached, .directMap, req.size, usable, h.mappedSize, 0,
        true, false, false⟩
    else do
      let hdr ← step (.mapDirect req usable mapped)
      match hdr with
      | none => pure failResult
      | some hdr => do
        step (.registryInsert hdr)
        tele (.mapped req.mode mapped)
        pure ⟨userFromHeader hdr, hdr, .directMap, req.size, usable, mapped, mapped,
          false, true, true⟩

def autoStorageFor (req : AllocationRequest) : StorageId :=
  if 16 < req.alignment ∨ req.preferDirectMap then .directMap
  else if req.size ≤ smallMax then .sizeClass
  else if req.size ≤ mediumMax then .span
  else .directMap

/-- `allocate_size_class` past its guard. -/
def sizeClassBody (req : AllocationRequest) : P AllocationResult :=
  orFail (smallClass req.size).val fun (cls, usable) =>
    allocatePooled req .sizeClass cls usable host.cfg.smallPageSize

/-- `allocate_span` past its guard. -/
def spanBody (req : AllocationRequest) : P AllocationResult :=
  orFail (mediumClass req.size).val fun (cls, usable) =>
    allocatePooled req .span cls usable host.cfg.mediumSpanSize

def allocateAuto (req : AllocationRequest) : P AllocationResult :=
  match autoStorageFor req with
  | .sizeClass => sizeClassBody host req
  | .span => spanBody host req
  | .directMap => allocateDirectMap req

def allocateSizeClass (req : AllocationRequest) : P AllocationResult :=
  if 16 < req.alignment ∨ smallMax < req.size then allocateAuto host req else sizeClassBody host req

def allocateSpan (req : AllocationRequest) : P AllocationResult :=
  if 16 < req.alignment ∨ req.size ≤ smallMax ∨ mediumMax < req.size then allocateAuto host req
  else spanBody host req

def allocateExtent (req : AllocationRequest) : P AllocationResult := allocateDirectMap req

/-- The storage path a plan selects. -/
def allocateBy (storage : StoragePreference) (req : AllocationRequest) : P AllocationResult :=
  match storage with
  | .sizeClass => allocateSizeClass host req
  | .span => allocateSpan host req
  | .extent => allocateExtent req
  | .directMap => allocateDirectMap req
  | .auto => allocateAuto host req

/-! ## Release -/

/-- The checks a release decision asks for on a block that left the registry. -/
def inspect (hdr : Nat) (h : Header) (decision : ReleaseDecision) : P Unit := do
  if decision.checkRedzone then do
    let intact ← step (.validateDebugGuards hdr)
    if intact then pure () else tele .headerCorruption
  else pure ()
  if decision.poison ∧ 0 < h.usable then step (.poison hdr) else pure ()

def deallocatePooled (hdr : Nat) (h : Header) (decision : ReleaseDecision) : P Unit :=
  if h.ownerPage = 0 then pure () else do
    let page ← step (.readPage h.ownerPage)
    if ¬ validClass page.storage page.classIndex then pure () else do
      let remoteFree := decide (h.ownerThread ≠ host.token t)
      step (.registryRemove hdr)
      inspect hdr h decision
      let queued ←
        if decision.useRemoteQueue && remoteFree then enqueueRemoteFree hdr h else pure false
      if queued then pure () else do
        let cached ←
          if decision.action == .cache && !remoteFree then
            step (.pushTcache hdr decision.tcacheSmallLimit decision.tcacheMediumLimit)
          else pure false
        if cached then pure () else
          step (.centralFree hdr h.ownerPage page.storage page.classIndex decision.action
            decision.emptyKeepLimit)

def unmapBlock (hdr : Nat) (h : Header) : P Unit := do
  tele (.unmapped h.modeId h.mappedSize)
  step (.unmapDirect hdr h.regionBase h.mappedSize)
  tele .munmap

def deallocateDirect (hdr : Nat) (h : Header) (decision : ReleaseDecision) : P Unit := do
  step (.registryRemove hdr)
  inspect hdr h decision
  if decision.quarantine ∨ decision.action = .quarantine then step (.enterQuarantine hdr)
  else do
    let cached ←
      if decision.action = .cache ∧ h.modeId = .largeObjectStreaming then
        step (.pushLargeExtentCache hdr)
      else pure false
    if cached then pure () else unmapBlock hdr h

def deallocate (hdr : Nat) (decision : ReleaseDecision) : P Unit :=
  if hdr = 0 then pure () else do
    let h ← step (.readHeader hdr)
    if h.flags.pooled then deallocatePooled host t hdr h decision
    else deallocateDirect hdr h decision

/-- Count the block out, then release it as its mode decides. -/
def release (hdr : Nat) (h : Header) : P Unit := do
  tele (.freeBegin hdr)
  deallocate host t hdr ((adaptiveModePolicy host.cfg h.modeId).planFree h)

/-! ## The facade -/

/-- `request_from_plan`; `direct` is what it makes of the plan's direct-map preference. -/
def requestFromPlan (size alignment : Nat) (mode : ModeId) (plan : AllocationPlan)
    (direct : Bool) : AllocationRequest where
  size := size
  alignment := alignment
  mode := mode
  threadId := host.token t
  zeroFill := false
  preferThreadCache := plan.useThreadCache
  preferDirectMap := direct
  preferReuse := plan.preferReuse
  preferLowRss := plan.preferLowRss
  debugRedzone := plan.debugRedzone
  debugQuarantine := plan.debugQuarantine
  drainRemoteQueue := plan.drainRemoteQueue
  preferOccupancyPacking := plan.preferOccupancyPacking
  batchSize := plan.batchSize
  emptyKeepLimit := plan.emptyKeepLimit
  tcacheSmallLimit := plan.tcacheSmallLimit
  tcacheMediumLimit := plan.tcacheMediumLimit
  directMapThreshold := plan.directMapThreshold

def allocateWithActiveMode (size alignment : Nat) : P AllocationResult := do
  let mode ← step .loadMode
  let plan := (adaptiveModePolicy host.cfg mode).planAllocate size alignment
  let req := requestFromPlan host t size alignment mode plan
    (plan.preferDirectMap || plan.storage == .directMap)
  let result ← allocateBy host plan.storage req
  if result.userPtr ≠ 0 then tele (.alloc result) else tele .allocFailure
  adaptiveSelectorMaybeSwitch host
  pure result

def reallocate (hdr : Nat) (newSize : Nat) : P Nat := do
  let h ← step (.readHeader hdr)
  if newSize ≤ h.usable then pure (userFromHeader hdr) else do
    let plan := (adaptiveModePolicy host.cfg h.modeId).planAllocate newSize 16
    let req := requestFromPlan host t newSize 16 h.modeId plan plan.preferDirectMap
    let result ← allocateBy host plan.storage req
    if result.userPtr = 0 then pure 0 else do
      tele (.alloc result)
      step (.copyBytes result.userPtr (userFromHeader hdr)
        (if h.usable < newSize then h.usable else newSize))
      release host t hdr h
      pure result.userPtr

def adaptiveMalloc (size : Nat) : P Nat := do
  tele .mallocCall
  let r ← allocateWithActiveMode host t size 16
  pure r.userPtr

def adaptiveFree (ptr : Nat) : P Unit :=
  if ptr = 0 then pure () else do
    tele .freeCall
    let hdr ← headerFromUser ptr
    if hdr = 0 then do
      tele .invalidFree
      adaptiveSelectorMaybeSwitch host
    else do
      let h ← step (.readHeader hdr)
      release host t hdr h
      adaptiveSelectorMaybeSwitch host

def adaptiveRealloc (ptr : Nat) (size : Nat) : P Nat := do
  tele .realloc
  if ptr = 0 then adaptiveMalloc host t size
  else if size = 0 then do
    adaptiveFree host t ptr
    pure 0
  else do
    let hdr ← headerFromUser ptr
    if hdr = 0 then do
      tele .invalidFree
      pure 0
    else reallocate host t hdr size

def adaptiveUsableSize (ptr : Nat) : P Nat :=
  if ptr = 0 then pure 0 else do
    let hdr ← headerFromUser ptr
    if hdr = 0 then pure 0 else do
      let h ← step (.readHeader hdr)
      pure (if (adaptiveModePolicy host.cfg h.modeId).id = h.modeId then h.usable else 0)

/-- `adaptive_memalign` once the alignment is a power of two, or has wrapped to zero. -/
def memalignAt (size : Nat) (alignment : Option Nat) : P Nat :=
  match alignment with
  | none => do
    tele .allocFailure
    pure 0
  | some alignment => do
    tele .mallocCall
    let r ← allocateWithActiveMode host t size alignment
    pure r.userPtr

def adaptiveMemalign (alignment size : Nat) : P Nat :=
  let alignment := if alignment < 8 then 8 else alignment
  if alignment ≤ 16 then adaptiveMalloc host t size
  else memalignAt host t size (memalignAlignment alignment)

end facade

end MyMalloc.Adaptive
