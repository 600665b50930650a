import MyMalloc.Adaptive.PoolGrowth
import MyMalloc.Adaptive.System

/- Mode switches affect future allocations only.

   `adaptive_free`, `adaptive_realloc` of a pointer and `adaptive_usable_size` take
   the mode from the header of the block. With a selector that never switches by
   itself they perform no step that looks at the active mode or at the counters
   (`Blind`), and such steps answer the same, and do the same to the memory
   services, in any two states that differ in the mode and the counters alone
   (`Alike.exec`). So switches between the calls change no result
   (`soft_switch`). -/
namespace MyMalloc.Adaptive

variable {τ : Type}

/-- The memory services are in the same state; the mode and the counters may differ. -/
def Alike (s s' : State τ) : Prop := ∃ rt stats, s' = { s with rt := rt, stats := stats }

/-- The steps that do not look at the mode or the counters. -/
def Blind : Act → Prop
  | .loadMode => False
  | .switchMode _ _ => False
  | .selectorTick => False
  | .sampleWindow => False
  | .loadCooldown => False
  | .setCooldown _ => False
  | _ => True

/-- Two answers with what they leave. -/
def SameRun {α : Type} (r r' : α × State τ) : Prop := r.1 = r'.1 ∧ Alike r.2 r'.2

theorem Alike.refl (s : State τ) : Alike s s := ⟨_, _, rfl⟩

theorem Alike.symm {s s' : State τ} : Alike s s' → Alike s' s
  | ⟨_, _, h⟩ => ⟨s.rt, s.stats, by rw [h]⟩

theorem Alike.trans {s s' s'' : State τ} : Alike s s' → Alike s' s'' → Alike s s''
  | ⟨_, _, h⟩, ⟨rt, stats, h'⟩ => ⟨rt, stats, by rw [h', h]⟩

section steps
variable {s s' : State τ} (host : Host τ) (t : τ)

theorem Alike.fields : Alike s s' →
    s'.next = s.next ∧ s'.head = s.head ∧ s'.liveCount = s.liveCount ∧ s'.pools = s.pools ∧ s'.hdr = s.hdr
  | ⟨_, _, h⟩ => by rw [h]; exact ⟨rfl, rfl, rfl, rfl, rfl⟩

theorem findExtent_congr (needed : Nat) (hhdr : s'.hdr = s.hdr) (hnext : s'.next = s.next) (fuel prev hdr : Nat) :
    findExtent needed s' fuel prev hdr = findExtent needed s fuel prev hdr := by
  induction fuel generalizing prev hdr with
  | zero => rfl
  | succ fuel ih => rw [findExtent, findExtent, hhdr, hnext, ih]

theorem fullest_congr (hhead : s'.head = s.head) (hlive : s'.liveCount = s.liveCount) (sel : Option Nat)
    (pages : List Nat) : fullest s' sel pages = fullest s sel pages := by
  induction pages generalizing sel with
  | nil => rfl
  | cons page pages ih => simp only [fullest, hhead, hlive, ih]

variable (h : Alike s s')
include h

theorem Alike.mmap (size : Nat) (mode : ModeId) :
    SameRun (mmap host size mode s) (mmap host size mode s') := by
  obtain ⟨rt, stats, rfl⟩ := h
  unfold Adaptive.mmap
  dsimp only
  cases host.mmap s.mmapCalls with
  | none => exact ⟨rfl, rt, stats, rfl⟩
  | some base =>
    dsimp only
    by_cases hfits : MapFits host base size s
    · have hfits' : MapFits host base size { s with rt := rt, stats := stats } := hfits
      rw [if_pos hfits, if_pos hfits']
      exact ⟨rfl, rt, stats, rfl⟩
    · have hfits' : ¬ MapFits host base size { s with rt := rt, stats := stats } := hfits
      rw [if_neg hfits, if_neg hfits']
      exact ⟨rfl, rt, stats, rfl⟩

theorem Alike.registerRegion (base size : Nat) :
    Alike (registerRegion base size s) (registerRegion base size s') := by
  obtain ⟨rt, stats, rfl⟩ := h
  unfold Adaptive.registerRegion
  split
  · exact ⟨rt, stats, rfl⟩
  · exact ⟨rt, stats, rfl⟩

theorem Alike.unregisterRegion (base size : Nat) :
    Alike (unregisterRegion base size s) (unregisterRegion base size s') := by
  obtain ⟨rt, stats, rfl⟩ := h
  unfold Adaptive.unregisterRegion
  split
  · exact ⟨rt, stats, rfl⟩
  · exact ⟨rt, stats, rfl⟩

theorem Alike.writeDebugGuards (hdr : Nat) :
    Alike (writeDebugGuards hdr s) (writeDebugGuards hdr s') := by
  obtain ⟨rt, stats, rfl⟩ := h
  unfold Adaptive.writeDebugGuards
  dsimp only
  split
  · exact ⟨rt, stats, rfl⟩
  · exact ⟨rt, stats, rfl⟩

theorem Alike.mapDirect (req : AllocationRequest) (usable mapped : Nat) :
    SameRun (mapDirect host t req usable mapped s) (mapDirect host t req usable mapped s') := by
  have hmap := h.mmap host mapped req.mode
  unfold Adaptive.mapDirect
  generalize Adaptive.mmap host mapped req.mode s = r at hmap ⊢
  generalize Adaptive.mmap host mapped req.mode s' = r' at hmap ⊢
  obtain ⟨base, s₁⟩ := r
  obtain ⟨base', s₁'⟩ := r'
  obtain ⟨rfl, hs⟩ : base = base' ∧ Alike s₁ s₁' := hmap
  cases base with
  | none => exact ⟨rfl, hs⟩
  | some base =>
    refine ⟨rfl, Alike.writeDebugGuards ?_ _⟩
    obtain ⟨rt, stats, e⟩ := hs.registerRegion base mapped
    exact ⟨rt, stats, by rw [e]⟩

variable [DecidableEq τ]

theorem Alike.pushTcache (hdr small medium : Nat) :
    SameRun (pushTcache t hdr small medium s) (pushTcache t hdr small medium s') := by
  obtain ⟨rt, stats, rfl⟩ := h
  unfold Adaptive.pushTcache
  dsimp only
  split
  · exact ⟨rfl, rt, stats, rfl⟩
  split
  · exact ⟨rfl, rt, stats, rfl⟩
  · exact ⟨rfl, rt, stats, rfl⟩

theorem Alike.drainPush (current small medium : Nat) :
    SameRun (drainPush t current small medium s) (drainPush t current small medium s') := by
  have hunlinked : Alike { s with next := Function.update s.next current 0 }
      { s' with next := Function.update s'.next current 0 } := by
    obtain ⟨rt, stats, rfl⟩ := h
    exact ⟨rt, stats, rfl⟩
  have hnext := h.fields.1
  obtain ⟨hans, rt, stats, hrest⟩ := hunlinked.pushTcache t current small medium
  unfold Adaptive.drainPush
  dsimp only
  rw [← hans, hnext]
  rw [hnext] at hrest
  split
  · exact ⟨rfl, rt, stats, by rw [hrest]⟩
  · exact ⟨rfl, rt, stats, by rw [hrest]⟩

theorem Alike.popLargeExtentCache (needed : Nat) :
    SameRun (popLargeExtentCache t needed s) (popLargeExtentCache t needed s') := by
  obtain ⟨hnext, hhead, -, -, hhdr⟩ := h.fields
  have hfind := findExtent_congr needed hhdr hnext (largeExtentCacheLimit + 1) 0 (s'.head .extents)
  rw [hhead] at hfind
  obtain ⟨rt, stats, rfl⟩ := h
  unfold Adaptive.popLargeExtentCache
  split
  · exact ⟨rfl, rt, stats, rfl⟩
  rw [hfind]
  cases findExtent needed s (largeExtentCacheLimit + 1) 0 (s.head .extents) with
  | none => exact ⟨rfl, rt, stats, rfl⟩
  | some found => exact ⟨rfl, rt, stats, rfl⟩

/-! Mapping and unmapping -/

theorem Alike.carve (page : Nat) (p : Page) (n : Nat) :
    Alike (carve page p n s) (carve page p n s') := by
  induction n with
  | zero => exact h
  | succ n ih =>
    obtain ⟨rt, stats, e⟩ := ih
    rw [Adaptive.carve, Adaptive.carve, e]
    exact ⟨rt, stats, rfl⟩

theorem Alike.mapPoolPage (g : Option (Nat × Nat × Nat)) (mode : ModeId) (storage : StorageId)
    (cls usable mapped : Nat) : SameRun (mapPoolPage host g mode storage cls usable mapped s)
      (mapPoolPage host g mode storage cls usable mapped s') := by
  have hmap := h.mmap host mapped mode
  cases g with
  | none => exact ⟨rfl, h⟩
  | some g =>
    unfold Adaptive.mapPoolPage
    dsimp only
    generalize Adaptive.mmap host mapped mode s = r at hmap ⊢
    generalize Adaptive.mmap host mapped mode s' = r' at hmap ⊢
    obtain ⟨base, s₁⟩ := r
    obtain ⟨base', s₁'⟩ := r'
    obtain ⟨rfl, hs⟩ : base = base' ∧ Alike s₁ s₁' := hmap
    cases base with
    | none => exact ⟨rfl, hs⟩
    | some base =>
      dsimp only
      refine ⟨rfl, Alike.carve ?_ _ _ _⟩
      obtain ⟨rt, stats, e⟩ := hs.registerRegion base mapped
      rw [e]
      exact ⟨rt, _, rfl⟩

/-! Pools -/

omit h in
theorem refillLoop_alike (k : BinId τ) (page limit n : Nat) (h : Alike s s') :
    Alike (refillLoop k page limit n s) (refillLoop k page limit n s') := by
  induction n generalizing s s' with
  | zero => exact h
  | succ n ih =>
    obtain ⟨rt, stats, rfl⟩ := h
    rw [refillLoop, refillLoop]
    dsimp only
    split
    · exact ⟨rt, stats, rfl⟩
    · exact ih ⟨rt, stats, rfl⟩

theorem Alike.takeFrom (req : AllocationRequest) (storage : StorageId) (cls usable page : Nat)
    (created : Bool) (newlyMapped : Nat) : SameRun (takeFrom t req storage cls usable page created newlyMapped s)
      (takeFrom t req storage cls usable page created newlyMapped s') := by
  have hpop : Alike (freePop t page s) (freePop t page s') := by
    obtain ⟨rt, stats, rfl⟩ := h
    exact ⟨rt, stats, rfl⟩
  have hrefill : Alike (refillTcache ⟨t, storage, cls⟩ page req (freePop t page s))
      (refillTcache ⟨t, storage, cls⟩ page req (freePop t page s')) := by
    unfold refillTcache
    split
    · exact hpop
    dsimp only
    split
    · exact hpop
    · exact refillLoop_alike _ _ _ _ hpop
  have hhead := h.fields.2.1
  unfold Adaptive.takeFrom
  dsimp only
  rw [hhead]
  obtain ⟨rt, stats, e⟩ := hrefill
  rw [e]
  exact ⟨rfl, rt, stats, rfl⟩

theorem Alike.poolTake (req : AllocationRequest) (storage : StorageId) (cls usable mapped : Nat) :
    SameRun (poolTake host t req storage cls usable mapped s) (poolTake host t req storage cls usable mapped s') := by
  have hcreate : SameRun (createPoolPage host req.mode storage cls usable mapped s)
      (createPoolPage host req.mode storage cls usable mapped s') := h.mapPoolPage host _ req.mode storage cls usable mapped
  have hsel : selectPoolPage (s'.pools storage cls) req s' = selectPoolPage (s.pools storage cls) req s := by
    obtain ⟨-, hhead, hlive, hpools, -⟩ := h.fields
    unfold selectPoolPage
    rw [fullest_congr hhead hlive, hhead, hpools]
  cases hpage : selectPoolPage (s.pools storage cls) req s with
  | some page =>
    rw [poolTake_some host hpage, poolTake_some host (hsel.trans hpage)]
    exact h.takeFrom t req storage cls usable page false 0
  | none =>
    rcases hr : createPoolPage host req.mode storage cls usable mapped s with ⟨page, s₁⟩
    rcases hr' : createPoolPage host req.mode storage cls usable mapped s' with ⟨page', s₁'⟩
    rw [hr, hr'] at hcreate
    obtain ⟨rfl, hs⟩ : page = page' ∧ Alike s₁ s₁' := hcreate
    cases page with
    | none =>
      rw [poolTake_failed hpage hr, poolTake_failed (hsel.trans hpage) hr']
      exact ⟨rfl, hs⟩
    | some page =>
      rw [poolTake_created hpage hr, poolTake_created (hsel.trans hpage) hr']
      refine Alike.takeFrom t ?_ req storage cls usable page true mapped
      obtain ⟨rt, stats, rfl⟩ := hs
      exact ⟨rt, stats, rfl⟩

theorem Alike.releasePage (storage : StorageId) (cls target : Nat) :
    Alike (releasePage storage cls target s) (releasePage storage cls target s') := by
  obtain ⟨rt, stats, rfl⟩ := h
  unfold Adaptive.releasePage Adaptive.unregisterRegion
  dsimp only
  split
  · exact ⟨rt, stats, rfl⟩
  split
  · exact ⟨rt, _, rfl⟩
  · exact ⟨rt, _, rfl⟩

omit h in
theorem releaseLoop_alike (storage : StorageId) (cls n : Nat) (h : Alike s s') :
    Alike (releaseLoop storage cls n s) (releaseLoop storage cls n s') := by
  induction n generalizing s s' with
  | zero => exact h
  | succ n ih =>
    obtain ⟨-, -, hlive, hpools, -⟩ := h.fields
    rw [releaseLoop, releaseLoop, hpools, hlive]
    cases (s.pools storage cls).find? fun page => s.liveCount page == 0 with
    | none => exact h
    | some page => exact ih (h.releasePage storage cls page)

theorem Alike.centralFree (hdr page : Nat) (storage : StorageId) (cls : Nat)
    (action : ReleaseAction) (keep : Nat) :
    Alike (centralFree hdr page storage cls action keep s) (centralFree hdr page storage cls action keep s') := by
  have hpush : Alike (centralPush hdr page s) (centralPush hdr page s') := by
    obtain ⟨rt, stats, rfl⟩ := h
    exact ⟨rt, stats, rfl⟩
  rw [centralFree_eq, centralFree_eq]
  generalize centralPush hdr page s = s₁ at hpush ⊢
  generalize centralPush hdr page s' = s₁' at hpush ⊢
  obtain ⟨-, -, hlive, hpools, -⟩ := hpush.fields
  rw [hpools, hlive]
  split
  · unfold releaseTargetEmpty
    rw [hpools, hlive]
    split
    · exact hpush
    · obtain ⟨rt, stats, e⟩ := hpush.releasePage storage cls page
      rw [e]
      exact ⟨rt, _, rfl⟩
  · unfold releaseEmpty countEmpty
    rw [hpools, hlive]
    refine releaseLoop_alike storage cls _ ?_
    obtain ⟨rt, stats, rfl⟩ := hpush
    exact ⟨rt, _, rfl⟩

/-- A blind step answers the same in both states, and does the same. -/
theorem Alike.exec {a : Act} (ha : Blind a) : SameRun (exec host t a s) (exec host t a s') := by
  cases a with
  | poolTake req storage cls usable mapped => exact h.poolTake host t req storage cls usable mapped
  | centralFree hdr page storage cls action keep =>
    exact ⟨rfl, h.centralFree hdr page storage cls action keep⟩
  | mapDirect req usable mapped => exact h.mapDirect host t req usable mapped
  | unmapDirect hdr base mapped =>
    obtain ⟨rt, stats, e⟩ := h.unregisterRegion base mapped
    refine ⟨rfl, rt, stats, ?_⟩
    dsimp only [Adaptive.exec, unmapDirect]
    rw [e]
    rfl
  | pushTcache hdr small medium => exact h.pushTcache t hdr small medium
  | drainPush current small medium => exact h.drainPush t current small medium
  | popLargeExtentCache needed => exact h.popLargeExtentCache t needed
  | popTcache storage cls =>
    obtain ⟨rt, stats, rfl⟩ := h
    unfold Adaptive.exec popTcache
    dsimp only
    split
    · exact ⟨rfl, rt, stats, rfl⟩
    · exact ⟨rfl, rt, stats, rfl⟩
  | spliceBucket i owner =>
    obtain ⟨rt, stats, rfl⟩ := h
    unfold Adaptive.exec spliceBucket
    dsimp only
    split
    · exact ⟨rfl, rt, stats, rfl⟩
    · exact ⟨rfl, rt, stats, rfl⟩
  | enqueueProbe hdr i =>
    obtain ⟨rt, stats, rfl⟩ := h
    unfold Adaptive.exec enqueueProbe
    dsimp only
    split
    · exact ⟨rfl, rt, stats, rfl⟩
    · exact ⟨rfl, rt, stats, rfl⟩
  | pushLargeExtentCache hdr =>
    obtain ⟨rt, stats, rfl⟩ := h
    unfold Adaptive.exec pushLargeExtentCache
    dsimp only
    repeat' split
    all_goals exact ⟨rfl, rt, stats, rfl⟩
  | requeue i =>
    obtain ⟨rt, stats, rfl⟩ := h
    unfold Adaptive.exec requeue
    dsimp only
    -- the search for the tail has a bound that must not be evaluated
    generalize lastFrom 0 s.next (2^64) (s.head (.draining t)) = tail
    exact ⟨rfl, rt, stats, rfl⟩
  | loadMode => exact absurd ha id
  | switchMode old new => exact absurd ha id
  | selectorTick => exact absurd ha id
  | sampleWindow => exact absurd ha id
  | loadCooldown => exact absurd ha id
  | setCooldown value => exact absurd ha id
  | _ =>
    obtain ⟨rt, stats, rfl⟩ := h
    exact ⟨rfl, rt, _, rfl⟩

end steps

/-! ## Programs without a look at the mode -/

theorem CacheStep.blind {a : Act} (h : CacheStep a) : Blind a := by
  cases a <;> first | exact trivial | exact absurd h id

theorem headerFromUser_blind (ptr : Nat) : (headerFromUser ptr).All Blind := by
  have hfast : (headerFast ptr).All Blind := by
    unfold headerFast
    split
    · trivial
    refine .bind (.perform trivial) fun owned => ?_
    split
    · trivial
    · exact .bind (.perform trivial) fun _ => trivial
  have hdiagnose : (diagnose ptr).All Blind := by
    unfold diagnose
    refine .bind (.perform trivial) fun owned => ?_
    split
    · trivial
    have hverdict : (step (.pageMaybeOwned (ptr - hdrOffset)) >>= fun again =>
        if again = true then tele .headerCorruption else pure ()).All Blind := by
      refine .bind (.perform trivial) fun again => ?_
      split
      · exact .perform trivial
      · trivial
    refine .bind (.perform trivial) fun candidate => ?_
    dsimp only
    split
    · refine .bind (.perform trivial) fun h => .bind trivial fun cleared => ?_
      split
      · exact .perform trivial
      · exact hverdict
    · refine .bind trivial fun cleared => ?_
      split
      · exact .perform trivial
      · exact hverdict
  refine .bind hfast fun hdr => ?_
  split
  · trivial
  · exact .bind hdiagnose fun _ => trivial

theorem enqueueRemoteFree_blind (hdr : Nat) (h : Header) : (enqueueRemoteFree hdr h).All Blind := by
  have hfrom : ∀ n probe, (enqueueFrom hdr h.ownerThread n probe).All Blind := by
    intro n
    induction n with
    | zero => exact fun _ => trivial
    | succ n ih =>
      intro probe
      refine .bind (.perform trivial) fun queued => ?_
      split
      · trivial
      · exact ih (probe + 1)
  unfold enqueueRemoteFree
  split
  · trivial
  · exact hfrom _ _

theorem allocatePooled_blind (req : AllocationRequest) (storage : StorageId) (cls usable mapped : Nat) :
    (allocatePooled req storage cls usable mapped).All Blind := by
  refine .bind ((takeCached_cacheStep req storage cls usable).mono fun _ => CacheStep.blind) fun cached => ?_
  cases cached with
  | some r => trivial
  | none =>
    dsimp only
    split
    · trivial
    refine .bind (.perform trivial) fun taken => ?_
    cases taken with
    | none => trivial
    | some b => exact .bind (.perform trivial) fun _ => trivial

theorem allocateDirectMap_blind (req : AllocationRequest) : (allocateDirectMap req).All Blind := by
  unfold allocateDirectMap orFail
  split
  · trivial
  refine .branch (.perform trivial) trivial fun cached => ?_
  beta_reduce
  split
  · exact .bind (.perform trivial) fun _ => .bind (.perform trivial) fun _ => .bind (.perform trivial) fun _ => trivial
  refine .bind (.perform trivial) fun hdr => ?_
  cases hdr with
  | none => trivial
  | some hdr => exact .bind (.perform trivial) fun _ => .bind (.perform trivial) fun _ => trivial

section facade
variable (host : Host τ) (t : τ)

theorem allocateBy_blind (storage : StoragePreference) (req : AllocationRequest) : (allocateBy host storage req).All Blind := by
  have hsmall : (sizeClassBody host req).All Blind := by
    unfold sizeClassBody orFail
    split
    · trivial
    · exact allocatePooled_blind ..
  have hspan : (spanBody host req).All Blind := by
    unfold spanBody orFail
    split
    · trivial
    · exact allocatePooled_blind ..
  have hauto : (allocateAuto host req).All Blind := by
    unfold allocateAuto
    split
    · exact hsmall
    · exact hspan
    · exact allocateDirectMap_blind req
  cases storage with
  | sizeClass =>
    dsimp only [allocateBy, allocateSizeClass]
    split
    · exact hauto
    · exact hsmall
  | span =>
    dsimp only [allocateBy, allocateSpan]
    split
    · exact hauto
    · exact hspan
  | extent => exact allocateDirectMap_blind req
  | directMap => exact allocateDirectMap_blind req
  | auto => exact hauto

theorem inspect_blind (hdr : Nat) (h : Header) (decision : ReleaseDecision) : (inspect hdr h decision).All Blind := by
  have hpoison : (if decision.poison ∧ 0 < h.usable then step (.poison hdr) else pure ()).All Blind := by
    split
    · exact .perform trivial
    · trivial
  unfold inspect
  dsimp only
  split
  · refine .bind (.perform trivial) fun intact => ?_
    split
    · exact hpoison
    · exact .bind (.perform trivial) fun _ => hpoison
  · exact hpoison

theorem deallocate_blind (hdr : Nat) (decision : ReleaseDecision) : (deallocate host t hdr decision).All Blind := by
  unfold deallocate
  split
  · trivial
  refine .bind (.perform trivial) fun h => ?_
  split
  · unfold deallocatePooled
    split
    · trivial
    refine .bind (.perform trivial) fun page => ?_
    split
    · trivial
    refine .bind (.perform trivial) fun _ => .bind (inspect_blind hdr h decision) fun _ => ?_
    refine .branch (enqueueRemoteFree_blind hdr h) trivial fun queued => ?_
    beta_reduce
    split
    · trivial
    refine .branch (.perform trivial) trivial fun cached => ?_
    beta_reduce
    split
    · trivial
    · exact .perform trivial
  · refine .bind (.perform trivial) fun _ => .bind (inspect_blind hdr h decision) fun _ => ?_
    split
    · exact .perform trivial
    refine .branch (.perform trivial) trivial fun cached => ?_
    beta_reduce
    split
    · trivial
    · exact .bind (.perform trivial) fun _ => .bind (.perform trivial) fun _ => .perform trivial

theorem release_blind (hdr : Nat) (h : Header) : (release host t hdr h).All Blind :=
  .bind (.perform trivial) fun _ => deallocate_blind host t hdr _

theorem reallocate_blind (hdr newSize : Nat) : (reallocate host t hdr newSize).All Blind := by
  refine .bind (.perform trivial) fun h => ?_
  split
  · trivial
  refine .bind (allocateBy_blind host _ _) fun result => ?_
  split
  · trivial
  · exact .bind (.perform trivial) fun _ => .bind (.perform trivial) fun _ => .bind (release_blind host t hdr h) fun _ => trivial

variable {host}

/-- A selector that is fixed or manual performs no step. -/
theorem selector_blind (hsel : host.cfg.selector = .fixed ∨ host.cfg.selector = .manual) :
    (adaptiveSelectorMaybeSwitch host).All Blind := by
  unfold adaptiveSelectorMaybeSwitch
  rw [if_pos hsel]
  trivial

theorem adaptiveFree_blind (hsel : host.cfg.selector = .fixed ∨ host.cfg.selector = .manual) (ptr : Nat) :
    (adaptiveFree host t ptr).All Blind := by
  unfold adaptiveFree
  split
  · trivial
  refine .bind (.perform trivial) fun _ => .bind (headerFromUser_blind ptr) fun hdr => ?_
  split
  · exact .bind (.perform trivial) fun _ => selector_blind hsel
  · exact .bind (.perform trivial) fun h => .bind (release_blind host t hdr h) fun _ => selector_blind hsel

theorem adaptiveRealloc_blind (hsel : host.cfg.selector = .fixed ∨ host.cfg.selector = .manual) {ptr : Nat} (h0 : ptr ≠ 0)
    (size : Nat) : (adaptiveRealloc host t ptr size).All Blind := by
  refine .bind (.perform trivial) fun _ => ?_
  rw [if_neg h0]
  split
  · exact .bind (adaptiveFree_blind t hsel ptr) fun _ => trivial
  refine .bind (headerFromUser_blind ptr) fun hdr => ?_
  split
  · exact .bind (.perform trivial) fun _ => trivial
  · exact reallocate_blind host t hdr size

theorem adaptiveUsableSize_blind (ptr : Nat) : (adaptiveUsableSize host ptr).All Blind := by
  unfold adaptiveUsableSize
  split
  · trivial
  refine .bind (headerFromUser_blind ptr) fun hdr => ?_
  split
  · trivial
  · exact .bind (.perform trivial) fun _ => trivial

end facade

/-! ## Two runs -/

/-- The calls on pointers. -/
inductive PointerCall where
  | free (ptr : Nat)
  | realloc (ptr size : Nat) (nonnull : ptr ≠ 0)
  | usableSize (ptr : Nat)

/-- An entry of a sequence of calls: a call of some thread on a pointer, or a switch in between. -/
inductive Item (τ : Type) where
  | call (t : τ) (c : PointerCall)
  | setMode (t : τ) (mode : Nat)

def Item.isCall : Item τ → Bool
  | .call _ _ => true
  | .setMode _ _ => false

section runs
variable (host : Host τ)

def PointerCall.body (t : τ) : PointerCall → P Nat
  | .free ptr => do
    adaptiveFree host t ptr
    pure 0
  | .realloc ptr size _ => adaptiveRealloc host t ptr size
  | .usableSize ptr => adaptiveUsableSize host ptr

theorem PointerCall.blind {host : Host τ} (hsel : host.cfg.selector = .fixed ∨ host.cfg.selector = .manual) (t : τ)
    (c : PointerCall) : (c.body host t).All Blind := by
  cases c with
  | free ptr => exact .bind (adaptiveFree_blind t hsel ptr) fun _ => trivial
  | realloc ptr size h0 => exact adaptiveRealloc_blind t hsel h0 size
  | usableSize ptr => exact adaptiveUsableSize_blind ptr

variable [DecidableEq τ]

/-- The sequence, one call after the other: what the calls on pointers return, and the state they leave. -/
def runItems : List (Item τ) → State τ → List Nat × State τ
  | [], s => ([], s)
  | .call t c :: items, s =>
    let r := (c.body host t).run (exec host t) s
    let rest := runItems items r.2
    (r.1 :: rest.1, rest.2)
  | .setMode t mode :: items, s => runItems items ((adaptiveSetMode mode).run (exec host t) s).2

theorem alike_setMode (t : τ) (mode : Nat) (s : State τ) : Alike s ((adaptiveSetMode mode).run (exec host t) s).2 := by
  unfold adaptiveSetMode
  split
  · exact .refl s
  · rename_i new _
    unfold adaptiveActivateMode
    rw [Prog.run_bind]
    split
    · exact ⟨_, _, rfl⟩
    · exact ⟨_, _, rfl⟩

variable {host}

theorem runItems_alike (hsel : host.cfg.selector = .fixed ∨ host.cfg.selector = .manual) (items : List (Item τ))
    {s s' : State τ} (h : Alike s s') :
    SameRun (runItems host items s) (runItems host (items.filter Item.isCall) s') := by
  induction items generalizing s s' with
  | nil => exact ⟨rfl, h⟩
  | cons item items ih =>
    cases item with
    | call t c =>
      have hstep : ∀ a, Blind a → ∀ s s' : State τ, Alike s s' → SameRun (exec host t a s) (exec host t a s') :=
        fun a ha s s' h => Alike.exec host t h ha
      have hcall := (c.blind hsel t).run_rel hstep h
      obtain ⟨hans, hs⟩ := ih hcall.2
      rw [List.filter_cons_of_pos rfl, runItems, runItems]
      exact ⟨List.cons_eq_cons.mpr ⟨hcall.1, hans⟩, hs⟩
    | setMode t mode =>
      rw [List.filter_cons_of_neg Bool.false_ne_true, runItems]
      exact ih ((alike_setMode host t mode s).symm.trans h)

/-- With a fixed or manual selector, switches between calls on pointers change neither what the calls
return nor what becomes of the memory services. -/
theorem soft_switch (host : Host τ) (hsel : host.cfg.selector = .fixed ∨ host.cfg.selector = .manual)
    (items : List (Item τ)) (s : State τ) :
    (runItems host items s).1 = (runItems host (items.filter Item.isCall) s).1 ∧
      Alike (runItems host items s).2 (runItems host (items.filter Item.isCall) s).2 :=
  runItems_alike hsel items (.refl s)

end runs

/-- A process that is started in the balanced mode, without memory. -/
def balancedHost : Host Unit :=
  { barrenHost Unit with cfg := initOnce ⟨none, none, none, none, none, some "balanced", none, none⟩ }

/-- A switch between two of its calls. -/
theorem soft_switch_balanced : balancedHost.cfg.selector = .fixed ∧
    (runItems balancedHost [.call () (.free 4096), .setMode () 3, .call () (.usableSize 4096)]
      (initState balancedHost)).1 =
    (runItems balancedHost [.call () (.free 4096), .call () (.usableSize 4096)] (initState balancedHost)).1 :=
  ⟨by decide, (soft_switch balancedHost (.inl (by decide)) [.call () (.free 4096), .setMode () 3,
    .call () (.usableSize 4096)] (initState balancedHost)).1⟩

end MyMalloc.Adaptive
