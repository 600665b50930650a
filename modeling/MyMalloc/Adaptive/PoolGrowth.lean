import MyMalloc.Adaptive.Pools
import MyMalloc.Adaptive.Ownership

/- When a pool grows: `allocate_size_class` and `allocate_span` as one thread runs
   them, from any state.

   The thread cache is asked first, after a drain if frees are pending, and again
   after a second drain if its bin was empty. Nothing of that touches a page
   (`CacheStep`, `SamePools`), so what decides between an old page and a new one are
   the pages as they were before the call. -/
namespace MyMalloc.Adaptive

variable {τ : Type} [DecidableEq τ]

/-! ## The thread cache leaves the pages alone -/

/-- The steps of a drain, and of a block taken from the thread cache. -/
def CacheStep : Act → Prop
  | .loadPending | .fetchSubPending _ | .spliceBucket _ _ | .drainPush _ _ _ | .requeue _ => True
  | .popTcache _ _ | .finalizeCached _ _ _ _ | .registryInsert _ => True
  | _ => False

/-- The pages of all classes, and what is free in them, are the same. -/
structure SamePools (s s' : State τ) : Prop where
  pools : s'.pools = s.pools
  live : s'.liveCount = s.liveCount
  free : ∀ pg, s'.head (.free pg) = s.head (.free pg)

omit [DecidableEq τ] in
theorem SamePools.refl (s : State τ) : SamePools s s := ⟨rfl, rfl, fun _ => rfl⟩

omit [DecidableEq τ] in
theorem SamePools.trans {s₁ s₂ s₃ : State τ} (h : SamePools s₁ s₂) (h' : SamePools s₂ s₃) : SamePools s₁ s₃ :=
  ⟨h'.pools.trans h.pools, h'.live.trans h.live, fun pg => (h'.free pg).trans (h.free pg)⟩

theorem SamePools.pushTcache (t : τ) (hdr small medium : Nat) (s : State τ) :
    SamePools s (pushTcache t hdr small medium s).2 := by
  unfold Adaptive.pushTcache
  dsimp only
  split
  · exact .refl s
  split
  · exact .refl s
  · exact ⟨rfl, rfl, fun pg => by simp [binPush]⟩

theorem SamePools.popTcache (t : τ) (storage : StorageId) (cls : Nat) (s : State τ) :
    SamePools s (popTcache t storage cls s).2 := by
  unfold Adaptive.popTcache
  dsimp only
  split
  · exact .refl s
  · exact ⟨rfl, rfl, fun pg => by simp⟩

omit [DecidableEq τ] in
theorem SamePools.fetchSubPending (current : Nat) (s : State τ) : SamePools s (fetchSubPending current s) := by
  unfold Adaptive.fetchSubPending
  exact ⟨rfl, rfl, fun _ => rfl⟩

theorem SamePools.requeue (t : τ) (i : Nat) (s : State τ) : SamePools s (requeue t i s) := by
  unfold Adaptive.requeue
  -- the search for the tail has a bound that must not be evaluated
  generalize lastFrom 0 s.next (2^64) (s.head (.draining t)) = tail
  exact ⟨rfl, rfl, fun pg => by simp⟩

theorem drainLoop_cacheStep (small medium n list : Nat) : (drainLoop small medium n list).All CacheStep := by
  induction n generalizing list with
  | zero => trivial
  | succ n ih =>
    unfold drainLoop
    split
    · trivial
    refine .bind (.perform trivial) fun pushed => ?_
    cases pushed with
    | none => trivial
    | some next =>
      refine .bind (.perform trivial) fun pending => ?_
      split
      · exact .bind (.perform trivial) fun _ => ih next
      · exact ih next

theorem drainFrom_cacheStep (owner small medium n probe : Nat) : (drainFrom owner small medium n probe).All CacheStep := by
  induction n generalizing probe with
  | zero => trivial
  | succ n ih =>
    unfold drainFrom
    refine .bind (.perform trivial) fun list => ?_
    split
    · exact ih _
    refine .bind (drainLoop_cacheStep _ _ _ _) fun rest => ?_
    split
    · trivial
    · exact .perform trivial

theorem drainFor_cacheStep (req : AllocationRequest) : (drainFor req).All CacheStep := by
  unfold drainFor drainRemoteFreesFor
  split
  · trivial
  · exact drainFrom_cacheStep _ _ _ _ _

theorem drainIfPending_cacheStep (req : AllocationRequest) : (drainIfPending req).All CacheStep := by
  unfold drainIfPending
  split
  · refine .bind (.perform trivial) fun pending => ?_
    split
    · exact drainFor_cacheStep req
    · trivial
  · trivial

theorem takeCached_cacheStep (req : AllocationRequest) (storage : StorageId) (cls usable : Nat) :
    (takeCached req storage cls usable).All CacheStep := by
  have hfinish : ∀ cached, (finishCached req storage usable cached >>= fun r => pure (some r)).All CacheStep :=
    fun cached => .bind (.bind (.perform trivial) fun _ => .bind (.perform trivial) fun _ => trivial) fun _ => trivial
  unfold takeCached
  split
  · trivial
  refine .bind (drainIfPending_cacheStep req) fun _ => .bind (.perform trivial) fun cached => ?_
  split
  · exact hfinish cached
  split
  · refine .bind (drainFor_cacheStep req) fun _ => .bind (.perform trivial) fun cached => ?_
    split
    · exact hfinish cached
    · trivial
  · trivial

section
variable (host : Host τ) (t : τ) (req : AllocationRequest) (storage : StorageId) (cls : Nat)

variable {storage cls}

end

/-! ## The pages -/

section
variable (host : Host τ) (t : τ) {req : AllocationRequest} {storage : StorageId} {cls usable mappedSize : Nat}

end

/-! ## Growth -/

/-- The requests that `allocate_size_class` and `allocate_span` serve themselves, with their class. -/
inductive Routed (host : Host τ) (req : AllocationRequest) : StorageId → Nat → P AllocationResult → Prop where
  | sizeClass {cls usable : Nat} (halign : req.alignment ≤ 16) (hsize : req.size ≤ smallMax)
      (hclass : (smallClass req.size).val = some (cls, usable)) :
      Routed host req .sizeClass cls (allocateSizeClass host req)
  | span {cls usable : Nat} (halign : req.alignment ≤ 16) (hlow : smallMax < req.size) (hsize : req.size ≤ mediumMax)
      (hclass : (mediumClass req.size).val = some (cls, usable)) :
      Routed host req .span cls (allocateSpan host req)

section
variable {host : Host τ} {req : AllocationRequest} {storage : StorageId} {cls : Nat} {p : P AllocationResult}

omit [DecidableEq τ] in
theorem Routed.allocatePooled (h : Routed host req storage cls p) :
    validClass storage cls ∧ ∃ usable mappedSize, p = allocatePooled req storage cls usable mappedSize := by
  cases h with
  | @sizeClass cls usable halign hsize hclass =>
    have hvalid : cls < 64 := by
      have h16 : usable16 req.size ≤ 1024 := by
        have : req.size ≤ 1024 := hsize
        unfold usable16
        split <;> omega
      rw [smallClass_eq hsize, exactly_val] at hclass
      obtain ⟨rfl, -⟩ := Prod.mk.inj (Option.some.inj hclass)
      omega
    refine ⟨hvalid, usable, host.cfg.smallPageSize, ?_⟩
    unfold allocateSizeClass sizeClassBody
    rw [if_neg (not_or.mpr ⟨Nat.not_lt.mpr halign, Nat.not_lt.mpr hsize⟩), hclass]
    rfl
  | @span cls usable halign hlow hsize hclass =>
    have hvalid : cls < 63 := by
      have h1024 : mediumUsable req.size ≤ 65536 := by
        have : req.size ≤ 65536 := hsize
        unfold mediumUsable
        omega
      rw [mediumClass_eq hlow hsize, exactly_val] at hclass
      obtain ⟨rfl, -⟩ := Prod.mk.inj (Option.some.inj hclass)
      omega
    refine ⟨hvalid, usable, host.cfg.mediumSpanSize, ?_⟩
    unfold allocateSpan spanBody
    rw [if_neg (not_or.mpr ⟨Nat.not_lt.mpr halign, not_or.mpr ⟨Nat.not_le.mpr hlow, Nat.not_lt.mpr hsize⟩⟩), hclass]
    rfl

end

end MyMalloc.Adaptive
