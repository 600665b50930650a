import MyMalloc.Adaptive.Mapping

/- The pools: which empty pages are released, and which page a block is taken from. -/
namespace MyMalloc.Adaptive

variable {τ : Type} {host : Host τ} {s : State τ}

/-! ## Releasing pages -/

section releasing
variable [DecidableEq τ]

theorem releasePage_eq (storage : StorageId) (cls : Nat) {pg : Nat} (hz : s.liveCount pg = 0) :
    ∃ table stats, releasePage storage cls pg s = { s with
      pools := Function.update s.pools storage
        (Function.update (s.pools storage) cls ((s.pools storage cls).erase pg))
      table := table, stats := stats
      mapped := s.mapped.filter (·.base ≠ pg)
      head := Function.update s.head (.free pg) 0 } := by
  simp only [releasePage, if_neg (not_not.mpr hz), unregisterRegion, munmap]
  split
  · exact ⟨_, _, rfl⟩
  · exact ⟨_, _, rfl⟩

/-- Which release the locked section of `deallocate` makes: the page of the block alone, if
the mode gives memory back at once and the page has become empty; the surplus otherwise. -/
theorem centralFree_eq (b pg : Nat) (storage : StorageId) (cls : Nat) (action : ReleaseAction)
    (keep : Nat) (s : State τ) :
    centralFree b pg storage cls action keep s =
      if (action = .purge ∨ action = .unmap) ∧ (centralPush b pg s).liveCount pg = 0 ∧
          pg ∈ (centralPush b pg s).pools storage cls then
        (releaseTargetEmpty storage cls pg (centralPush b pg s)).2
      else releaseEmpty storage cls (if action = .purge ∨ action = .unmap then 0 else keep)
        (centralPush b pg s) := by
  unfold centralFree
  dsimp only
  generalize centralPush b pg s = s₁
  by_cases hd : action = .purge ∨ action = .unmap
  · have hb : (action == .purge || action == .unmap) = true := by simpa using hd
    simp only [hb, hd, true_and, if_true]
    unfold releaseTargetEmpty
    by_cases hp : s₁.liveCount pg = 0 ∧ pg ∈ s₁.pools storage cls
    · rw [if_pos hp, if_neg (by tauto)]
    · rw [if_neg hp, if_pos (by tauto)]
  · have hb : (action == .purge || action == .unmap) = false := by simpa using hd
    simp only [hb, hd, false_and, if_false, Bool.false_eq_true]

end releasing

/-! ## Choosing a page -/

variable [DecidableEq τ] {t : τ} {req : AllocationRequest} {storage : StorageId} {cls usable mappedSize pg : Nat}
  {s' : State τ}

/-- The three ways through the locked section of an allocation: a page has a free block, -/
theorem poolTake_some (host : Host τ) (h : selectPoolPage (s.pools storage cls) req s = some pg) :
    poolTake host t req storage cls usable mappedSize s =
      takeFrom t req storage cls usable pg false 0 s := by
  simp only [poolTake, h]

/-- no page has one and no page can be made, -/
theorem poolTake_failed (h : selectPoolPage (s.pools storage cls) req s = none)
    (hc : createPoolPage host req.mode storage cls usable mappedSize s = (none, s')) :
    poolTake host t req storage cls usable mappedSize s = (none, s') := by
  rw [poolTake, h]
  generalize createPoolPage host req.mode storage cls usable mappedSize s = made at hc ⊢
  rw [hc]

/-- or the block comes from a new page. -/
theorem poolTake_created (h : selectPoolPage (s.pools storage cls) req s = none)
    (hc : createPoolPage host req.mode storage cls usable mappedSize s = (some pg, s')) :
    poolTake host t req storage cls usable mappedSize s =
      takeFrom t req storage cls usable pg true mappedSize { s' with
        pools := Function.update s'.pools storage
          (Function.update (s'.pools storage) cls (pg :: s'.pools storage cls)) } := by
  rw [poolTake, h]
  generalize createPoolPage host req.mode storage cls usable mappedSize s = made at hc ⊢
  rw [hc]

end MyMalloc.Adaptive
