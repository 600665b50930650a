import MyMalloc.Classic.Ptmalloc.Available

/- Whether a block has the bytes that were asked for.

   Up to 1000 bytes `pt_malloc` returns null or a block with as many usable bytes, in
   runs that keep to the tcaches and the top chunks (`enough_iff`). A longer request
   goes on to the large bins, of which the last one is past the end of the array; its
   index into the tcache keeps 32 bits, so that one of 64 GiB and a few bytes is served
   with a small chunk, and at the end of the range the size wraps to the smallest chunk. -/
namespace MyMalloc.Ptmalloc.Words

open Exec

variable {τ : Type} {R : Regime} {s : State τ} {B : Blocks τ} {L : τ → Nat → List Nat}
  {host : Host} {k n nb : Nat} {t : τ}

/-- `pt_malloc(n)` returns null or a pointer to at least `n` usable bytes. -/
def Enough [DecidableEq τ] (host : Host) (t : τ) (n : Nat) (s : State τ) : Prop :=
  Returns (ptMalloc host t n) s (fun r s' => ∀ p, r = some p → n ≤ s'.usable p)

/-- Chunks up to 1008 bytes, which may be lost, and writes off the size fields. -/
def lossy : Regime := { lossless with lossy := true }

/-! ## Large requests -/

/-- The search of the large bins ends at one that is past the end of the array. -/
theorem Inv.fromLargebins_fault (inv : Inv R s B L) (hk : k < s.narenas) (hnb : minLargeSize ≤ nb) :
    fromLargebins k nb s = none := by
  have h128 : nBins = 128 := rfl
  have hbin : ∀ li, li ≠ 62 → li < nLargebins → splitFrom k nb li s = some (none, s) := by
    intro li hne hlt
    have h63 : nLargebins = 63 := rfl
    have hi : unsortedBinIdx + 1 + nSmallbins + li < nBins := by
      have : unsortedBinIdx + 1 + nSmallbins = 66 := rfl
      omega
    have hlarge : largeBin k li s =
        some (sentinel (s.arena k).base (unsortedBinIdx + 1 + nSmallbins + li), s) := by
      unfold largeBin
      rw [if_neg (by omega), bind_run getArenaRec_run]
      rfl
    unfold splitFrom
    rw [bind_run hlarge, bind_run (inv.binEmpty_run hk hi), if_pos rfl]
    rfl
  have hlast : splitFrom k nb 62 s = none := by
    unfold splitFrom
    exact bind_none rfl
  have hin : 62 ∈ (List.range nLargebins).filter (fun i => decide (largebinIndex nb ≤ i)) :=
    List.mem_filter.mpr ⟨by decide, decide_eq_true (Nat.min_le_right _ _)⟩
  have hsplit : allocSplit k nb s = none := by
    refine firstFound_fault (fun li hli => ?_) hin hlast
    have hlt := List.mem_range.mp (List.mem_filter.mp hli).1
    by_cases h62 : li = 62
    · exact Or.inr (h62 ▸ hlast)
    · exact Or.inl (hbin li h62 hlt)
  unfold fromLargebins
  rw [if_neg (by omega)]
  exact bind_none hsplit

theorem Inv.fromArena_fault (inv : Inv R s B L) (host : Host) (hk : k < s.narenas)
    (hnb : minLargeSize ≤ nb) : Words.fromArena host k nb s = none := by
  have hsmall : fromSmallbins k nb s = some (none, s) := by
    unfold fromSmallbins
    rw [if_pos hnb]
    rfl
  unfold Words.fromArena
  rw [orElse_none hsmall, orElse_none (inv.fromUnsorted_run hk)]
  exact bind_none (inv.fromLargebins_fault hk hnb)

section
variable [DecidableEq τ]

/-- A large request of a thread without an arena has no result. -/
theorem Inv.ptMalloc_fault (inv : Inv R s B L) (hown : s.threadArena t = none)
    (hl : s.mainLocked = false) (hmiss : ¬ Cached s t (chunkFor n))
    (hnb : minLargeSize ≤ chunkFor n) : Words.ptMalloc host t n s = none := by
  have h1024 : minLargeSize = 1024 := rfl
  have hfast : maxFastSize < chunkFor n := by
    have : maxFastSize = 160 := rfl
    omega
  have hown₁ : (Words.withTcache s t).threadArena t = none := hown
  have hl₁ : (Words.withTcache s t).mainLocked = false := hl
  have inv₁ := ((inv.withTcache t).locked true).setThread (t := t) inv.main
  unfold Words.ptMalloc
  rw [bind_run (ptMallocInit_run inv.started)]
  change orElse (fromTcache t (chunkFor n)) (orElse (fromFastbins host t (chunkFor n))
    (fromChosen host t (chunkFor n))) s = none
  rw [orElse_none (fromTcache_miss hmiss), orElse_none (fromFastbins_large hfast)]
  unfold fromChosen
  rw [bind_run (chooseArena_get (Or.inl hown₁) (getArena_main (Or.inl hown₁) hl₁))]
  exact bind_none (inv₁.fromArena_fault host inv.main hnb)

end

/-- No memory but that of the main arena. -/
def barrenHost : Host := ⟨fun _ => none, 4096⟩

theorem barren_start : RegimeReach (τ := Unit) R barrenHost
    { bareMain barrenHost with mmapCalls := 1 } [] := by
  apply Reach.start
  rw [ptMallocInit_boot, bind_run (sysMap_none rfl)]
  rfl

/-- Above 1000 bytes a request that needs the large bins has no result. -/
theorem large_not_enough (hlow : 1000 < n) (hup : n < 2^64 - 23) :
    ∃ s : State Unit, RegimeReach lossy barrenHost s [] ∧
      Serves 0 barrenHost s () (chunkFor n) ∧ ¬ Enough barrenHost () n s := by
  have hsize : chunkFor n = n + 23 - (n + 23) % 16 := by
    unfold chunkFor
    rw [if_neg (by omega), request2size_exact hup]
    omega
  obtain ⟨B, L, inv, -⟩ := (barren_start (R := lossy)).inv
  refine ⟨_, barren_start, Or.inr ?_, ?_⟩
  · have hfast : ¬ chunkFor n ≤ maxFastSize := by
      have : maxFastSize = 160 := rfl
      omega
    show if chunkFor n ≤ maxFastSize then _ else _
    rw [if_neg hfast]
    exact Or.inl rfl
  · rintro ⟨r, s', hrun, -⟩
    have h1024 : minLargeSize = 1024 := rfl
    rw [inv.ptMalloc_fault rfl rfl (not_not_intro rfl) (by omega)] at hrun
    cases hrun

/-- At the end of the range the size wraps, and the block is the smallest there is. -/
theorem wrapped_not_enough (hlow : 2^64 - 23 ≤ n) (hup : n < 2^64) :
    ∃ s : State Unit, RegimeReach lossy spaciousHost s [] ∧
      Serves 0 spaciousHost s () (chunkFor n) ∧ ¬ Enough spaciousHost () n s := by
  have hsize : chunkFor n = 32 := by
    unfold chunkFor
    rw [if_neg (by omega), request2size_wrap hlow hup]
    rfl
  have heval : (runCalls lossy spaciousHost []).map (fun r : State Unit × List Nat => (r.2,
      decide (MallocFits lossy spaciousHost r.1 () 24),
      (ptMalloc spaciousHost () 24 r.1).map (fun x => (x.1, x.2.usable 50331744)))) =
      some ([], true, some (some 50331744, 24)) := by decide +kernel
  obtain ⟨⟨s, held⟩, hrun, heq⟩ := Option.map_eq_some_iff.mp heval
  obtain ⟨rfl, hfits, hres⟩ : held = [] ∧ decide (MallocFits lossy spaciousHost s () 24) = true ∧
      (ptMalloc spaciousHost () 24 s).map (fun x => (x.1, x.2.usable 50331744)) =
        some (some 50331744, 24) := by
    simpa only [Prod.mk.injEq] using heq
  obtain ⟨⟨r, s'⟩, hmalloc, heq'⟩ := Option.map_eq_some_iff.mp hres
  obtain ⟨rfl, husable⟩ := Prod.mk.inj heq'
  -- the call is the one for 24 bytes
  have hsame : ptMalloc spaciousHost () n s = ptMalloc spaciousHost () 24 s := by
    unfold ptMalloc
    rw [show request2size (if n = 0 then 1 else n) = chunkFor 24 from hsize]
    rfl
  refine ⟨s, reach_of_runCalls hrun, ?_, ?_⟩
  · rw [hsize]
    exact (of_decide_eq_true hfits).2
  · rintro ⟨r, s'', hrun', hle⟩
    rw [hsame, hmalloc] at hrun'
    obtain ⟨rfl, rfl⟩ := Prod.mk.inj (Option.some.inj hrun')
    have := hle _ rfl
    dsimp only at husable
    omega

/-! ## Requests that are served in full -/

/-- In every run that keeps to the tcaches and the top chunks, a request of at most 1000 bytes
    that is served from there returns null or enough bytes; no longer request does in all runs. -/
theorem enough_iff (n : UInt64) :
    (∀ (τ : Type) [DecidableEq τ] (host : Host) (s : State τ) (held : List Nat) (t : τ),
      RegimeReach lossy host s held → Serves 0 host s t (chunkFor n.toNat) →
        Enough host t n.toNat s) ↔ n ≤ 1000 := by
  have hlt : n.toNat < 2^64 := n.toNat_lt
  rw [UInt64.le_iff_toNat_le, show (1000 : UInt64).toNat = 1000 from rfl]
  constructor
  · intro h
    by_contra hgt
    by_cases hwrap : n.toNat < 2^64 - 23
    · obtain ⟨s, hreach, hserve, hnot⟩ := large_not_enough (by omega) hwrap
      exact hnot (h Unit barrenHost s [] () hreach hserve)
    · obtain ⟨s, hreach, hserve, hnot⟩ := wrapped_not_enough (by omega) hlt
      exact hnot (h Unit spaciousHost s [] () hreach hserve)
  · intro hle τ _ host s held t hreach hserve
    obtain ⟨B, L, inv, own⟩ := hreach.inv
    have hsize : n.toNat + 8 ≤ chunkFor n.toNat ∧ chunkFor n.toNat ≤ 1008 := by
      unfold chunkFor
      split
      · next h => rw [h]; decide +kernel
      · rw [request2size_exact (by omega)]
        omega
    obtain ⟨r, s', B', L', hrun, hinv, hout, -⟩ := inv.ptMalloc hsize.2 hserve
    refine ⟨r, s', hrun, fun p hp => ?_⟩
    obtain ⟨c, m, rfl, hm, hge, -⟩ := hout.grant p hp
    have h8 : sizeSz = 8 := rfl
    unfold State.usable
    rw [hinv.sizeAt_user hm]
    dsimp only
    omega

/-- A request of 64 GiB and 104 bytes is served with a chunk of 112 bytes off the tcache: both have
    the same index there. -/
theorem huge_request_not_enough : ∃ host s held, Reach (τ := Unit) host (fun _ _ => True) s held ∧
    ¬ Enough host () (2^36 + 104) s := by
  have heval : (runCalls lossy spaciousHost [.malloc () 100, .free () 50331744]).map
      (fun r => (ptMalloc spaciousHost () (2^36 + 104) r.1).map
        (fun x => (x.1, x.2.usable 50331744))) = some (some (some 50331744, 104)) := by
    decide +kernel
  obtain ⟨⟨s, held⟩, hrun, hres⟩ := Option.map_eq_some_iff.mp heval
  obtain ⟨⟨r, s'⟩, hmalloc, heq⟩ := Option.map_eq_some_iff.mp hres
  obtain ⟨rfl, husable⟩ := Prod.mk.inj heq
  refine ⟨spaciousHost, s, held, (reach_of_runCalls hrun).mono (fun _ _ _ => trivial), ?_⟩
  rintro ⟨r, s'', hrun', hle⟩
  rw [hmalloc] at hrun'
  obtain ⟨rfl, rfl⟩ := Prod.mk.inj (Option.some.inj hrun')
  have := hle _ rfl
  dsimp only at husable
  omega

end MyMalloc.Ptmalloc.Words
