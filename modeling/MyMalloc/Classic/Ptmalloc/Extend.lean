import MyMalloc.Classic.Ptmalloc.Fresh

/- Strategies 3 to 7 in an arena with empty bins, and new arenas. -/
namespace MyMalloc.Ptmalloc.Words

open Exec

variable {τ : Type} {R : Regime} {s : State τ} {B : Blocks τ} {L : τ → Nat → List Nat}
  {host : Host} {k nb raw len : Nat} {t : τ}

/-- A heap whose chunks start `off` bytes into a new region. -/
theorem heapIn (hfit : MapFits raw len s.regions) {off usable : Nat} (hoff : 16 ∣ off)
    (hu : 16 ∣ usable) (hlen : off + usable + 32 ≤ len) :
    (⟨raw, len, k, raw + off, raw + off + usable⟩ : Heap).In raw len := by
  obtain ⟨-, hpos, hal, hup, -⟩ := hfit
  have h16 : 16 ∣ raw := Nat.dvd_trans (by decide) hal
  exact ⟨rfl, rfl, ⟨Nat.le_add_right _ _, by dsimp only; omega, Nat.pos_of_ne_zero hpos, hup,
    Nat.dvd_add h16 hoff⟩, Nat.dvd_add (Nat.dvd_add h16 hoff) hu⟩

theorem firstChunk_eq (hfit : MapFits raw len s.regions) : firstChunk raw = raw + 48 := by
  obtain ⟨-, -, hal, hup, -⟩ := hfit
  have h16 : 16 ∣ raw := Nat.dvd_trans (by decide) hal
  have h48 : heapInfoSize = 48 := rfl
  have h15 : mallocAlignMask = 15 := rfl
  unfold firstChunk
  rw [maskOff_align (by omega)]
  omega

/-! ## A block in a new heap -/

/-- The state after `carve` in a new heap of an arena that had no top chunk. -/
theorem Inv.grown (inv : Inv R s B L) (nb : Nat) (t : τ) (hfit : MapFits raw len s.regions) {g : Heap}
    (hg : g.In raw len) (howner : g.arena < s.narenas) (htop0 : (s.arena g.arena).top = 0)
    (hlow : 32 ≤ nb) (hd : 16 ∣ nb) (hmax : nb ≤ R.maxChunk)
    (hroom : g.first + nb + 32 ≤ g.fence) :
    ∃ B', Inv R (s.grown g raw len nb) B' L ∧
      Outcome nb t s B L (some (g.first + chunkHeader)) (s.grown g raw len nb) B' L := by
  have hal := hg.fits.aligned
  have hal' := hg.aligned
  obtain ⟨hf, hh, hh'⟩ : Head (carveMem (s.mapRegion raw len).mem g nb) g.fence 32 ∧
      Head (carveMem (s.mapRegion raw len).mem g nb) g.first nb ∧
      Head (carveMem (s.mapRegion raw len).mem g nb) (g.first + nb) (g.fence - (g.first + nb)) :=
    carveMem_heads hlow hd hroom (by omega)
  have hmem : ∀ a, a < raw ∨ raw + len ≤ a → carveMem (s.mapRegion raw len).mem g nb a = s.mem a :=
    fun a ha => carveMem_off hg hroom ha
  have hinv := inv.freshHeap hfit hg howner htop0 hmem hf
    (lays_blockAndTop hlow hd hroom (by omega) hmax hh hh') (s.mmapCalls + 1)
  have hmem' : grownMem s (carveMem (s.mapRegion raw len).mem g nb) g.arena =
      carveMem (s.mapRegion raw len).mem g nb := if_pos htop0
  unfold State.grown
  rw [hmem']
  refine ⟨_, { hinv with threshold := le_adjusted inv.threshold }, .of_layout (fun x n => inv.fresh_off hfit hg)
    (fun p hp => ?_) (fun x n hx => ?_) (fun x n hx => iff_of_eq (congrArg (· = 0) (inv.key_kept hfit hmem hx)))
    (fun _ h => List.mem_cons_of_mem _ h) rfl⟩
  · exact ⟨g.first, nb, (Option.some.inj hp).symm, Nat.le_refl _, by omega, blockAndTop_block, Nat.le_refl _⟩
  · rcases blockAndTop_cases hx with ⟨rfl, -⟩ | ⟨-, h⟩
    · rfl
    · cases h

theorem extendSize_eq (h : nb + 64 ≤ heapMaxSize) : extendSize nb = heapMaxSize := by
  have h32 : minsize = 32 := rfl
  have hheap : heapMaxSize = 1048576 := rfl
  have hsum : (nb + 2 * minsize) % 2^64 = nb + 64 := by omega
  unfold extendSize
  rw [hsum, Nat.max_eq_right (by omega)]
  decide +kernel

/-- The mapping of a heap for an arena other than the main one. -/
def newHeapLen : Nat := 1052672

theorem newHeap_none (h : mmapAnswer host newHeapLen s = none) :
    newHeap host heapMaxSize s = some (none, s.mapRefused) := by
  have hlen : pageRound (max ((heapInfoSize + heapMaxSize) % 2^64) heapMinSize) = newHeapLen := by
    decide +kernel
  have hround : pageRound newHeapLen = newHeapLen := by decide +kernel
  unfold newHeap
  rw [hlen, bind_run (sysMap_none (by rw [hround]; exact h))]
  rfl

theorem newHeap_some (h : mmapAnswer host newHeapLen s = some raw) :
    newHeap host heapMaxSize s = some (some (raw, newHeapLen), s.mapRegion raw newHeapLen) := by
  have hlen : pageRound (max ((heapInfoSize + heapMaxSize) % 2^64) heapMinSize) = newHeapLen := by
    decide +kernel
  have hround : pageRound newHeapLen = newHeapLen := by decide +kernel
  unfold newHeap
  rw [hlen, bind_run (sysMap_some (by rw [hround]; exact h)), hround]
  rfl

/-- The mapping that extends arena `k`, and the heap in it. -/
def extendLen (k : Nat) : Nat := if k = 0 then heapMaxSize else newHeapLen

def extendHeap (k raw : Nat) : Heap :=
  if k = 0 then ⟨raw, heapMaxSize, k, raw + 0, raw + 0 + 1048544⟩
  else ⟨raw, newHeapLen, k, raw + 48, raw + 48 + 1048496⟩

theorem extendHeap_in (hfit : MapFits raw (extendLen k) s.regions) : (extendHeap k raw).In raw (extendLen k) := by
  by_cases hk : k = 0
  · simp only [extendHeap, extendLen, if_pos hk] at hfit ⊢
    exact heapIn hfit (by decide) (by decide) (by decide)
  · simp only [extendHeap, extendLen, if_neg hk] at hfit ⊢
    exact heapIn hfit (by decide) (by decide) (by decide)

theorem extendHeap_arena : (extendHeap k raw).arena = k := by
  unfold extendHeap
  split <;> rfl

theorem extendHeap_room (hnb : nb < 524288) : (extendHeap k raw).first + nb + 32 ≤ (extendHeap k raw).fence := by
  unfold extendHeap
  split <;> (dsimp only; omega)

/-- Strategy 7, where the system gives no memory. -/
theorem fromSystem_refused (hnb : nb < s.mmapThreshold) (hmax : nb < 524288)
    (hans : mmapAnswer host (extendLen k) s = none) : fromSystem host k nb s = some (none, s.mapRefused) := by
  have hheap : heapMaxSize = 1048576 := rfl
  have hext : extendSize nb = heapMaxSize := extendSize_eq (by omega)
  unfold fromSystem
  rw [gets_bind, if_neg (Nat.not_le.mpr hnb), hext]
  unfold extendLen at hans
  by_cases hk : k = 0
  · have hround : pageRound heapMaxSize = heapMaxSize := by decide +kernel
    rw [if_pos hk] at hans
    rw [if_neg (not_not_intro hk), bind_run (sysMap_none (by rw [hround]; exact hans))]
    rfl
  · rw [if_neg hk] at hans
    rw [if_pos hk, bind_run (newHeap_none hans)]
    rfl

/-- Strategy 7, with a new heap. -/
theorem fromSystem_grown (hnb : nb < s.mmapThreshold) (hmax : nb < 524288) (hlow : 32 ≤ nb)
    (hlinks : TopLinked s k) (hans : mmapAnswer host (extendLen k) s = some raw) :
    fromSystem host k nb s = some (some ((extendHeap k raw).first + chunkHeader),
      s.grown (extendHeap k raw) raw (extendLen k) nb) := by
  have hheap : heapMaxSize = 1048576 := rfl
  have h32 : minsize = 32 := rfl
  have hext : extendSize nb = heapMaxSize := extendSize_eq (by omega)
  have hfit := mmapAnswer_fits hans
  have hrun := carve_grown (extendHeap_in hfit) hfit hlow (extendHeap_room hmax) (by rw [extendHeap_arena]; exact hlinks)
  unfold fromSystem
  rw [gets_bind, if_neg (Nat.not_le.mpr hnb), hext]
  unfold extendLen extendHeap at *
  by_cases hk : k = 0
  · have hround : pageRound heapMaxSize = heapMaxSize := by decide +kernel
    rw [if_pos hk] at hans
    simp only [if_pos hk, Nat.add_zero, Nat.add_sub_cancel_left] at hrun ⊢
    rw [if_neg (not_not_intro hk), bind_run (sysMap_some (by rw [hround]; exact hans)), hround]
    exact hrun
  · rw [if_neg hk] at hans hfit
    simp only [if_neg hk, Nat.add_sub_cancel_left] at hrun ⊢
    rw [if_pos hk, bind_run (newHeap_some hans)]
    dsimp only
    rw [firstChunk_eq hfit, Nat.add_sub_cancel_left, if_neg (by omega)]
    exact hrun

/-- Strategy 7 for an arena without a top chunk. -/
theorem Inv.fromSystem (inv : Inv R s B L) (hk : k < s.narenas) (htop0 : (s.arena k).top = 0)
    (hlow : 32 ≤ nb) (hd : 16 ∣ nb) (hmax : nb ≤ R.maxChunk) :
    ∃ r s' B', Words.fromSystem host k nb s = some (r, s') ∧ Inv R s' B' L ∧
      Outcome nb t s B L r s' B' L := by
  have h1024 : minLargeSize = 1024 := rfl
  have hmin : defaultMmapThresholdMin = 4096 := rfl
  have hsmall := R.small
  have hth := inv.threshold
  cases hans : mmapAnswer host (extendLen k) s with
  | none =>
    exact ⟨none, _, B, fromSystem_refused (by omega) (by omega) hans, inv.mapRefused, Outcome.idle rfl rfl rfl⟩
  | some raw =>
    have hfit := mmapAnswer_fits hans
    obtain ⟨B', hinv, hout⟩ := inv.grown nb t hfit (extendHeap_in hfit) (by rw [extendHeap_arena]; exact hk)
      (by rw [extendHeap_arena]; exact htop0) hlow hd hmax (extendHeap_room (by omega))
    exact ⟨_, _, B', fromSystem_grown (by omega) (by omega) hlow (.inl htop0) hans, hinv, hout⟩

/-- Strategies 3 to 7 in an arena with empty bins: the top chunk, or a new heap. -/
theorem Inv.fromArena (inv : Inv R s B L) (host : Host) (hk : k < s.narenas) (hserve : TopServes R.slack s k nb)
    (hlow : 32 ≤ nb) (hd : 16 ∣ nb) (hmax : nb ≤ R.maxChunk) :
    ∃ r s' B', Words.fromArena host k nb s = some (r, s') ∧ Inv R s' B' L ∧
      Outcome nb t s B L r s' B' L := by
  have hnb : nb < minLargeSize := Nat.lt_of_le_of_lt hmax R.small
  unfold Words.fromArena
  rw [orElse_none (inv.fromSmallbins_run hk hnb), orElse_none (inv.fromUnsorted_run hk),
    orElse_none (fromLargebins_run hnb)]
  by_cases htop : (s.arena k).top = 0
  · rw [orElse_none (fromTop_none htop)]
    exact inv.fromSystem hk htop hlow hd hmax
  · obtain ⟨m, hm, -⟩ := inv.top_heap hk htop
    have hsize : s.sizeAt (s.arena k).top = m := inv.cells.sizeBits_eq hm
    have hroom : nb + R.slack ≤ m := by rw [← hsize]; exact hserve.resolve_left htop
    obtain ⟨r, s', B', hrun, hinv, hout, hr⟩ : ∃ r s' B', fromTop k nb s = some (r, s') ∧
        Inv R s' B' L ∧ Outcome nb t s B L r s' B' L ∧ r ≠ none := by
      by_cases hcut : nb + 32 ≤ m
      · exact inv.fromTop_cut hk htop hm hlow hd hmax hcut
      · refine inv.fromTop_fill hk htop hm ?_ (by omega) (by omega)
        by_contra hg
        have := (R.unguarded (Bool.eq_false_iff.mpr hg)).2
        omega
    obtain ⟨p, rfl⟩ := Option.ne_none_iff_exists'.mp hr
    exact ⟨some p, s', B', orElse_some hrun, hinv, hout⟩

/-! ## New arenas -/

theorem initBins_sentinel {mem : Nat → Nat} {base i : Nat} (hi : i < nBins) :
    initBins base mem (sentinel base i + 16) = sentinel base i := by
  have h128 : nBins = 128 := rfl
  unfold initBins sentinel
  rw [if_pos (by omega)]
  omega

/-- The state with a new arena at `base`, before it has a heap. -/
def State.bareArena (s : State τ) (base len : Nat) : State τ :=
  { s.mapRegion base len with
    mem := initBins base (s.mapRegion base len).mem
    arena := Function.update s.arena s.narenas { noArena with base := base }
    narenas := s.narenas + 1 }

theorem Inv.bareArena (inv : Inv R s B L) (nb : Nat) (t : τ) {base : Nat} (hfit : MapFits base len s.regions)
    (hlen : 2168 ≤ len) :
    Inv R (s.bareArena base len) B L ∧ Outcome nb t s B L none (s.bareArena base len) B L := by
  have h128 : nBins = 128 := rfl
  have hmem : ∀ a, a < base ∨ base + len ≤ a →
      initBins base (s.mapRegion base len).mem a = s.mem a := by
    intro a ha
    unfold initBins
    rw [if_neg (by omega)]
    exact if_neg (by omega)
  refine ⟨(inv.addRegion hfit hmem (s.mmapCalls + 1)).addArena hlen List.mem_cons_self ?_
    (fun i hi => initBins_sentinel hi), nofun, fun _ _ h => h, fun _ _ h => Or.inl h, ?_,
    fun _ _ => rfl, fun _ h => List.mem_cons_of_mem _ h, fun _ h => h⟩
  · intro g hg heq
    have hap := hfit.apart _ (inv.homes g hg)
    rw [heq] at hap
    unfold Region.Apart at hap
    dsimp only at hap
    omega
  · intro x n hx
    have hkey : initBins base (s.mapRegion base len).mem (x + 56) = s.mem (x + 56) :=
      inv.key_kept hfit hmem hx
    exact iff_of_eq (congrArg (· = 0) hkey)

theorem Inv.seedArena (inv : Inv R s B L) (host : Host) (nb : Nat) (t : τ) (hk : k < s.narenas) (htop0 : (s.arena k).top = 0) :
    ∃ s' B', Words.seedArena host k s = some ((), s') ∧ Inv R s' B' L ∧
      Outcome nb t s B L none s' B' L ∧ s'.narenas = s.narenas ∧ s'.threadArena = s.threadArena ∧
      s'.mainLocked = s.mainLocked ∧
      ((s'.arena k).top = 0 ∨ s'.sizeAt (s'.arena k).top = 1052592) := by
  unfold Words.seedArena
  cases hans : mmapAnswer host newHeapLen s with
  | none =>
    rw [bind_run (newHeap_none hans)]
    exact ⟨_, B, rfl, inv.mapRefused, Outcome.idle rfl rfl rfl, rfl, rfl, rfl, Or.inl htop0⟩
  | some raw =>
    have hfit := mmapAnswer_fits hans
    have h32 : minsize = 32 := rfl
    have hlen : newHeapLen = 1052672 := rfl
    have hg : (⟨raw, newHeapLen, k, raw + 48, raw + 48 + 1052592⟩ : Heap).In raw newHeapLen :=
      heapIn hfit (by decide) (by decide) (by decide)
    obtain ⟨s', B', hrun, hinv, hout, h1, h2, h3, htop, hsize⟩ := inv.layTop nb t
      hfit hg hk htop0 (by dsimp only; omega)
    refine ⟨s', B', ?_, hinv, hout, h1, h2, h3, Or.inr ?_⟩
    · rw [bind_run (newHeap_some hans)]
      dsimp only
      rw [firstChunk_eq hfit, if_neg (by omega),
        show raw + newHeapLen - (raw + 48) - minsize = 1052592 by omega]
      exact hrun
    · dsimp only at htop hsize
      rw [htop, hsize]
      omega

theorem Inv.newArena (inv : Inv R s B L) (nb : Nat) (t : τ) (hfresh : FreshServes host s) :
    ∃ s' B', Words.newArena host s = some (some s.narenas, s') ∧ Inv R s' B' L ∧
      Outcome nb t s B L none s' B' L ∧ s'.narenas = s.narenas + 1 ∧
      s'.threadArena = s.threadArena ∧ s'.mainLocked = s.mainLocked ∧
      ∀ n slack, n + slack ≤ 1052592 → TopServes slack s' s.narenas n := by
  obtain ⟨hlt, hsome⟩ := hfresh
  obtain ⟨base, hbase⟩ := Option.isSome_iff_exists.mp hsome
  have hfit := mmapAnswer_fits hbase
  have hlen : 2168 ≤ pageRound arenaSize := by decide +kernel
  obtain ⟨hinv₁, hout₁⟩ := inv.bareArena nb t hfit hlen
  have htop0 : ((s.bareArena base (pageRound arenaSize)).arena s.narenas).top = 0 := by
    unfold State.bareArena
    dsimp only
    rw [Function.update_self]
    rfl
  obtain ⟨s', B', hrun, hinv, hout, h1, h2, h3, htop⟩ := hinv₁.seedArena host nb t
    (Nat.lt_succ_self s.narenas) htop0
  refine ⟨s', B', ?_, hinv, hout₁.trans hout, h1, h2, h3, fun n slack hn => ?_⟩
  · have hgets : gets State.narenas s = some (s.narenas, s) := rfl
    have hinit : ∀ s₁ : State τ, arenaInit s.narenas base s₁ = some ((), { s₁ with
        mem := initBins base s₁.mem
        arena := Function.update s₁.arena s.narenas { noArena with base := base } }) := fun _ => rfl
    have hcount : ∀ s₁ : State τ, (Exec.modify (fun s' : State τ => { s' with
        narenas := s.narenas + 1 })) s₁ = some ((), { s₁ with narenas := s.narenas + 1 }) :=
      fun _ => rfl
    unfold Words.newArena
    rw [bind_run hgets, if_neg (by omega), bind_run (sysMap_some hbase)]
    dsimp only
    rw [bind_run (hinit _), bind_run (hcount _)]
    exact bind_run hrun
  · exact htop.imp id (fun h => by rw [h]; exact hn)

end MyMalloc.Ptmalloc.Words
