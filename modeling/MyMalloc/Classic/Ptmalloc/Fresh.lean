import MyMalloc.Classic.Ptmalloc.Arenas
import MyMalloc.Classic.Ptmalloc.FreeLists

/- New memory: the heaps that strategy 7 and new arenas map.

   The memory of a new mapping is written before it is a heap, so each run is
   followed to its last state first; the invariant of that state then comes from
   `addRegion` and `addHeap`. -/
namespace MyMalloc.Ptmalloc.Words

open Exec

variable {τ : Type} {R : Regime} {s : State τ} {B : Blocks τ} {L : τ → Nat → List Nat}
  {host : Host} {k nb raw len size : Nat}

/-! ## Mappings -/

theorem mmapAnswer_fits (h : mmapAnswer host len s = some raw) : MapFits raw len s.regions := by
  unfold mmapAnswer at h
  rw [Option.filter_eq_some_iff] at h
  exact of_decide_eq_true h.2

/-- The state after a mapping. -/
def State.mapRegion (s : State τ) (raw len : Nat) : State τ :=
  { s with
    mmapCalls := s.mmapCalls + 1
    regions := ⟨raw, len⟩ :: s.regions
    mem := fun a => if raw ≤ a ∧ a < raw + len then 0 else s.mem a }

/-- The state after a mapping that the kernel refused. -/
def State.mapRefused (s : State τ) : State τ := { s with mmapCalls := s.mmapCalls + 1 }

theorem sysMap_none (h : mmapAnswer host (pageRound size) s = none) :
    sysMap host size s = some (none, s.mapRefused) := by
  unfold sysMap
  dsimp only
  rw [h]
  rfl

theorem sysMap_some (h : mmapAnswer host (pageRound size) s = some raw) :
    sysMap host size s = some (some raw, s.mapRegion raw (pageRound size)) := by
  unfold sysMap
  dsimp only
  rw [h]
  rfl

theorem mapped_new {a : Nat} (hlow : raw ≤ a) (hup : a + 8 ≤ raw + len) :
    (s.mapRegion raw len).mapped a = true :=
  Inv.mapped_of_region (r := ⟨raw, len⟩) List.mem_cons_self hlow hup

theorem Inv.mapRefused (inv : Inv R s B L) : Inv R s.mapRefused B L := { inv with }

/-! ## Heaps in new memory -/

/-- A heap in the middle of a new region. -/
structure Heap.In (g : Heap) (raw len : Nat) : Prop where
  start : g.start = raw
  size : g.size = len
  fits : g.Fits
  aligned : 16 ∣ g.fence

theorem Heap.In.inside {g : Heap} (hg : g.In raw len) : raw ≤ g.first ∧ g.fence + 32 ≤ raw + len := by
  have hlow := hg.fits.first
  have hup := hg.fits.fence
  rw [hg.start] at hlow hup
  rw [hg.size] at hup
  exact ⟨hlow, hup⟩

namespace Inv

/-- A word at an address below the fencepost of an old heap is not in the new region. -/
theorem key_kept (inv : Inv R s B L) (hfit : MapFits raw len s.regions) {mem' : Nat → Nat}
    (hmem : ∀ a, a < raw ∨ raw + len ≤ a → mem' a = s.mem a) {x : Nat} {b : Block τ}
    (hx : B x = some b) : mem' (x + 56) = s.mem (x + 56) := by
  have hsz := (inv.cells.laid.sizes x b hx).1
  obtain ⟨g, hg, h1, h2⟩ := inv.block_has hx (a := x + 56) (by omega) (by omega)
  have hap := hfit.apart _ (inv.homes g hg)
  unfold Region.Apart Heap.region at hap
  dsimp only at hap
  exact hmem _ (by omega)

theorem freshHeap (inv : Inv R s B L) (hfit : MapFits raw len s.regions) {g : Heap} (hg : g.In raw len)
    (howner : g.arena < s.narenas) (htop0 : (s.arena g.arena).top = 0) {mem' : Nat → Nat}
    (hmem : ∀ a, a < raw ∨ raw + len ≤ a → mem' a = s.mem a) (hfence : Head mem' g.fence 32)
    {new : Blocks τ} {l : List Nat} {top : Nat} (h : Lays R mem' g.first g.fence g.arena top new l) (calls : Nat) :
    Inv R { s with
        regions := ⟨raw, len⟩ :: s.regions, mem := mem', mmapCalls := calls
        heaps := g :: s.heaps, arena := withTop s.arena g.arena top }
      (recut B g.first g.fence new) L := by
  have hregion : g.region = ⟨raw, len⟩ := by
    unfold Heap.region
    rw [hg.start, hg.size]
  refine (inv.addRegion hfit hmem calls).addHeap (by rw [hregion]; exact List.mem_cons_self) hg.fits
    ?_ ?_ howner htop0 hfence h
  · intro g' hg'
    rw [hregion]
    exact (hfit.apart _ (inv.homes g' hg')).symm
  · intro j hj
    -- the memory of an arena is in a region of before
    obtain ⟨len', hlen, hin, -⟩ := (inv.arenas j hj).home
    have hap := hfit.apart _ hin
    have hpos := hfit.1
    have hstart := hg.start
    unfold Region.Apart at hap
    dsimp only at hap ⊢
    omega

theorem fresh_off (inv : Inv R s B L) (hfit : MapFits raw len s.regions) {g : Heap} (hg : g.In raw len) {x : Nat}
    {b : Block τ} (hx : B x = some b) : x < g.first ∨ g.fence ≤ x := by
  obtain ⟨g', hg', h1, h2⟩ := inv.block_has hx (Nat.le_refl x) (by omega)
  have hap := hfit.apart _ (inv.homes g' hg')
  have hin := hg.inside
  unfold Region.Apart Heap.region at hap
  dsimp only at hap
  omega

end Inv

/-! ## Laying out a heap -/

/-- The memory after `layTop`. -/
def topMem (mem : Nat → Nat) (g : Heap) : Nat → Nat :=
  Function.update (Function.update (Function.update (Function.update mem g.first 0) (g.first + 8)
    ((g.fence - g.first) ||| headFlags g.arena)) g.fence (g.fence - g.first)) (g.fence + 8)
    (minsize ||| headFlags g.arena)

theorem topMem_heads {mem : Nat → Nat} {g : Heap} (hroom : g.first + 32 ≤ g.fence)
    (hd : 16 ∣ g.fence - g.first) :
    Head (topMem mem g) g.fence 32 ∧ Head (topMem mem g) g.first (g.fence - g.first) := by
  unfold Head topMem
  refine ⟨?_, ?_⟩
  · rw [Function.update_self]
    exact or_head (by decide) (headFlags_cases g.arena)
  · rw [Function.update_of_ne (by omega), Function.update_of_ne (by omega), Function.update_self]
    exact or_head hd (headFlags_cases g.arena)

theorem layTop_run {g : Heap} (hg : g.In raw len) (hroom : g.first + 32 ≤ g.fence) :
    layTop g (s.mapRegion raw len) = some ((), { s.mapRegion raw len with
      mem := topMem (s.mapRegion raw len).mem g
      heaps := g :: s.heaps
      arena := withTop s.arena g.arena g.first }) := by
  have hin := hg.inside
  have hm : ∀ a, g.first ≤ a → a ≤ g.fence + 8 → (s.mapRegion raw len).mapped a = true :=
    fun a hlow hup => mapped_new (by omega) (by omega)
  unfold layTop setFence setHead
  rw [bind_run (store_run (hm _ (by omega) (by omega))),
    bind_run (store_run (by exact hm _ (by omega) (by omega))), Nat.add_sub_cancel' (by omega)]
  have hfence : ∀ s' : State τ, s'.mapped g.fence = true → s'.mapped (g.fence + 8) = true →
      (do
        store g.fence (g.fence - g.first)
        store (g.fence + 8) (minsize ||| headFlags g.arena)) s' = some ((), { s' with
          mem := Function.update (Function.update s'.mem g.fence (g.fence - g.first)) (g.fence + 8)
            (minsize ||| headFlags g.arena) }) := by
    intro s' ha hb
    rw [bind_run (store_run ha), store_run (by exact hb)]
  rw [bind_run (hfence _ (by exact hm _ (by omega) (by omega)) (by exact hm _ (by omega) (by omega)))]
  rfl

theorem topMem_off {g : Heap} (hg : g.In raw len) (hroom : g.first + 32 ≤ g.fence) {a : Nat}
    (ha : a < raw ∨ raw + len ≤ a) : topMem (s.mapRegion raw len).mem g a = s.mem a := by
  have hin := hg.inside
  unfold topMem
  rw [Function.update_of_ne (by omega), Function.update_of_ne (by omega),
    Function.update_of_ne (by omega), Function.update_of_ne (by omega)]
  exact if_neg (by omega)

theorem topMem_size {g : Heap} (hg : g.In raw len) : 16 ∣ g.fence - g.first := by
  have h1 := hg.fits.aligned
  have h2 := hg.aligned
  omega

theorem Inv.topLaid (inv : Inv R s B L) (hfit : MapFits raw len s.regions) {g : Heap}
    (hg : g.In raw len) (howner : g.arena < s.narenas) (htop0 : (s.arena g.arena).top = 0)
    (hroom : g.first + 32 ≤ g.fence) :
    Inv R { s.mapRegion raw len with
      mem := topMem (s.mapRegion raw len).mem g
      heaps := g :: s.heaps
      arena := withTop s.arena g.arena g.first }
      (recut B g.first g.fence (oneChunk g.first g.fence (.top g.arena))) L := by
  obtain ⟨hf, hh⟩ : Head (topMem (s.mapRegion raw len).mem g) g.fence 32 ∧
      Head (topMem (s.mapRegion raw len).mem g) g.first (g.fence - g.first) :=
    topMem_heads hroom (topMem_size hg)
  exact inv.freshHeap hfit hg howner htop0 (fun a ha => topMem_off hg hroom ha) hf
    (lays_oneChunk (.inr rfl) hroom (topMem_size hg) hh (.inr ⟨rfl, rfl⟩) (fun _ => rfl) nofun) (s.mmapCalls + 1)

theorem Inv.layTop (inv : Inv R s B L) (nb : Nat) (t : τ) (hfit : MapFits raw len s.regions) {g : Heap}
    (hg : g.In raw len) (howner : g.arena < s.narenas) (htop0 : (s.arena g.arena).top = 0)
    (hroom : g.first + 32 ≤ g.fence) :
    ∃ s' B', Words.layTop g (s.mapRegion raw len) = some ((), s') ∧ Inv R s' B' L ∧
      Outcome nb t s B L none s' B' L ∧ s'.narenas = s.narenas ∧
      s'.threadArena = s.threadArena ∧ s'.mainLocked = s.mainLocked ∧
      (s'.arena g.arena).top = g.first ∧ s'.sizeAt g.first = g.fence - g.first := by
  obtain ⟨-, hh⟩ : Head (topMem (s.mapRegion raw len).mem g) g.fence 32 ∧
      Head (topMem (s.mapRegion raw len).mem g) g.first (g.fence - g.first) :=
    topMem_heads hroom (topMem_size hg)
  have hmem : ∀ a, a < raw ∨ raw + len ≤ a → topMem (s.mapRegion raw len).mem g a = s.mem a :=
    fun a ha => topMem_off hg hroom ha
  have hinv := inv.topLaid hfit hg howner htop0 hroom
  have hin := hg.inside
  have hhigh := hfit.2.2.2.1
  refine ⟨_, _, layTop_run hg hroom, hinv, .of_layout (fun x n => inv.fresh_off hfit hg) nofun (fun x n hx => ?_)
    (fun x n hx => iff_of_eq (congrArg (· = 0) (inv.key_kept hfit hmem hx))) (fun _ h => List.mem_cons_of_mem _ h) rfl,
    rfl, rfl, rfl, ?_, hh.size_eq (topMem_size hg) (by omega)⟩
  · cases (oneChunk_cases hx).2
  · change (withTop s.arena g.arena g.first g.arena).top = g.first
    rw [withTop, Function.update_self]

/-- The memory after `carve`. -/
def carveMem (mem : Nat → Nat) (g : Heap) (nb : Nat) : Nat → Nat :=
  Function.update (Function.update (Function.update (Function.update (Function.update
    (Function.update mem g.first 0) g.fence (g.fence - g.first)) (g.fence + 8)
    (minsize ||| headFlags g.arena)) (g.first + 8) (nb ||| headFlags g.arena)) (g.first + nb) 0)
    (g.first + nb + 8) ((g.fence - (g.first + nb)) ||| headFlags g.arena)

theorem carveMem_heads {mem : Nat → Nat} {g : Heap} (hlow : 32 ≤ nb) (hd : 16 ∣ nb)
    (hroom : g.first + nb + 32 ≤ g.fence) (hdf : 16 ∣ g.fence - (g.first + nb)) :
    Head (carveMem mem g nb) g.fence 32 ∧ Head (carveMem mem g nb) g.first nb ∧
      Head (carveMem mem g nb) (g.first + nb) (g.fence - (g.first + nb)) := by
  unfold Head carveMem
  refine ⟨?_, ?_, ?_⟩
  · rw [Function.update_of_ne (by omega), Function.update_of_ne (by omega),
      Function.update_of_ne (by omega), Function.update_self]
    exact or_head (by decide) (headFlags_cases g.arena)
  · rw [Function.update_of_ne (by omega), Function.update_of_ne (by omega), Function.update_self]
    exact or_head hd (headFlags_cases g.arena)
  · rw [Function.update_self]
    exact or_head hdf (headFlags_cases g.arena)

theorem carveMem_off {g : Heap} (hg : g.In raw len) (hroom : g.first + nb + 32 ≤ g.fence)
    {a : Nat} (ha : a < raw ∨ raw + len ≤ a) : carveMem (s.mapRegion raw len).mem g nb a = s.mem a := by
  have hin := hg.inside
  unfold carveMem
  rw [Function.update_of_ne (by omega), Function.update_of_ne (by omega),
    Function.update_of_ne (by omega), Function.update_of_ne (by omega),
    Function.update_of_ne (by omega), Function.update_of_ne (by omega)]
  exact if_neg (by omega)

/-- `adjust_mmap_threshold`, as a function of the threshold. -/
def adjusted (m : Nat) (isMmap : Bool) : Nat :=
  if isMmap then if m < defaultMmapThresholdMax then min (m + m >>> 2) defaultMmapThresholdMax else m
  else if defaultMmapThresholdMin < m then max (m - m >>> 3) defaultMmapThresholdMin else m

theorem adjustMmapThreshold_run (isMmap : Bool) (s : State τ) :
    adjustMmapThreshold isMmap s = some ((), { s with mmapThreshold := adjusted s.mmapThreshold isMmap }) := by
  unfold adjustMmapThreshold adjusted Exec.modify
  dsimp only
  split
  · split <;> rfl
  · split <;> rfl

/-! ## The old top chunk -/

/-- The links that are written when the old top chunk goes to the unsorted bin. -/
def TopLinked (s : State τ) (k : Nat) : Prop :=
  (s.arena k).top = 0 ∨
    let snt := sentinel (s.arena k).base unsortedBinIdx
    s.mapped ((s.arena k).top + 16) = true ∧ s.mapped ((s.arena k).top + 24) = true ∧
      s.mapped (snt + 16) = true ∧ fdOf s.mem snt ≠ 0 ∧ s.mapped (fdOf s.mem snt + 24) = true

theorem mapped_apart (hfit : MapFits raw len s.regions) {a : Nat} (ha : s.mapped a = true) :
    a + 8 ≤ raw ∨ raw + len ≤ a := by
  obtain ⟨r, hr, hb⟩ := List.any_eq_true.mp ha
  have hb := of_decide_eq_true hb
  have hap := hfit.apart r hr
  unfold Region.Apart at hap
  dsimp only at hap
  omega

theorem mapped_mapRegion {a : Nat} (ha : s.mapped a = true) : (s.mapRegion raw len).mapped a = true := by
  obtain ⟨r, hr, hb⟩ := List.any_eq_true.mp ha
  exact List.any_eq_true.mpr ⟨r, List.mem_cons_of_mem _ hr, hb⟩

/-- The memory after `carve`, the links of the old top chunk included. -/
def grownMem (s : State τ) (mem : Nat → Nat) (k : Nat) : Nat → Nat :=
  if (s.arena k).top = 0 then mem
  else pushMem mem (sentinel (s.arena k).base unsortedBinIdx) (s.arena k).top

/-- The links that change are words of before. -/
theorem grownMem_new (hfit : MapFits raw len s.regions) {k : Nat} (hlinks : TopLinked s k) {mem : Nat → Nat}
    (hmem : ∀ a, s.mapped a = true → mem a = s.mem a) {a : Nat} (hlow : raw ≤ a) (hup : a < raw + len) :
    grownMem s mem k a = mem a := by
  unfold grownMem
  split
  · rfl
  · next htop =>
    obtain ⟨h1, h2, h3, -, h5⟩ := hlinks.resolve_left htop
    have hfd : fdOf mem (sentinel (s.arena k).base unsortedBinIdx) =
        fdOf s.mem (sentinel (s.arena k).base unsortedBinIdx) := hmem _ h3
    have hne : ∀ x, s.mapped x = true → a ≠ x := fun x hx e => by
      have := mapped_apart hfit hx
      omega
    unfold pushMem
    rw [hfd, Function.update_of_ne (hne _ h5), Function.update_of_ne (hne _ h3), Function.update_of_ne (hne _ h2),
      Function.update_of_ne (hne _ h1)]

/-- The old top chunk, if there is one, goes to the unsorted bin. -/
theorem shelveTop_run {k : Nat} {β : Type} (f : Exec (State τ) β) (hlinks : TopLinked s k) (s₁ : State τ)
    (harena : s₁.arena = s.arena) (hmapped : ∀ a, s.mapped a = true → s₁.mapped a = true ∧ s₁.mem a = s.mem a) :
    (do
      let av ← getArenaRec k
      if av.top ≠ 0 then
        let unsorted ← unsortedBin k
        pushFront unsorted av.top
      f) s₁ = f { s₁ with mem := grownMem s s₁.mem k } := by
  have hav : getArenaRec k s₁ = some (s.arena k, s₁) := by
    rw [← harena]
    rfl
  have hbin : unsortedBin k s₁ = some (sentinel (s.arena k).base unsortedBinIdx, s₁) := by
    rw [← harena]
    rfl
  rw [bind_run hav]
  unfold grownMem
  by_cases htop : (s.arena k).top = 0
  · rw [if_neg (not_not_intro htop), if_pos htop]
  · obtain ⟨h1, h2, h3, h4, h5⟩ := hlinks.resolve_left htop
    have hfd : s₁.mem (sentinel (s.arena k).base unsortedBinIdx + 16) =
        fdOf s.mem (sentinel (s.arena k).base unsortedBinIdx) := (hmapped _ h3).2
    have hpush : pushFront (sentinel (s.arena k).base unsortedBinIdx) (s.arena k).top s₁ =
        some ((), { s₁ with mem := pushMem s₁.mem (sentinel (s.arena k).base unsortedBinIdx) (s.arena k).top }) := by
      unfold pushFront
      rw [bind_run (load_run (hmapped _ h3).1), bind_run (store_run (hmapped _ h1).1),
        bind_run (store_run (by exact (hmapped _ h2).1)), bind_run (store_run (by exact (hmapped _ h3).1)),
        if_pos (by rw [hfd]; exact h4)]
      exact store_run (by rw [hfd]; exact (hmapped _ h5).1)
    rw [if_pos htop, if_neg htop, bind_run hbin, bind_run hpush]

theorem withTop_top (arena : Nat → Arena) (k top : Nat) : (withTop arena k top k).top = top := by
  rw [withTop, Function.update_self]

/-- The state after `carve` in a new heap. -/
def State.grown (s : State τ) (g : Heap) (raw len nb : Nat) : State τ :=
  { s.mapRegion raw len with
    mem := grownMem s (carveMem (s.mapRegion raw len).mem g nb) g.arena
    heaps := g :: s.heaps
    arena := withTop s.arena g.arena (g.first + nb)
    mmapThreshold := adjusted s.mmapThreshold false }

theorem carve_grown (hg : g.In raw len) (hfit : MapFits raw len s.regions) (hlow : 32 ≤ nb)
    (hroom : g.first + nb + 32 ≤ g.fence) (hlinks : TopLinked s g.arena) :
    carve g.arena nb g.first (g.fence - g.first) { s.mapRegion raw len with heaps := g :: s.heaps } =
      some (some (g.first + chunkHeader), s.grown g raw len nb) := by
  have hin := hg.inside
  have hhigh := hfit.2.2.2.1
  have h32 : minsize = 32 := rfl
  have hm : ∀ a, g.first ≤ a → a ≤ g.fence + 8 → (s.mapRegion raw len).mapped a = true :=
    fun a hlow hup => mapped_new (by omega) (by omega)
  have hrem : (g.fence - g.first + (2^64 - nb)) % 2^64 = g.fence - (g.first + nb) := by omega
  have hend : g.first + (g.fence - g.first) = g.fence := by omega
  -- what was mapped before is as it was when the old top chunk is put away
  have hold : ∀ a, s.mapped a = true → (s.mapRegion raw len).mapped a = true ∧
      carveMem (s.mapRegion raw len).mem g nb a = s.mem a := fun a ha =>
    ⟨mapped_mapRegion ha, carveMem_off hg hroom (by have := mapped_apart hfit ha; omega)⟩
  have hshelve := fun f : Exec (State τ) (Option Nat) => shelveTop_run f hlinks { s.mapRegion raw len with
    mem := carveMem (s.mapRegion raw len).mem g nb, heaps := g :: s.heaps } rfl hold
  unfold carve setFence setHead
  rw [bind_run (store_run (by exact hm _ (by omega) (by omega))), Exec.bind_assoc, hend,
    bind_run (store_run (by exact hm _ (by omega) (by omega))),
    bind_run (store_run (by exact hm _ (by omega) (by omega))), hrem]
  dsimp only
  rw [if_pos (by omega), bind_run (store_run (by exact hm _ (by omega) (by omega))),
    bind_run (store_run (by exact hm _ (by omega) (by omega))),
    bind_run (store_run (by exact hm _ (by omega) (by omega)))]
  refine (hshelve _).trans ?_
  rw [bind_run setTop_run]
  exact bind_run (adjustMmapThreshold_run false _)

/-- The threshold for direct mappings never falls below its minimum. -/
theorem le_adjusted {m : Nat} (h : defaultMmapThresholdMin ≤ m) : defaultMmapThresholdMin ≤ adjusted m false := by
  unfold adjusted
  rw [if_neg (by decide)]
  split
  · exact Nat.le_max_right _ _
  · exact h

end MyMalloc.Ptmalloc.Words
