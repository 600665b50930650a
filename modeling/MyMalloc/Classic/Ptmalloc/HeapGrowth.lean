import MyMalloc.Classic.Ptmalloc.Extend

/- The extension of a heap (`pt_malloc`, strategy 7) and the threshold that bounds it.

   `adjust_mmap_threshold` moves the threshold up by a quarter and down by an eighth
   and cuts it off at both ends, so whatever the calls were it is between 4096 and
   524288. A request that reaches the extension is below it, so that one
   `HEAP_MAX_SIZE` is enough for the request, the `HeapInfo` in front of it and the
   fencepost behind, and no sum or difference of the code wraps (`Exact`).
   `Carved` says what is in the new mapping afterwards. -/
namespace MyMalloc.Ptmalloc.Words

open Exec

variable {τ : Type}

/-! ## The threshold -/

/-- The threshold after a sequence of calls. -/
def thresholdAfter (calls : List Bool) : Nat := calls.foldl adjusted defaultMmapThreshold

/-- The threshold is one that calls can lead to. -/
def InRange (m : Nat) : Prop := 4096 ≤ m ∧ m ≤ 524288

theorem InRange.adjusted {m : Nat} (h : InRange m) (isMmap : Bool) : InRange (adjusted m isMmap) := by
  have hmax : defaultMmapThresholdMax = 524288 := rfl
  have hmin : defaultMmapThresholdMin = 4096 := rfl
  obtain ⟨h1, h2⟩ := h
  unfold InRange Words.adjusted
  split
  · split <;> omega
  · split <;> omega

theorem thresholdAfter_inRange (calls : List Bool) : InRange (thresholdAfter calls) := by
  have hfold : ∀ m, InRange m → InRange (calls.foldl adjusted m) := by
    induction calls with
    | nil => exact fun m hm => hm
    | cons b calls ih => exact fun m hm => ih _ (hm.adjusted b)
  exact hfold _ ⟨by decide, by decide⟩

/-! ## The extension -/

/-- The length of the mapping. -/
def growLen (k nb : Nat) : Nat :=
  if k = 0 then pageRound (extendSize nb)
  else pageRound (pageRound (max ((heapInfoSize + extendSize nb) % 2^64) heapMinSize))

/-- The first chunk of a heap of arena `k`. -/
def firstOf (k raw : Nat) : Nat := if k = 0 then raw else firstChunk raw

/-- No sum or difference of the extension wraps: `extend_size` is the least multiple of `HEAP_MAX_SIZE`
    with room for the request, `usable` is what is left after the prefix and the fencepost, and the
    remainder is large enough for a chunk. -/
structure Exact (k nb raw : Nat) : Prop where
  request : nb + 2 * minsize < 2^64
  rounding : max (nb + 2 * minsize) heapMaxSize + (heapMaxSize - 1) < 2^64
  extend : extendSize nb = (max (nb + 2 * minsize) heapMaxSize + (heapMaxSize - 1)) / heapMaxSize * heapMaxSize
  info : heapInfoSize + extendSize nb + 2 * 4096 < 2^64
  start : raw ≤ firstOf k raw ∧ raw + heapInfoSize + mallocAlignMask < 2^64
  usable : firstOf k raw - raw + minsize < extendSize nb
  remainder : nb + minsize ≤ extendSize nb - (firstOf k raw - raw) - minsize

/-- The chunk of the request, the new top chunk and the fencepost, one behind the other in the mapping. -/
structure Carved (s : State τ) (k nb raw len top fence : Nat) : Prop where
  mapping : ⟨raw, len⟩ ∈ s.regions
  low : raw ≤ firstOf k raw
  aligned : 16 ∣ firstOf k raw
  chunk : sizeBits (s.mem (firstOf k raw + 8)) = nb
  topNext : top = firstOf k raw + nb
  topAt : (s.arena k).top = top
  topSize : minsize ≤ sizeBits (s.mem (top + 8)) ∧ 16 ∣ sizeBits (s.mem (top + 8))
  fenceNext : fence = top + sizeBits (s.mem (top + 8))
  fenceSize : sizeBits (s.mem (fence + 8)) = minsize
  high : fence + minsize ≤ raw + len

section extend
variable {s : State τ} {host : Host} {k nb raw : Nat}

theorem exact_of_fits {len : Nat} (hfit : MapFits raw len s.regions) (hnb : nb < 524288) : Exact k nb raw := by
  have hheap : heapMaxSize = 1048576 := rfl
  have h32 : minsize = 32 := rfl
  have h48 : heapInfoSize = 48 := rfl
  have h15 : mallocAlignMask = 15 := rfl
  have hext : extendSize nb = heapMaxSize := extendSize_eq (by omega)
  have hfirst : firstOf k raw = raw ∨ firstOf k raw = raw + 48 := by
    unfold firstOf
    split
    · exact .inl rfl
    · exact .inr (firstChunk_eq hfit)
  have hhigh := hfit.2.2.2.1
  refine ⟨by omega, by omega, ?_, by omega, by omega, by omega, by omega⟩
  rw [hext, Nat.max_eq_right (by omega)]
  decide +kernel

theorem sizeBits_head {n : Nat} (hd : 16 ∣ n) (hn : n < 2^63) (j : Nat) : sizeBits (n ||| headFlags j) = n :=
  sizeBits_or hd hn (by rcases headFlags_cases j with e | e <;> omega)

theorem carved_of {len : Nat} {g : Heap} (hg : g.In raw len) (hfit : MapFits raw len s.regions) (hlow : 32 ≤ nb)
    (hd : 16 ∣ nb) (hroom : g.first + nb + 32 ≤ g.fence) (hfirst : firstOf g.arena raw = g.first)
    (hlinks : TopLinked s g.arena) : Carved (s.grown g raw len nb) g.arena nb raw len (g.first + nb) g.fence := by
  have h1 := hg.start
  have h2 := hg.size
  have h3 := hg.fits.first
  have h4 := hg.fits.fence
  have h5 := hg.fits.high
  have h6 := hg.fits.aligned
  have h7 := hg.aligned
  have h32 : minsize = 32 := rfl
  have hold : ∀ a, s.mapped a = true → carveMem (s.mapRegion raw len).mem g nb a = s.mem a := fun a ha =>
    carveMem_off hg hroom (by have := mapped_apart hfit ha; omega)
  have hnew : ∀ a, g.first ≤ a → a < g.fence + 32 →
      (s.grown g raw len nb).mem a = carveMem (s.mapRegion raw len).mem g nb a :=
    fun a ha1 ha2 => grownMem_new hfit hlinks hold (by omega) (by omega)
  have hchunk : sizeBits ((s.grown g raw len nb).mem (g.first + 8)) = nb := by
    rw [hnew _ (by omega) (by omega), carveMem, Function.update_of_ne (by omega), Function.update_of_ne (by omega),
      Function.update_self]
    exact sizeBits_head hd (by omega) _
  have htopSize : sizeBits ((s.grown g raw len nb).mem (g.first + nb + 8)) = g.fence - (g.first + nb) := by
    rw [hnew _ (by omega) (by omega), carveMem, Function.update_self]
    exact sizeBits_head (by omega) (by omega) _
  have hfence : sizeBits ((s.grown g raw len nb).mem (g.fence + 8)) = minsize := by
    rw [hnew _ (by omega) (by omega), carveMem, Function.update_of_ne (by omega), Function.update_of_ne (by omega),
      Function.update_of_ne (by omega), Function.update_self]
    exact sizeBits_head (by decide) (by decide) _
  refine ⟨List.mem_cons_self, by omega, by omega, by rw [hfirst]; exact hchunk, by rw [hfirst], withTop_top .., ?_, ?_,
    hfence, by omega⟩
  · rw [htopSize]
    exact ⟨by omega, by omega⟩
  · rw [htopSize]
    omega

/-- What the extension does: a null pointer where the system gives no memory, else a chunk at the start of
    a new heap. -/
def Extends (host : Host) (k nb : Nat) (s : State τ) : Prop :=
  match mmapAnswer host (growLen k nb) s with
  | none => fromSystem host k nb s = some (none, s.mapRefused)
  | some raw => Exact k nb raw ∧ ∃ s' top fence,
      fromSystem host k nb s = some (some (firstOf k raw + chunkHeader), s') ∧
        Carved s' k nb raw (growLen k nb) top fence

theorem growLen_eq (hmax : nb < 524288) : growLen k nb = extendLen k := by
  have hheap : heapMaxSize = 1048576 := rfl
  have hext : extendSize nb = heapMaxSize := extendSize_eq (by omega)
  unfold growLen extendLen
  rw [hext]
  split <;> decide +kernel

theorem firstOf_eq {len : Nat} (hfit : MapFits raw len s.regions) : firstOf k raw = (extendHeap k raw).first := by
  unfold firstOf extendHeap
  split
  · rfl
  · exact firstChunk_eq hfit

theorem extends_of (hnb : nb < s.mmapThreshold) (hmax : nb < 524288) (hlow : 32 ≤ nb) (hd : 16 ∣ nb)
    (hlinks : TopLinked s k) : Extends host k nb s := by
  unfold Extends
  rw [growLen_eq hmax]
  split
  · next hans => exact fromSystem_refused hnb hmax hans
  · next raw hans =>
    have hfit := mmapAnswer_fits hans
    have hcarved := carved_of (extendHeap_in hfit) hfit hlow hd (extendHeap_room hmax)
      (by rw [extendHeap_arena]; exact firstOf_eq hfit) (by rw [extendHeap_arena]; exact hlinks)
    rw [extendHeap_arena] at hcarved
    refine ⟨exact_of_fits hfit hmax, _, _, _, ?_, hcarved⟩
    rw [firstOf_eq hfit]
    exact fromSystem_grown hnb hmax hlow hlinks hans

end extend

/-- The threshold stays in its range, and below every threshold of the range a heap is extended soundly. -/
theorem heap_extension_sound :
    (∀ calls, InRange (thresholdAfter calls)) ∧
      ∀ (host : Host) (s : State τ) (k nb : Nat), InRange s.mmapThreshold → minsize ≤ nb → 16 ∣ nb →
        nb < s.mmapThreshold → TopLinked s k → Extends host k nb s := by
  refine ⟨thresholdAfter_inRange, fun host s k nb hrange hlow hd hnb hlinks => ?_⟩
  exact extends_of hnb (Nat.lt_of_lt_of_le hnb hrange.2) hlow hd hlinks

/-- An arena without memory, and a system that maps its heap at 2^20. -/
def bareState : State Unit where
  mem := fun _ => 0
  regions := []
  mmapCalls := 0
  arena := fun _ => noArena
  narenas := 2
  heaps := []
  initialised := true
  mainLocked := false
  threadArena := fun _ => none
  tcache := fun _ => none
  mmapThreshold := defaultMmapThreshold

theorem heap_extension_sound_bare :
    InRange (thresholdAfter [true, false]) ∧
      Extends ⟨fun _ => some 1048576, 4096⟩ 1 4112 bareState ∧
      mmapAnswer ⟨fun _ => some 1048576, 4096⟩ (growLen 1 4112) bareState = some 1048576 :=
  ⟨heap_extension_sound (τ := Unit).1 _, heap_extension_sound.2 _ _ _ _ ⟨by decide, by decide⟩ (by decide) (by decide)
    (by decide) (.inl rfl), by decide +kernel⟩

end MyMalloc.Ptmalloc.Words
