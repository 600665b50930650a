import MyMalloc.Lib.Links
import MyMalloc.Classic.Ptmalloc.Blocks
import MyMalloc.Classic.Ptmalloc.Headers
import MyMalloc.Classic.Ptmalloc.Malloc

/- What holds while blocks come from the tcaches and the top chunks.

   Every chunk that leaves a tcache otherwise than to its user gets into trouble: the
   links of the fastbins and bins lie in words that are also the last words of the
   block in front. So long as a run keeps to the tcaches and the top chunks, all
   bins stay empty, and this is the invariant of such runs: the blocks of `Blocks`
   are what the headers in memory say, each tcache is a list of chunks of its size,
   and each arena's top chunk is the last one of a heap.

   A `Regime` says how far a run keeps to that. -/
namespace MyMalloc.Ptmalloc.Words

variable {τ : Type}

/-- How a run is limited: the largest chunk, what a split must leave of the top chunk, whether
    a chunk may be lost, and whether the user's writes are kept off the headers. Writes need no
    guard where all chunks are the smallest there are. -/
structure Regime where
  maxChunk : Nat
  slack : Nat
  lossy : Bool
  guarded : Bool
  small : maxChunk < minLargeSize
  slack_le : slack ≤ 32
  unguarded : guarded = false → maxChunk = 32 ∧ slack = 32

/-! ## Headers -/

/-- The header of a chunk in use, or after one: its size, `PREV_INUSE`, and the arena bit. -/
def Head (mem : Nat → Nat) (c n : Nat) : Prop := mem (c + 8) = n + 1 ∨ mem (c + 8) = n + 5

section
variable {mem : Nat → Nat} {c n : Nat}

theorem Head.bound (h : Head mem c n) (hn : n < 2^63) : mem (c + 8) < 2^64 := by
  rcases h with h | h <;> omega

theorem Head.size_eq (h : Head mem c n) (hd : 16 ∣ n) (hn : n < 2^63) :
    sizeBits (mem (c + 8)) = n := by
  unfold sizeBits
  rw [show (7 : Nat) = 2^3 - 1 from rfl, maskOff_two_pow (h.bound hn) (by decide)]
  rcases h with h | h <;> omega

theorem Head.odd (h : Head mem c n) (hd : 16 ∣ n) : mem (c + 8) % 2 = 1 := by
  rcases h with h | h <;> omega

theorem Head.ne_zero (h : Head mem c n) : mem (c + 8) ≠ 0 := by
  rcases h with h | h <;> omega

theorem or_one_of_odd {w : Nat} (h : w % 2 = 1) : w ||| prevInuseBit = w := by
  apply Nat.eq_of_testBit_eq
  intro i
  rw [Nat.testBit_or]
  cases i with
  | zero => simp [Nat.testBit_zero, h, prevInuseBit]
  | succ i => simp [prevInuseBit, Nat.testBit_one_eq_true_iff_self_eq_zero]

theorem Head.or_prevInuse (h : Head mem c n) (hd : 16 ∣ n) :
    mem (c + 8) ||| prevInuseBit = mem (c + 8) := or_one_of_odd (h.odd hd)

theorem Head.and_prevInuse (h : Head mem c n) (hd : 16 ∣ n) :
    mem (c + 8) &&& prevInuseBit ≠ 0 := by
  rw [prevInuseBit, Nat.and_one_is_mod, h.odd hd]
  decide

theorem Head.and_mmapped (h : Head mem c n) (hd : 16 ∣ n) :
    mem (c + 8) &&& isMmappedBit = 0 := by
  have hbit : (mem (c + 8)).testBit 1 = false := by
    rw [Nat.testBit_eq_decide_div_mod_eq]
    rcases h with h | h <;> simp only [decide_eq_false_iff_not] <;> omega
  apply Nat.eq_of_testBit_eq
  intro i
  rw [Nat.testBit_and, Nat.zero_testBit]
  by_cases hi : i = 1
  · subst hi
    rw [hbit, Bool.false_and]
  · rw [show isMmappedBit = 2^1 from rfl, Nat.testBit_two_pow_of_ne (Ne.symm hi), Bool.and_false]

theorem Head.flags (h : Head mem c n) (hd : 16 ∣ n) :
    mem (c + 8) &&& 7 = 1 ∨ mem (c + 8) &&& 7 = 5 := by
  rw [show (7 : Nat) = 2^3 - 1 from rfl, Nat.and_two_pow_sub_one_eq_mod]
  rcases h with h | h <;> omega

end

theorem headFlags_cases (k : Nat) : headFlags k = 1 ∨ headFlags k = 5 := by
  unfold headFlags
  split
  · exact Or.inl rfl
  · exact Or.inr rfl

/-- What `setHead` writes with the flags of a chunk in use. -/
theorem or_head {n f : Nat} (hd : 16 ∣ n) (hf : f = 1 ∨ f = 5) : n ||| f = n + 1 ∨ n ||| f = n + 5 := by
  rcases hf with rfl | rfl
  · exact Or.inl (or_flags hd (by decide))
  · exact Or.inr (or_flags hd (by decide))

/-! ## The parts of the invariant -/

/-- `c` is the start of a chunk or of a fencepost. -/
def Starts (heaps : List Heap) (B : Blocks τ) (c : Nat) : Prop :=
  (∃ b, B c = some b) ∨ ∃ h ∈ heaps, c = h.fence

/-- The headers say what `B` says. -/
structure Cells (mem : Nat → Nat) (heaps : List Heap) (B : Blocks τ) : Prop where
  laid : Laid heaps B
  head : ∀ c b, B c = some b → Head mem c b.size
  fence : ∀ h ∈ heaps, Head mem h.fence 32

def binHead (tc : Option Tcache) (i : Nat) : Nat := (tc.map (fun tc => tc.bins i)).getD 0

def binCount (tc : Option Tcache) (i : Nat) : Nat := (tc.map (fun tc => tc.count i)).getD 0

/-- Bin `i` of thread `t`'s tcache is the list `L t i` of chunks of its size. A chunk of 48 bytes
    is in none: its key would be the size of the chunk after it. -/
structure Shelves (mem : Nat → Nat) (tcache : τ → Option Tcache) (B : Blocks τ)
    (L : τ → Nat → List Nat) : Prop where
  chain : ∀ t i, Chain 0 mem (binHead (tcache t) i) ((L t i).map (· + chunkHeader))
  mem_iff : ∀ t i c, c ∈ L t i ↔ ∃ n, B c = some ⟨n, .cached t i⟩
  size : ∀ c n t i, B c = some ⟨n, .cached t i⟩ → i < tcacheMaxBins ∧ n = (i + 2) * 16 ∧ i ≠ 1
  count : ∀ t i, binCount (tcache t) i = (L t i).length
  limit : ∀ t i, (L t i).length ≤ tcacheFillCount

/-- An arena whose bins are empty, in memory that is no heap's. -/
structure ArenaOk (mem : Nat → Nat) (regions : List Region) (heaps : List Heap) (av : Arena) :
    Prop where
  home : ∃ len, 2168 ≤ len ∧ ⟨av.base, len⟩ ∈ regions ∧ ∀ h ∈ heaps, h.region ≠ ⟨av.base, len⟩
  bins : ∀ i < nBins, mem (sentinel av.base i + 16) = sentinel av.base i
  fast : ∀ i, av.fast i = 0

/-- The top chunk of an arena is the last one of a heap. -/
structure Tops (heaps : List Heap) (B : Blocks τ) (arena : Nat → Arena) (narenas : Nat) : Prop where
  top : ∀ k < narenas, (arena k).top = 0 ∨
    ∃ n, B (arena k).top = some ⟨n, .top k⟩ ∧ ∃ h ∈ heaps, (arena k).top + n = h.fence
  only : ∀ c n k, B c = some ⟨n, .top k⟩ → k < narenas ∧ (arena k).top = c

/-- What a regime adds. -/
structure Side (R : Regime) (heaps : List Heap) (B : Blocks τ) : Prop where
  kept : R.lossy = false → ∀ c b, B c = some b → b.status ≠ .lost
  small : R.guarded = false → ∀ c b, B c = some b → (∀ k, b.status ≠ .top k) →
    b.size = 32 ∧ ∀ h ∈ heaps, c + 32 ≠ h.fence

structure Inv (R : Regime) (s : State τ) (B : Blocks τ) (L : τ → Nat → List Nat) : Prop where
  regions : s.regions.Pairwise Region.Apart
  homes : ∀ h ∈ s.heaps, h.region ∈ s.regions
  cells : Cells s.mem s.heaps B
  shelves : Shelves s.mem s.tcache B L
  arenas : ∀ k < s.narenas, ArenaOk s.mem s.regions s.heaps (s.arena k)
  tops : Tops s.heaps B s.arena s.narenas
  side : Side R s.heaps B
  owners : ∀ h ∈ s.heaps, h.arena < s.narenas
  threads : ∀ t k, s.threadArena t = some k → k < s.narenas
  main : 0 < s.narenas
  started : s.initialised = true
  threshold : defaultMmapThresholdMin ≤ s.mmapThreshold

/-! ## Headers and blocks -/

namespace Cells
variable {mem mem' : Nat → Nat} {heaps : List Heap} {B : Blocks τ} {c : Nat} {b : Block τ}

variable (h : Cells mem heaps B)
include h

theorem starts_aligned (hc : Starts heaps B c) : 16 ∣ c := by
  rcases hc with ⟨b, hb⟩ | ⟨g, hg, rfl⟩
  · exact h.laid.aligned hb
  · exact h.laid.fence_aligned hg

theorem frame (hmem : ∀ c, Starts heaps B c → mem' (c + 8) = mem (c + 8)) :
    Cells mem' heaps B where
  laid := h.laid
  head c b hc := by
    unfold Head
    rw [hmem c (Or.inl ⟨b, hc⟩)]
    exact h.head c b hc
  fence g hg := by
    unfold Head
    rw [hmem _ (Or.inr ⟨g, hg, rfl⟩)]
    exact h.fence g hg

theorem size_lt (hc : B c = some b) : b.size < 2^63 := by
  obtain ⟨g, hg, hlow, hup⟩ := h.laid.room hc
  have hf := h.laid.fits g hg
  have h1 := hf.fence
  have h2 := hf.high
  have h3 := hf.low
  omega

theorem pos (hc : B c = some b) : 0 < c := by
  obtain ⟨g, hg, hlow, hup⟩ := h.laid.room hc
  have hf := h.laid.fits g hg
  have h1 := hf.first
  have h3 := hf.low
  omega

theorem sizeBits_eq (hc : B c = some b) :
    sizeBits (mem (c + 8)) = b.size :=
  (h.head c b hc).size_eq (h.laid.sizes c b hc).2 (h.size_lt hc)

/-- The header at the end of a block, whether a chunk or the fencepost is there. -/
theorem head_next (hc : B c = some b) :
    ∃ n, 16 ∣ n ∧ 32 ≤ n ∧ Head mem (c + b.size) n := by
  rcases h.laid.next hc with ⟨b', hb'⟩ | ⟨g, hg, heq⟩
  · have hsz := h.laid.sizes _ b' hb'
    exact ⟨b'.size, hsz.2, hsz.1, h.head _ b' hb'⟩
  · exact ⟨32, by decide, Nat.le_refl _, heq ▸ h.fence g hg⟩

theorem starts_next (hc : B c = some b) : Starts heaps B (c + b.size) := by
  rcases h.laid.next hc with ⟨b', hb'⟩ | ⟨g, hg, heq⟩
  · exact Or.inl ⟨b', hb'⟩
  · exact Or.inr ⟨g, hg, heq⟩

theorem starts_off (hc : B c = some b) {d : Nat} (hd : Starts heaps B d)
    (hne : d ≠ c) : d + 32 ≤ c ∨ c + b.size ≤ d := by
  rcases hd with ⟨b', hb'⟩ | ⟨g, hg, rfl⟩
  · have h1 := h.laid.disjoint hc hb' hne
    have h2 := (h.laid.sizes d b' hb').1
    omega
  · exact (h.laid.off_fence hc hg).symm

/-- The key of a tcache entry is no header, unless the chunk has 48 bytes. -/
theorem key_off (hc : B c = some b) (h48 : b.size ≠ 48) {d : Nat}
    (hd : Starts heaps B d) : c + 56 ≠ d + 8 := by
  intro heq
  have hsz := h.laid.sizes c b hc
  have hdc : d = c + 48 := by omega
  subst hdc
  -- `c + 48` is past the end of `c`, so `c` has 32 bytes, and what follows it has at least 32
  rcases h.starts_off hc hd (by omega) with hlt | hge
  · omega
  · have h32 : b.size = 32 := by omega
    rcases h.laid.next hc with ⟨b', hb'⟩ | ⟨g, hg, hfence⟩
    · have hsz' := (h.laid.sizes _ b' hb').1
      rcases h.starts_off hb' hd (by omega) with hlt | hge' <;> omega
    · rcases hd with ⟨b', hb'⟩ | ⟨g', hg', heq'⟩
      · rcases h.laid.off_fence hb' hg with hle | hle
        · have := (h.laid.sizes _ b' hb').1
          omega
        · omega
      · -- two fenceposts sixteen bytes apart
        have hin := h.laid.inside hg
        have hin' := h.laid.inside hg'
        obtain rfl : g = g' := h.laid.eq_of_shared (a := g'.fence) hg hg' ⟨by omega, by omega⟩
          ⟨by omega, by omega⟩
        omega

end Cells

/-! ## What a write leaves alone -/

/-- `mem'` differs from `mem` at addresses of heaps only. -/
def Within (heaps : List Heap) (mem mem' : Nat → Nat) : Prop :=
  ∀ a, (∀ h ∈ heaps, ¬ h.region.Has a) → mem' a = mem a

theorem Within.refl (heaps : List Heap) (mem : Nat → Nat) : Within heaps mem mem := fun _ _ => rfl

theorem Within.update {heaps : List Heap} {mem mem' : Nat → Nat} (h : Within heaps mem mem')
    {g : Heap} (hg : g ∈ heaps) {a v : Nat} (ha : g.region.Has a) :
    Within heaps mem (Function.update mem' a v) := by
  intro x hx
  have hne : x ≠ a := fun heq => hx g hg (heq ▸ ha)
  rw [Function.update_of_ne hne]
  exact h x hx

theorem Shelves.frame {mem mem' : Nat → Nat} {tcache : τ → Option Tcache} {B : Blocks τ}
    {L : τ → Nat → List Nat} (h : Shelves mem tcache B L)
    (hmem : ∀ t i c, c ∈ L t i → mem' (c + chunkHeader) = mem (c + chunkHeader)) :
    Shelves mem' tcache B L where
  chain t i := (h.chain t i).congr (fun a ha => by
    obtain ⟨c, hc, rfl⟩ := List.mem_map.mp ha
    exact hmem t i c hc)
  mem_iff := h.mem_iff
  size := h.size
  count := h.count
  limit := h.limit

theorem Shelves.notMem {mem : Nat → Nat} {tcache : τ → Option Tcache} {B : Blocks τ}
    {L : τ → Nat → List Nat} (h : Shelves mem tcache B L) {c : Nat} {b : Block τ}
    (hc : B c = some b) {t : τ} {i : Nat} (hst : b.status ≠ .cached t i) : c ∉ L t i := by
  intro hin
  obtain ⟨n, hn⟩ := (h.mem_iff t i c).mp hin
  rw [hc, Option.some.injEq] at hn
  exact hst (by rw [hn])

namespace Inv
variable {R : Regime} {s : State τ} {B : Blocks τ} {L : τ → Nat → List Nat} {c : Nat} {b : Block τ}

theorem off_arena (inv : Inv R s B L) {k : Nat} (hk : k < s.narenas) {g : Heap} (hg : g ∈ s.heaps)
    {a : Nat} (ha : g.region.Has a) :
    a < (s.arena k).base ∨ (s.arena k).base + 2168 ≤ a := by
  obtain ⟨len, hlen, hin, hne⟩ := (inv.arenas k hk).home
  have hap := inv.regions.forall (inv.homes g hg) hin (hne g hg)
  have hnot := hap.not_has ha
  unfold Region.Has at hnot
  dsimp only at hnot
  omega

theorem arenas_frame (inv : Inv R s B L) {mem' : Nat → Nat} (hw : Within s.heaps s.mem mem') {k : Nat}
    (hk : k < s.narenas) : ArenaOk mem' s.regions s.heaps (s.arena k) where
  home := (inv.arenas k hk).home
  fast := (inv.arenas k hk).fast
  bins i hi := by
    have h128 : nBins = 128 := rfl
    rw [hw]
    · exact (inv.arenas k hk).bins i hi
    · intro g hg ha
      have hoff := inv.off_arena hk hg ha
      unfold sentinel at hoff
      omega

theorem mapped_of_region {regions : List Region} {r : Region} (hr : r ∈ regions) {a : Nat}
    (hlow : r.base ≤ a) (hup : a + 8 ≤ r.base + r.size) :
    regions.any (fun r => decide (r.base ≤ a ∧ a + 8 ≤ r.base + r.size)) = true :=
  List.any_eq_true.mpr ⟨r, hr, decide_eq_true ⟨hlow, hup⟩⟩

theorem block_has (inv : Inv R s B L) (hc : B c = some b) {a : Nat} (hlow : c ≤ a)
    (hup : a ≤ c + b.size + 24) : ∃ g ∈ s.heaps, g.start ≤ a ∧ a + 8 ≤ g.start + g.size := by
  obtain ⟨g, hg, h1, h2⟩ := inv.cells.laid.room hc
  have hf := inv.cells.laid.fits g hg
  have h3 := hf.first
  have h4 := hf.fence
  exact ⟨g, hg, by omega, by omega⟩

theorem mapped_block (inv : Inv R s B L) (hc : B c = some b) {a : Nat} (hlow : c ≤ a)
    (hup : a ≤ c + b.size + 24) : s.mapped a = true := by
  obtain ⟨g, hg, h1, h2⟩ := inv.block_has hc hlow hup
  exact mapped_of_region (inv.homes g hg) h1 h2

/-- A word of a block, or of the header after it, written anew: the memory outside heaps stays. -/
theorem within_block (inv : Inv R s B L) (hc : B c = some b) {mem' : Nat → Nat}
    (hw : Within s.heaps s.mem mem') {a v : Nat} (hlow : c ≤ a) (hup : a ≤ c + b.size + 24) :
    Within s.heaps s.mem (Function.update mem' a v) := by
  obtain ⟨g, hg, h1, h2⟩ := inv.block_has hc hlow hup
  exact hw.update hg ⟨h1, by unfold Heap.region; dsimp only; omega⟩

end Inv

end MyMalloc.Ptmalloc.Words
