import MyMalloc.Lib.Along
import MyMalloc.Lib.HeapContract
import Mathlib.Data.List.GetD
import Mathlib.Tactic.IntervalCases

/- Payload validation in the benchmark runner: the phases `tiny_cache_churn`,
   `medium_frag_strong` and `rss_decay_hold` of `tools/bench_runner.cpp`.

   A phase writes a pattern into each block it allocates and compares it before it
   gives the block back. Where a block comes from `allocate`, the pattern is written
   with the running id, and the record is filled in as
   `{p, size, id++, static_cast<unsigned char>(id)}`. A braced list is evaluated from
   left to right, so the seed in the record is already the next id, and the
   comparison fails for every allocator (`payloadCheck_filled`). The `reallocate`
   branch writes the pattern with the seed of the record, so its blocks pass. Hence
   a phase ends without a validation error exactly if it never validates a block
   that has not been reallocated since it was allocated (`no_false_alarm_iff`).

   The phases are modelled over any allocator that keeps the `Contract`, and over
   any random generator. `int` parameters are `Int`. The counters are natural
   numbers: a phase adds less than `2^34` to them. -/
namespace MyMalloc.Bench

/-! ## Patterns -/

/-- `unsigned char(seed + i * 17u)`. -/
def patternByte (seed : UInt8) (i : Nat) : UInt8 := seed + UInt8.ofNat (i * 17)

section Payload
variable {σ : Type}

def payloadWrite (ptr size : Nat) (seed : UInt8) (h : Heap σ) : Heap σ :=
  if ptr = 0 then h
  else (List.range (min size 64)).foldl (fun h i => h.store (ptr + i) (patternByte seed i)) h

def payloadCheck (mem : Memory) (ptr size : Nat) (seed : UInt8) : Bool :=
  if ptr = 0 then true
  else (List.range (min size 64)).all fun i => mem (ptr + i) == patternByte seed i

end Payload

/-! ## Metrics -/

/-- The members of `BenchConfig` that the phases read. -/
structure BenchConfig where
  payloadValidation : Bool := false
  payloadValidationRate : Int := 64

structure GeneratedMetrics where
  ops : Nat := 0
  allocs : Nat := 0
  frees : Nat := 0
  reallocs : Nat := 0
  remoteFrees : Nat := 0
  requestedBytes : Nat := 0
  liveObjects : Nat := 0
  liveBytes : Nat := 0
  peakLiveBytes : Nat := 0
  validationChecks : Nat := 0
  validationErrors : Nat := 0

structure PayloadRecord where
  ptr : Nat := 0
  size : Nat := 0
  id : Nat := 0
  seed : UInt8 := 0

def shouldValidate (cfg : BenchConfig) (m : GeneratedMetrics) : Bool :=
  cfg.payloadValidation && decide (cfg.payloadValidationRate > 0) &&
    m.allocs % cfg.payloadValidationRate.toNat == 0

def validationCheckRecord (cfg : BenchConfig) (mem : Memory) (m : GeneratedMetrics) (r : PayloadRecord) :
    GeneratedMetrics :=
  if r.ptr = 0 || !shouldValidate cfg m then m
  else
    let m := { m with validationChecks := m.validationChecks + 1 }
    if !payloadCheck mem r.ptr r.size r.seed then { m with validationErrors := m.validationErrors + 1 }
    else m

def metricsAlloc (m : GeneratedMetrics) (size : Nat) : GeneratedMetrics :=
  { m with
    ops := m.ops + 1
    allocs := m.allocs + 1
    requestedBytes := m.requestedBytes + size
    liveObjects := m.liveObjects + 1
    liveBytes := m.liveBytes + size
    peakLiveBytes := max m.peakLiveBytes (m.liveBytes + size) }

def metricsFree (m : GeneratedMetrics) (size : Nat) (remote : Bool) : GeneratedMetrics :=
  { m with
    ops := m.ops + 1
    frees := m.frees + 1
    remoteFrees := if remote then m.remoteFrees + 1 else m.remoteFrees
    liveObjects := if m.liveObjects > 0 then m.liveObjects - 1 else m.liveObjects
    liveBytes := if m.liveBytes > size then m.liveBytes - size else 0 }

def metricsRealloc (m : GeneratedMetrics) (oldSize newSize : Nat) : GeneratedMetrics :=
  let liveBytes := (if m.liveBytes > oldSize then m.liveBytes - oldSize else 0) + newSize
  { m with
    ops := m.ops + 1
    reallocs := m.reallocs + 1
    requestedBytes := m.requestedBytes + newSize
    liveBytes := liveBytes
    peakLiveBytes := max m.peakLiveBytes liveBytes }

/-! ## The phases -/

/-- `std::mt19937` with `std::uniform_int_distribution<int>(lo, hi)`. -/
structure Rng (ρ : Type) where
  seeded : Nat → ρ
  draw : Nat → Nat → ρ → Nat × ρ
  draw_mem : ∀ {lo hi r}, lo ≤ hi → lo ≤ (draw lo hi r).1 ∧ (draw lo hi r).1 ≤ hi

/-- The local variables of a phase, the metrics it was given and the heap.
`rewritten` is not in the program: it says of which slots the pattern was last
written by the `reallocate` branch. -/
structure Phase (σ ρ : Type) where
  heap : Heap σ
  rng : ρ
  m : GeneratedMetrics
  id : Nat
  ptrs : List PayloadRecord
  rewritten : Nat → Bool

section Phases
variable {σ ρ : Type} (A : Allocator σ) (g : Rng ρ) (cfg : BenchConfig)

/-- A phase starts with `count` empty slots and `id = 1`. -/
def Phase.start (heap : Heap σ) (rng : ρ) (m : GeneratedMetrics) (count : Nat) : Phase σ ρ :=
  ⟨heap, rng, m, 1, List.replicate count {}, fun _ => false⟩

def Phase.record (s : Phase σ ρ) (i : Nat) : PayloadRecord := s.ptrs.getD i {}

/-- `allocate`, `payload_write`, the record, and `metrics_alloc`. -/
def allocateRecord (size : Nat) (s : Phase σ ρ) : PayloadRecord × Phase σ ρ :=
  let a := A.allocate size s.heap
  -- the initialiser after `id++` sees the incremented id
  ({ ptr := a.1, size := size, id := s.id, seed := UInt8.ofNat (s.id + 1) },
    { s with
      heap := payloadWrite a.1 size (UInt8.ofNat s.id) a.2
      id := s.id + 1
      m := metricsAlloc s.m size })

/-- `validation_check_record`, `deallocate` and `metrics_free`. -/
def releaseRecord (r : PayloadRecord) (s : Phase σ ρ) : Phase σ ρ :=
  { s with
    heap := A.deallocate r.ptr s.heap
    m := metricsFree (validationCheckRecord cfg s.heap.mem s.m r) r.size false }

/-- Allocate a block into slot `i`. -/
def fill (i size : Nat) (s : Phase σ ρ) : Phase σ ρ :=
  let a := allocateRecord A size s
  { a.2 with ptrs := a.2.ptrs.set i a.1, rewritten := Function.update a.2.rewritten i false }

/-- Check and release slot `i`, whatever it holds. -/
def drain (i : Nat) (s : Phase σ ρ) : Phase σ ρ :=
  let s' := releaseRecord A cfg (s.record i) s
  { s' with ptrs := s'.ptrs.set i {} }

/-- Check and release slot `i` if it holds a block. -/
def sweep (i : Nat) (s : Phase σ ρ) : Phase σ ρ :=
  if (s.record i).ptr ≠ 0 then drain A cfg i s else s

def tinySizes : List Nat := [16, 32, 64, 128]

def tinyBatch : Nat := 256

/-- The `while (done < ops)` loop. -/
def tinyLoop (ops done : Nat) (s : Phase σ ρ) : Phase σ ρ :=
  if done < ops then
    let n := min tinyBatch (ops - done)
    let s := (List.range n).foldl (fun s i => fill A i (tinySizes.getD ((i + done) % 4) 0) s) s
    let s := (List.range n).reverse.foldl (fun s i => drain A cfg i s) s
    tinyLoop ops (done + n) s
  else s
termination_by ops - done
decreasing_by simp only [tinyBatch]; omega

def runTinyCacheChurnPhase (ops : Int) (heap : Heap σ) (rng : ρ) (m : GeneratedMetrics) : Phase σ ρ :=
  tinyLoop A cfg ops.toNat 0 (.start heap rng m tinyBatch)

def mediumSizes : List Nat := [1024, 1536, 2048, 3072, 4096, 6144, 8192, 12288, 16384, 32768]

/-- The `reallocate` branch for slot `idx`. -/
def reallocRecord (idx newSize : Nat) (s : Phase σ ρ) : Phase σ ρ :=
  let r := s.record idx
  let a := A.reallocate r.ptr newSize s.heap
  if a.1 ≠ 0 then
    let seed := UInt8.ofNat (s.id + 1)
    { s with
      heap := payloadWrite a.1 newSize seed a.2
      id := s.id + 1
      m := metricsRealloc s.m r.size newSize
      ptrs := s.ptrs.set idx { ptr := a.1, size := newSize, id := s.id, seed := seed }
      rewritten := Function.update s.rewritten idx true }
  else { s with heap := a.2 }

/-- An iteration of the main loop of `run_medium_frag_strong_phase`. -/
def visit (slotCount : Nat) (s : Phase σ ρ) : Phase σ ρ :=
  let slot := g.draw 0 (slotCount - 1) s.rng
  let action := g.draw 0 9 slot.2
  let r := s.record slot.1
  if r.ptr = 0 then
    let k := g.draw 0 9 action.2
    fill A slot.1 (mediumSizes.getD k.1 0) { s with rng := k.2 }
  else if action.1 < 4 then
    let k := g.draw 0 9 action.2
    reallocRecord A slot.1 (mediumSizes.getD k.1 0)
      { s with rng := k.2, m := validationCheckRecord cfg s.heap.mem s.m r }
  else drain A cfg slot.1 { s with rng := action.2 }

def runMediumFragStrongPhase (ops slots : Int) (seed : Nat) (heap : Heap σ) (m : GeneratedMetrics) :
    Phase σ ρ :=
  let slotCount := (max 128 slots).toNat
  let s := (List.range ops.toNat).foldl (fun s _ => visit A g cfg slotCount s)
    (.start heap (g.seeded seed) m slotCount)
  (List.range slotCount).foldl (fun s i => sweep A cfg i s) s

/-- An iteration of the loop that builds the peak. -/
def fillDrawn (i : Nat) (s : Phase σ ρ) : Phase σ ρ :=
  let size := g.draw 4096 32768 s.rng
  fill A i size.1 { s with rng := size.2 }

def smallSizes : List Nat := [64, 128, 256, 512]

/-- An iteration of the loop of small requests: the record is a local variable. -/
def small (size : Nat) (s : Phase σ ρ) : Phase σ ρ :=
  let a := allocateRecord A size s
  releaseRecord A cfg a.1 a.2

def runRssDecayHoldPhase (ops slots : Int) (seed : Nat) (heap : Heap σ) (m : GeneratedMetrics) :
    Phase σ ρ :=
  let peakObjects := (max 1024 (slots * 4)).toNat
  let s := (List.range peakObjects).foldl (fun s i => fillDrawn A g i s)
    (.start heap (g.seeded seed) m peakObjects)
  let s := (List.range (peakObjects * 9 / 10)).foldl (fun s i => drain A cfg i s) s
  let s := (List.range ops.toNat).foldl (fun s i => small A cfg (smallSizes.getD (i % 4) 0) s) s
  (List.range peakObjects).foldl (fun s i => sweep A cfg i s) s

/-! ## The phases as lists of steps -/

/-- The iterations of the loops. -/
inductive Step
  | fill (i size : Nat)
  | fillDrawn (i : Nat)
  | drain (i : Nat)
  | sweep (i : Nat)
  | visit (slotCount : Nat)
  | small (size : Nat)

def Step.exec : Step → Phase σ ρ → Phase σ ρ
  | .fill i size => Bench.fill A i size
  | .fillDrawn i => Bench.fillDrawn A g i
  | .drain i => Bench.drain A cfg i
  | .sweep i => Bench.sweep A cfg i
  | .visit slotCount => Bench.visit A g cfg slotCount
  | .small size => Bench.small A cfg size

/-- Validation would not look at this record, or its pattern was written by the `reallocate` branch. -/
def Trusted (m : GeneratedMetrics) (ptr : Nat) (rewritten : Bool) : Prop :=
  ptr = 0 ∨ shouldValidate cfg m = false ∨ rewritten = true

/-- The step validates no block that has not been reallocated since it was allocated. -/
def Step.Quiet : Step → Phase σ ρ → Prop
  | .fill .., _ => True
  | .fillDrawn _, _ => True
  | .drain i, s => Trusted cfg s.m (s.record i).ptr (s.rewritten i)
  | .sweep i, s => Trusted cfg s.m (s.record i).ptr (s.rewritten i)
  | .visit slotCount, s =>
    let idx := (g.draw 0 (slotCount - 1) s.rng).1
    Trusted cfg s.m (s.record idx).ptr (s.rewritten idx)
  | .small size, s => Trusted cfg (metricsAlloc s.m size) (A.allocate size s.heap).1 false

def tinySteps (ops done : Nat) : List Step :=
  if done < ops then
    let n := min tinyBatch (ops - done)
    (List.range n).map (fun i => .fill i (tinySizes.getD ((i + done) % 4) 0)) ++
      ((List.range n).reverse.map .drain ++ tinySteps ops (done + n))
  else []
termination_by ops - done
decreasing_by simp only [tinyBatch]; omega

def mediumSteps (ops slotCount : Nat) : List Step :=
  (List.range ops).map (fun _ => .visit slotCount) ++ (List.range slotCount).map .sweep

def rssSteps (ops peakObjects : Nat) : List Step :=
  (List.range peakObjects).map .fillDrawn ++ ((List.range (peakObjects * 9 / 10)).map .drain ++
    ((List.range ops).map (fun i => .small (smallSizes.getD (i % 4) 0)) ++
      (List.range peakObjects).map .sweep))

theorem tinyLoop_eq (ops done : Nat) (s : Phase σ ρ) :
    tinyLoop A cfg ops done s = runSteps (Step.exec A g cfg) (tinySteps ops done) s := by
  fun_induction tinyLoop A cfg ops done s with
  | case1 done s h n s₁ s₂ ih =>
    rw [tinySteps, if_pos h, runSteps_append, runSteps_append, runSteps_map, runSteps_map]
    exact ih
  | case2 done s h => rw [tinySteps, if_neg h, runSteps_nil]

theorem runMediumFragStrongPhase_eq (ops slots : Int) (seed : Nat) (heap : Heap σ) (m : GeneratedMetrics) :
    runMediumFragStrongPhase A g cfg ops slots seed heap m =
      runSteps (Step.exec A g cfg) (mediumSteps ops.toNat (max 128 slots).toNat)
        (.start heap (g.seeded seed) m (max 128 slots).toNat) := by
  rw [mediumSteps, runSteps_append, runSteps_map, runSteps_map]
  rfl

theorem runRssDecayHoldPhase_eq (ops slots : Int) (seed : Nat) (heap : Heap σ) (m : GeneratedMetrics) :
    runRssDecayHoldPhase A g cfg ops slots seed heap m =
      runSteps (Step.exec A g cfg) (rssSteps ops.toNat (max 1024 (slots * 4)).toNat)
        (.start heap (g.seeded seed) m (max 1024 (slots * 4)).toNat) := by
  rw [rssSteps, runSteps_append, runSteps_append, runSteps_append, runSteps_map, runSteps_map, runSteps_map,
    runSteps_map]
  rfl

end Phases

/-! ## What the comparison finds -/

/-- The payload of a block holds the pattern of `seed`. -/
def Filled (mem : Memory) (ptr size : Nat) (seed : UInt8) : Prop :=
  ∀ i < min size 64, mem (ptr + i) = patternByte seed i

/-- The first byte tells the seeds apart. -/
theorem payloadCheck_filled {mem : Memory} {ptr size : Nat} {seed written : UInt8} (hp : ptr ≠ 0)
    (hsize : 0 < size) (h : Filled mem ptr size written) :
    payloadCheck mem ptr size seed = true ↔ written = seed := by
  rw [payloadCheck, if_neg hp, List.all_eq_true]
  constructor
  · intro hall
    have h0 := hall 0 (List.mem_range.mpr (by omega))
    rw [beq_iff_eq, h 0 (by omega)] at h0
    simpa [patternByte] using h0
  · rintro rfl i hi
    rw [beq_iff_eq]
    exact h i (List.mem_range.mp hi)

section Write
variable {σ : Type} {A : Allocator σ} (C : Contract A) {h : Heap σ} {B : Blocks} {p n : Nat} (seed : UInt8)

/-- The first `k` rounds of the loop of `payload_write`. -/
theorem write_prefix (hg : C.Good h B) (hp : B.size p = some n) (k : Nat) (hk : k ≤ n) :
    let h' := (List.range k).foldl (fun h i => h.store (p + i) (patternByte seed i)) h
    C.Good h' B ∧ (∀ i < k, h'.mem (p + i) = patternByte seed i) ∧
      ∀ a, (∀ i < k, a ≠ p + i) → h'.mem a = h.mem a := by
  induction k with
  | zero => exact ⟨hg, fun _ hi => absurd hi (Nat.not_lt_zero _), fun _ _ => rfl⟩
  | succ k ih =>
    obtain ⟨hg', hin, hout⟩ := ih (by omega)
    rw [List.range_succ, List.foldl_append, List.foldl_cons, List.foldl_nil]
    refine ⟨C.store _ hg' hp (by omega), fun i hi => ?_, fun a ha => ?_⟩
    · rcases Nat.lt_succ_iff_lt_or_eq.mp hi with hlt | rfl
      · rw [Heap.store_mem, Function.update_of_ne (by omega), hin i hlt]
      · rw [Heap.store_mem, Function.update_self]
    · rw [Heap.store_mem, Function.update_of_ne (ha k (by omega)), hout a fun i hi => ha i (by omega)]

theorem payloadWrite_spec (hg : C.Good h B) (hp : B.size p = some n) :
    C.Good (payloadWrite p n seed h) B ∧ Filled (payloadWrite p n seed h).mem p n seed ∧
      SameOn (B.erase p) h.mem (payloadWrite p n seed h).mem := by
  obtain ⟨hg', hin, hout⟩ := write_prefix C seed hg hp (min n 64) (by omega)
  rw [payloadWrite, if_neg (B.ne_null hp)]
  refine ⟨hg', hin, fun q k hq i hi => hout _ fun j hj => ?_⟩
  have hne : q ≠ p := fun e => by simp [e] at hq
  have := B.apart hne (Blocks.erase_of_ne hne ▸ hq) hp
  omega

end Write

/-! ## The invariant of the phases -/

section Invariant
variable {σ ρ : Type} {A : Allocator σ} {C : Contract A} {g : Rng ρ} {cfg : BenchConfig}
variable {s : Phase σ ρ} {B B₀ B' : Blocks} {mem mem' : Memory} {rw : Bool} {r : PayloadRecord}

/-- The block of a record is held, and holds the pattern that was written last. -/
structure Holds (B : Blocks) (mem : Memory) (rewritten : Bool) (r : PayloadRecord) : Prop where
  block : B.size r.ptr = some r.size
  size_pos : 0 < r.size
  seed : r.seed = UInt8.ofNat (r.id + 1)
  filled : Filled mem r.ptr r.size (if rewritten then r.seed else UInt8.ofNat r.id)

/-- The blocks of the slots are different blocks that hold their patterns. -/
structure SlotsHold (B : Blocks) (mem : Memory) (rewritten : Nat → Bool) (ptrs : List PayloadRecord) : Prop where
  holds : ∀ (i : Nat) (r : PayloadRecord), ptrs[i]? = some r → r.ptr ≠ 0 → Holds B mem (rewritten i) r
  distinct : ∀ (i j : Nat) (r r' : PayloadRecord), i ≠ j → ptrs[i]? = some r → ptrs[j]? = some r' → r.ptr ≠ 0 → r.ptr ≠ r'.ptr

def Inv (C : Contract A) (s : Phase σ ρ) : Prop :=
  ∃ B, C.Good s.heap B ∧ SlotsHold B s.heap.mem s.rewritten s.ptrs

theorem Inv.with (h : Inv C s) (rng : ρ) (m : GeneratedMetrics) : Inv C { s with rng := rng, m := m } := h

theorem Holds.keep (h : Holds B mem rw r) (hk : Preserved B₀ mem B' mem') (h₀ : B₀.size r.ptr = some r.size) :
    Holds B' mem' rw r :=
  ⟨(hk h₀).1, h.size_pos, h.seed, fun i hi => ((hk h₀).2 i (by omega)).trans (h.filled i hi)⟩

theorem SlotsHold.record (h : SlotsHold B s.heap.mem s.rewritten s.ptrs) (i : Nat) (hp : (s.record i).ptr ≠ 0) :
    s.ptrs[i]? = some (s.record i) ∧ Holds B s.heap.mem (s.rewritten i) (s.record i) := by
  have hi : s.ptrs[i]? = some (s.record i) := by
    rw [Phase.record, List.getD_eq_getElem?_getD] at hp ⊢
    cases hr : s.ptrs[i]? with
    | none => simp [hr] at hp
    | some r => rfl
  exact ⟨hi, h.holds i _ hi hp⟩

theorem SlotsHold.others (h : SlotsHold B s.heap.mem s.rewritten s.ptrs) (i : Nat) {j : Nat} (hj : j ≠ i)
    (hr : s.ptrs[j]? = some r) (hp : r.ptr ≠ 0) : (B.erase (s.record i).ptr).size r.ptr = some r.size := by
  have hne : r.ptr ≠ (s.record i).ptr := by
    intro e
    obtain ⟨hi, -⟩ := h.record i (e ▸ hp)
    exact h.distinct j i _ _ hj hr hi hp e
  rw [Blocks.erase_of_ne hne, (h.holds j r hr hp).block]

/-- Slot `i` gets another record while the blocks of the other slots are preserved. -/
theorem SlotsHold.set {rewritten : Nat → Bool} {ptrs : List PayloadRecord} {i : Nat}
    (h : SlotsHold B mem rewritten ptrs) (hk : Preserved B₀ mem B' mem')
    (h₀ : ∀ j r', j ≠ i → ptrs[j]? = some r' → r'.ptr ≠ 0 → B₀.size r'.ptr = some r'.size)
    (hnew : r.ptr ≠ 0 → B₀.size r.ptr = none ∧ Holds B' mem' rw r) :
    SlotsHold B' mem' (Function.update rewritten i rw) (ptrs.set i r) := by
  -- a block of another slot is one of `B₀`, and the new one is not
  have hne : ∀ j r', j ≠ i → ptrs[j]? = some r' → r'.ptr ≠ 0 → r'.ptr ≠ r.ptr := by
    intro j r' hj hr' hp e
    have := (hnew (e ▸ hp)).1
    rw [← e, h₀ j r' hj hr' hp] at this
    cases this
  constructor
  · intro j r' hr' hp
    rw [List.getElem?_set] at hr'
    split at hr'
    · subst j
      split at hr'
      · obtain rfl := Option.some.inj hr'
        rw [Function.update_self]
        exact (hnew hp).2
      · cases hr'
    · rename_i hij
      rw [Function.update_of_ne (Ne.symm hij)]
      exact (h.holds j r' hr' hp).keep hk (h₀ j r' (Ne.symm hij) hr' hp)
  · intro j k r₁ r₂ hjk h₁ h₂ hp e
    rw [List.getElem?_set] at h₁ h₂
    split at h₁
    · subst j
      rw [if_neg hjk] at h₂
      split at h₁
      · obtain rfl := Option.some.inj h₁
        exact hne k r₂ hjk.symm h₂ (e ▸ hp) e.symm
      · cases h₁
    · rename_i hij
      split at h₂
      · split at h₂
        · obtain rfl := Option.some.inj h₂
          exact hne j r₁ (Ne.symm hij) h₁ hp e
        · cases h₂
      · exact h.distinct j k r₁ r₂ hjk h₁ h₂ hp e

/-! ## What the parts of a step do to the blocks -/

theorem allocateRecord_spec {size : Nat} (hg : C.Good s.heap B) (hsize : 0 < size) :
    ∃ B', C.Good (allocateRecord A size s).2.heap B' ∧
      Preserved B s.heap.mem B' (allocateRecord A size s).2.heap.mem ∧
      ((allocateRecord A size s).1.ptr ≠ 0 → B.size (allocateRecord A size s).1.ptr = none ∧
        Holds B' (allocateRecord A size s).2.heap.mem false (allocateRecord A size s).1) := by
  obtain ⟨hsame, ⟨hnull, hg'⟩ | ⟨hf, hg'⟩⟩ := C.allocate hg hsize
  · refine ⟨B, ?_, ?_, fun hp => absurd hnull hp⟩ <;> dsimp only [allocateRecord, payloadWrite]
    · rwa [if_pos hnull]
    · rw [if_pos hnull]
      exact hsame.preserved
  · obtain ⟨hg'', hfill, hrest⟩ := payloadWrite_spec C (UInt8.ofNat s.id) hg' (Blocks.insert_self hf)
    refine ⟨_, hg'', ?_, fun _ => ⟨hf.new, Blocks.insert_self hf, hsize, rfl, hfill⟩⟩
    exact ((hsame.preserved_insert hf).erase hf.new).trans (.of_erase hrest)

variable (cfg) in
/-- Afterwards the blocks but the released one are held. -/
theorem releaseRecord_spec (hg : C.Good s.heap B) (hr : r.ptr ≠ 0 → B.size r.ptr = some r.size) :
    ∃ B', C.Good (releaseRecord A cfg r s).heap B' ∧
      Preserved (B.erase r.ptr) s.heap.mem B' (releaseRecord A cfg r s).heap.mem := by
  rcases eq_or_ne r.ptr 0 with hp | hp
  · obtain ⟨hsame, hg'⟩ := C.deallocate_null hg
    refine ⟨B, ?_, ?_⟩ <;> dsimp only [releaseRecord] <;> rw [hp]
    · exact hg'
    · refine .of_erase fun q k hq => hsame ?_
      have hne : q ≠ 0 := (B.erase 0).ne_null hq
      rwa [Blocks.erase_of_ne hne] at hq
  · obtain ⟨hsame, hg'⟩ := C.deallocate hg (hr hp)
    exact ⟨_, hg', hsame.preserved⟩

theorem Inv.fill {size : Nat} (h : Inv C s) (i : Nat) (hsize : 0 < size) : Inv C (fill A i size s) := by
  obtain ⟨B, hg, hs⟩ := h
  obtain ⟨B', hg', hk, hnew⟩ := allocateRecord_spec hg hsize
  exact ⟨B', hg', hs.set hk (fun j r' _ hr' hp => (hs.holds j r' hr' hp).block) hnew⟩

theorem Inv.drain (h : Inv C s) (i : Nat) : Inv C (drain A cfg i s) := by
  obtain ⟨B, hg, hs⟩ := h
  obtain ⟨B', hg', hk⟩ := releaseRecord_spec cfg hg fun hp => (hs.record i hp).2.block
  refine ⟨B', hg', ?_⟩
  have hset : SlotsHold B' (Bench.drain A cfg i s).heap.mem (Function.update s.rewritten i (s.rewritten i)) (s.ptrs.set i {}) :=
    hs.set hk (fun j r' hj => hs.others i hj) fun hp => absurd rfl hp
  rwa [Function.update_eq_self] at hset

theorem Inv.small {size : Nat} (h : Inv C s) (hsize : 0 < size) : Inv C (small A cfg size s) := by
  obtain ⟨B, hg, hs⟩ := h
  obtain ⟨B₁, hg₁, hk₁, hnew⟩ := allocateRecord_spec hg hsize
  obtain ⟨B₂, hg₂, hk₂⟩ := releaseRecord_spec cfg hg₁ fun hp => (hnew hp).2.block
  have hout : B.size (allocateRecord A size s).1.ptr = none := by
    rcases eq_or_ne (allocateRecord A size s).1.ptr 0 with hp | hp
    · rw [hp, B.null]
    · exact (hnew hp).1
  have hk := (hk₁.erase hout).trans hk₂
  exact ⟨B₂, hg₂, fun j r' hr' hp => (hs.holds j r' hr' hp).keep hk (hs.holds j r' hr' hp).block, hs.distinct⟩

theorem Inv.reallocRecord {size idx : Nat} (h : Inv C s) (hp : (s.record idx).ptr ≠ 0) (hsize : 0 < size) :
    Inv C (reallocRecord A idx size s) := by
  obtain ⟨B, hg, hs⟩ := h
  have hold := hs.record idx hp
  unfold Bench.reallocRecord
  obtain ⟨hnull, hsame, hg'⟩ | ⟨hsame, -, hf, hg'⟩ := C.reallocate hg hold.2.block hsize
  · rw [if_neg (by simpa using hnull)]
    exact ⟨B, hg', fun j r' hr' hp => (hs.holds j r' hr' hp).keep hsame.preserved (hs.holds j r' hr' hp).block,
      hs.distinct⟩
  · rw [if_pos hf.pos]
    obtain ⟨hg'', hfill, hrest⟩ := payloadWrite_spec C (UInt8.ofNat (s.id + 1)) hg' (Blocks.insert_self hf)
    have hk := ((hsame.preserved_insert hf).erase hf.new).trans (.of_erase hrest)
    refine ⟨_, hg'', hs.set hk (fun j r' hj => hs.others idx hj) fun _ => ⟨hf.new, ?_⟩⟩
    exact ⟨Blocks.insert_self hf, hsize, rfl, hfill⟩

/-! ## What a step does to the count of errors -/

/-- The count of errors does not go down, and stays the same exactly if `Q` holds. -/
def Counts (m m' : GeneratedMetrics) (Q : Prop) : Prop :=
  m.validationErrors ≤ m'.validationErrors ∧ (m'.validationErrors = m.validationErrors ↔ Q)

theorem Counts.same {m m' : GeneratedMetrics} {Q : Prop} (h : m'.validationErrors = m.validationErrors) (hQ : Q) :
    Counts m m' Q :=
  ⟨h.ge, iff_of_true h hQ⟩

/-- A block that was allocated and not reallocated fails the comparison. -/
theorem Holds.payloadCheck_iff (h : Holds B mem rw r) : payloadCheck mem r.ptr r.size r.seed = true ↔ rw = true := by
  rw [payloadCheck_filled (B.ne_null h.block) h.size_pos h.filled]
  cases rw with
  | true => simp
  | false => simp [h.seed]

theorem validationCheckRecord_counts (m : GeneratedMetrics) (h : r.ptr ≠ 0 → Holds B mem rw r) :
    Counts m (validationCheckRecord cfg mem m r) (Trusted cfg m r.ptr rw) := by
  unfold validationCheckRecord
  split
  · rename_i hskip
    simp only [Bool.or_eq_true, decide_eq_true_eq, Bool.not_eq_true'] at hskip
    exact .same rfl (hskip.imp_right Or.inl)
  · rename_i hcheck
    simp only [Bool.or_eq_true, decide_eq_true_eq, Bool.not_eq_true', not_or] at hcheck
    have hiff := (h hcheck.1).payloadCheck_iff
    cases hc : payloadCheck mem r.ptr r.size r.seed with
    | true => exact .same rfl (.inr (.inr (hiff.mp hc)))
    | false =>
      -- not skipped and not rewritten: the error is counted
      have hrw : ¬ rw = true := fun e => by simp [hiff.mpr e] at hc
      refine ⟨Nat.le_succ _, iff_of_false (Nat.succ_ne_self _) ?_⟩
      rintro (h0 | h0 | h0)
      · exact hcheck.1 h0
      · exact hcheck.2 h0
      · exact hrw h0

theorem Inv.check_counts (h : Inv C s) (i : Nat) :
    Counts s.m (validationCheckRecord cfg s.heap.mem s.m (s.record i))
      (Trusted cfg s.m (s.record i).ptr (s.rewritten i)) := by
  obtain ⟨B, -, hs⟩ := h
  exact validationCheckRecord_counts s.m fun hp => (hs.record i hp).2

theorem small_counts {size : Nat} (h : Inv C s) (hsize : 0 < size) :
    Counts s.m (small A cfg size s).m ((Step.small size).Quiet A g cfg s) := by
  obtain ⟨B, hg, hs⟩ := h
  obtain ⟨B₁, -, -, hnew⟩ := allocateRecord_spec hg hsize
  exact validationCheckRecord_counts (metricsAlloc s.m size) fun hp => (hnew hp).2

theorem reallocRecord_errors (idx size : Nat) (s : Phase σ ρ) :
    (reallocRecord A idx size s).m.validationErrors = s.m.validationErrors := by
  dsimp only [reallocRecord]
  split <;> rfl

/-! ## Steps and runs -/

/-- The requests of a step are for at least one byte. -/
def Step.Sized : Step → Prop
  | .fill _ size => 0 < size
  | .small size => 0 < size
  | _ => True

theorem mediumSizes_pos (rng : ρ) : 0 < mediumSizes.getD (g.draw 0 9 rng).1 0 := by
  have hk := (g.draw_mem (r := rng) (Nat.zero_le 9)).2
  generalize (g.draw 0 9 rng).1 = k at hk
  interval_cases k <;> decide

theorem Inv.exec (h : Inv C s) (a : Step) (ha : a.Sized) : Inv C (a.exec A g cfg s) := by
  cases a with
  | fill i size => exact h.fill i ha
  | fillDrawn i =>
    have hsize : 4096 ≤ (g.draw 4096 32768 s.rng).1 := (g.draw_mem (by decide)).1
    exact (h.with (g.draw 4096 32768 s.rng).2 s.m).fill i (by omega)
  | drain i => exact h.drain i
  | sweep i =>
    simp only [Step.exec, sweep]
    split
    · exact h.drain i
    · exact h
  | visit slotCount =>
    simp only [Step.exec, visit]
    split
    · exact (h.with _ s.m).fill _ (mediumSizes_pos _)
    · rename_i hp
      split
      · exact (h.with _ _).reallocRecord hp (mediumSizes_pos _)
      · exact (h.with _ s.m).drain _
  | small size => exact h.small ha

theorem Inv.exec_counts (h : Inv C s) (a : Step) (ha : a.Sized) :
    Counts s.m (a.exec A g cfg s).m (a.Quiet A g cfg s) := by
  cases a with
  | fill i size => exact .same rfl trivial
  | fillDrawn i => exact .same rfl trivial
  | drain i => exact h.check_counts i
  | sweep i =>
    simp only [Step.exec, sweep]
    split
    · exact h.check_counts i
    · rename_i hp
      exact .same rfl (.inl (not_not.mp hp))
  | visit slotCount =>
    simp only [Step.exec, visit]
    split
    · rename_i hp
      exact .same rfl (.inl hp)
    · split
      · rw [Counts, reallocRecord_errors]
        exact h.check_counts _
      · exact h.check_counts _
  | small size => exact small_counts h ha

theorem Inv.start (heap : Heap σ) (rng : ρ) (m : GeneratedMetrics) (count : Nat) {B : Blocks}
    (hg : C.Good heap B) : Inv C (Phase.start heap rng m count) := by
  -- every slot is empty
  have hempty : ∀ (i : Nat) (r : PayloadRecord), (List.replicate count ({} : PayloadRecord))[i]? = some r → r.ptr = 0 := by
    intro i r hr
    rw [List.eq_of_mem_replicate (List.mem_of_getElem? hr)]
  exact ⟨B, hg, fun i r hr hp => absurd (hempty i r hr) hp, fun i _ r _ _ hr _ hp => absurd (hempty i r hr) hp⟩

theorem tinySteps_sized (ops done : Nat) : ∀ a ∈ tinySteps ops done, a.Sized := by
  fun_induction tinySteps ops done with
  | case1 done h n ih =>
    intro a ha
    simp only [List.mem_append, List.mem_map] at ha
    obtain ⟨i, -, rfl⟩ | ⟨i, -, rfl⟩ | ha := ha
    · have hk : (i + done) % 4 < 4 := Nat.mod_lt _ (by decide)
      simp only [Step.Sized]
      generalize (i + done) % 4 = k at hk
      interval_cases k <;> decide
    · trivial
    · exact ih a ha
  | case2 => exact fun _ ha => absurd ha List.not_mem_nil

theorem mediumSteps_sized (ops slotCount : Nat) : ∀ a ∈ mediumSteps ops slotCount, a.Sized := by
  intro a ha
  simp only [mediumSteps, List.mem_append, List.mem_map] at ha
  obtain ⟨i, -, rfl⟩ | ⟨i, -, rfl⟩ := ha <;> trivial

theorem rssSteps_sized (ops peakObjects : Nat) : ∀ a ∈ rssSteps ops peakObjects, a.Sized := by
  intro a ha
  simp only [rssSteps, List.mem_append, List.mem_map] at ha
  obtain ⟨i, -, rfl⟩ | ⟨i, -, rfl⟩ | ⟨i, -, rfl⟩ | ⟨i, -, rfl⟩ := ha
  · trivial
  · trivial
  · have hk : i % 4 < 4 := Nat.mod_lt _ (by decide)
    simp only [Step.Sized]
    generalize i % 4 = k at hk
    interval_cases k <;> decide
  · trivial

/-- A run keeps the count of errors exactly if all its steps are quiet. -/
theorem Inv.run_errors (h : Inv C s) {as : List Step} (has : ∀ a ∈ as, a.Sized) :
    (runSteps (Step.exec A g cfg) as s).m.validationErrors = s.m.validationErrors ↔
      Along (Step.exec A g cfg) (Step.Quiet A g cfg) as s :=
  (unchanged_iff_along (f := fun s : Phase σ ρ => s.m.validationErrors) (I := Inv C) (R := Step.Sized)
    (fun a _ ha hs => hs.exec a ha) (fun a _ ha hs => (hs.exec_counts a ha).1)
    (fun a _ ha hs => (hs.exec_counts a ha).2) as s has h).2

/-- Each phase ends without a validation error exactly if none of its steps validates
a block that has not been reallocated since it was allocated. -/
theorem no_false_alarm_iff (A : Allocator σ) (C : Contract A) (g : Rng ρ) (cfg : BenchConfig) (ops slots : Int)
    (seed : Nat) (heap : Heap σ) (rng : ρ) (m : GeneratedMetrics) (B : Blocks) (hg : C.Good heap B)
    (hm : m.validationErrors = 0) :
    ((runTinyCacheChurnPhase A cfg ops heap rng m).m.validationErrors = 0 ↔
      Along (Step.exec A g cfg) (Step.Quiet A g cfg) (tinySteps ops.toNat 0) (.start heap rng m tinyBatch)) ∧
    ((runMediumFragStrongPhase A g cfg ops slots seed heap m).m.validationErrors = 0 ↔
      Along (Step.exec A g cfg) (Step.Quiet A g cfg) (mediumSteps ops.toNat (max 128 slots).toNat)
        (.start heap (g.seeded seed) m (max 128 slots).toNat)) ∧
    ((runRssDecayHoldPhase A g cfg ops slots seed heap m).m.validationErrors = 0 ↔
      Along (Step.exec A g cfg) (Step.Quiet A g cfg) (rssSteps ops.toNat (max 1024 (slots * 4)).toNat)
        (.start heap (g.seeded seed) m (max 1024 (slots * 4)).toNat)) := by
  refine ⟨?_, ?_, ?_⟩
  · rw [runTinyCacheChurnPhase, tinyLoop_eq A g, ← (Inv.start heap rng m tinyBatch hg).run_errors (tinySteps_sized _ _)]
    exact Iff.of_eq (congrArg _ hm.symm)
  · rw [runMediumFragStrongPhase_eq, ← (Inv.start heap _ m _ hg).run_errors (mediumSteps_sized _ _)]
    exact Iff.of_eq (congrArg _ hm.symm)
  · rw [runRssDecayHoldPhase_eq, ← (Inv.start heap _ m _ hg).run_errors (rssSteps_sized _ _)]
    exact Iff.of_eq (congrArg _ hm.symm)

end Invariant

/-- A generator that always draws the least value. -/
def leastRng : Rng Unit := ⟨fun _ => (), fun lo _ _ => (lo, ()), fun h => ⟨Nat.le_refl _, h⟩⟩

def emptyHeap : Heap Nat := ⟨16, fun _ => 0⟩

theorem emptyHeap_good : bumpContract.Good emptyHeap .empty := ⟨by decide, fun _ _ h => nomatch h⟩

theorem tinySteps_one : tinySteps 1 0 = [.fill 0 16, .drain 0] := by
  have hdone : tinySteps 1 1 = [] := by rw [tinySteps, if_neg (Nat.lt_irrefl 1)]
  rw [tinySteps, if_pos Nat.zero_lt_one]
  exact congrArg ([Step.fill 0 16, .drain 0] ++ ·) hdone

/-- One request at a rate of two is never validated. -/
theorem no_alarm_unvalidated :
    bumpContract.Good emptyHeap .empty ∧
    (runTinyCacheChurnPhase bumpAllocator ⟨true, 2⟩ 1 emptyHeap () {}).m.validationErrors = 0 := by
  refine ⟨emptyHeap_good, (no_false_alarm_iff bumpAllocator bumpContract leastRng ⟨true, 2⟩ 1 128 0 emptyHeap () {}
    .empty emptyHeap_good rfl).1.mpr ?_⟩
  rw [show (1 : Int).toNat = 1 from rfl, tinySteps_one]
  exact ⟨trivial, .inr (.inl rfl), trivial⟩

/-- One request at a rate of one: the allocator is right and the validation reports an error. -/
theorem false_alarm :
    bumpContract.Good emptyHeap .empty ∧
    (runTinyCacheChurnPhase bumpAllocator ⟨true, 1⟩ 1 emptyHeap () {}).m.validationErrors = 1 := by
  refine ⟨emptyHeap_good, ?_⟩
  rw [runTinyCacheChurnPhase, tinyLoop_eq bumpAllocator leastRng, show (1 : Int).toNat = 1 from rfl, tinySteps_one]
  rfl

end MyMalloc.Bench
