import MyMalloc.Adaptive.Telemetry
import Mathlib.Algebra.BigOperators.Group.List.Basic
import Mathlib.Algebra.Order.Group.Nat

/- The selector's windows (`adaptive_telemetry.cpp`).

   `adaptive_extract_window_features` takes a snapshot of the counters and then,
   under a lock, returns what they gained since `g_window_base` and makes the
   snapshot the new base. The snapshot is taken before the lock, so between the two
   steps of a call any other call may rebase. The windows partition the events as
   long as bases only move forward; a snapshot older than the base is counted from
   zero again by `delta_u64`. -/
namespace MyMalloc.Adaptive.Windows

/-- The counters of `TelemetryCounters` that only ever grow. -/
inductive CounterId where
  | mallocCalls
  | freeCalls
  | invalidFreeCount
  | doubleFreeCount
  | headerCorruptionCount
  | slowPathCount
  | mmapCount
  | remoteFreeCount
  | sameThreadFreeCount
  | storageAllocCount (i : StorageId)
  | storageRequestedBytes (i : StorageId)
  | storageUsableBytes (i : StorageId)
  | storagePoolHits (i : StorageId)
  | storagePoolMisses (i : StorageId)
  | sizeHistogram (i : Fin 10)
  | sizeBytesHistogram (i : Fin 10)
  deriving DecidableEq

structure Counters where
  count : CounterId → Nat
  mappedBytes : Nat
  liveBytes : Nat

/-- `nonnegative_i64` of a signed counter. -/
def nonnegative (c : Counter) : Nat := c.toInt.toNat

def readCounters (st : Stats) : Counters where
  count
    | .mallocCalls => st.mallocCalls.toNat
    | .freeCalls => st.freeCalls.toNat
    | .invalidFreeCount => st.invalidFreeCount.toNat
    | .doubleFreeCount => st.doubleFreeCount.toNat
    | .headerCorruptionCount => st.headerCorruptionCount.toNat
    | .slowPathCount => st.slowPathCount.toNat
    | .mmapCount => st.mmapCount.toNat
    | .remoteFreeCount => st.remoteFreeCount.toNat
    | .sameThreadFreeCount => st.sameThreadFreeCount.toNat
    | .storageAllocCount i => (st.storageAllocCount i).toNat
    | .storageRequestedBytes i => (st.storageRequestedBytes i).toNat
    | .storageUsableBytes i => (st.storageUsableBytes i).toNat
    | .storagePoolHits i => (st.storagePoolHits i).toNat
    | .storagePoolMisses i => (st.storagePoolMisses i).toNat
    | .sizeHistogram i => (st.sizeHistogram i).toNat
    | .sizeBytesHistogram i => (st.sizeBytesHistogram i).toNat
  mappedBytes := nonnegative st.mappedBytes
  liveBytes := nonnegative st.liveBytes

def deltaU64 (current base : Nat) : Nat := if base ≤ current then current - base else current

/-- `delta_counters`: the two gauges are not differences. -/
def deltaCounters (current base : Counters) : Counters where
  count c := deltaU64 (current.count c) (base.count c)
  mappedBytes := current.mappedBytes
  liveBytes := current.liveBytes

/-- The telemetry, `g_window_base`, the snapshots of the calls in flight, and what the completed
calls returned. -/
structure World (τ : Type) where
  stats : Stats
  windowBase : Counters
  snapshot : τ → Option Counters
  returned : List Counters

inductive Action (τ : Type) where
  /-- Telemetry events move the counters on. -/
  | events (st : Stats)
  /-- A call starts: `read_counters`. -/
  | snapshot (t : τ)
  /-- The locked part of a call. -/
  | rebase (t : τ)

/-- No counter was reset or ran over. -/
def Advances (st st' : Stats) : Prop := ∀ c, (readCounters st).count c ≤ (readCounters st').count c

section
variable {τ : Type} [DecidableEq τ]

def start : World τ := ⟨{}, ⟨fun _ => 0, 0, 0⟩, fun _ => none, []⟩

inductive Step (w : World τ) : Action τ → World τ → Prop where
  | events {st : Stats} (h : Advances w.stats st) : Step w (.events st) { w with stats := st }
  | snapshot {t : τ} (h : w.snapshot t = none) :
      Step w (.snapshot t)
        { w with snapshot := Function.update w.snapshot t (some (readCounters w.stats)) }
  | rebase {t : τ} {current : Counters} (h : w.snapshot t = some current) :
      Step w (.rebase t)
        { w with
          windowBase := current
          snapshot := Function.update w.snapshot t none
          returned := deltaCounters current w.windowBase :: w.returned }

/-- The step rebases counter `c` forward, if at all: the snapshot is not older than the base. -/
def forward (c : CounterId) (w : World τ) : Action τ → Bool
  | .rebase t => (w.snapshot t).all fun current => decide (w.windowBase.count c ≤ current.count c)
  | _ => true

/-- The states of all runs, with whether every step so far moved counter `c` forward. -/
inductive Run (c : CounterId) : World τ → Bool → Prop where
  | start : Run c start true
  | step {w w' : World τ} {ordered : Bool} (a : Action τ) (h : Run c w ordered) (hs : Step w a w') :
      Run c w' (ordered && forward c w a)

/-- What all completed calls together returned for a counter. -/
def returnedSum (w : World τ) (c : CounterId) : Nat := (w.returned.map (·.count c)).sum

/-- Each event of the counter is in exactly one window. -/
def Partitioned (w : World τ) (c : CounterId) : Prop := returnedSum w c = w.windowBase.count c

omit [DecidableEq τ] in
theorem returnedSum_cons (w : World τ) (c : CounterId) (d : Counters) (base : Counters)
    (snap : τ → Option Counters) :
    returnedSum { w with windowBase := base, snapshot := snap, returned := d :: w.returned } c =
      d.count c + returnedSum w c := by
  simp [returnedSum]

/-- What was returned never falls short of the base; it equals it exactly if no window was
taken backwards. -/
theorem Run.sum {c : CounterId} {w : World τ} {ordered : Bool} (h : Run c w ordered) :
    w.windowBase.count c ≤ returnedSum w c ∧ (Partitioned w c ↔ ordered = true) := by
  induction h with
  | start => exact ⟨Nat.le_refl _, iff_of_true rfl rfl⟩
  | @step w w' ordered a _ hs ih =>
    obtain ⟨hle, hiff⟩ := ih
    cases hs with
    | events _ => exact ⟨hle, by simpa [forward, Partitioned, returnedSum] using hiff⟩
    | snapshot _ => exact ⟨hle, by simpa [forward, Partitioned, returnedSum] using hiff⟩
    | @rebase t current hsnap =>
      have hfwd : forward c w (.rebase t) = true ↔ w.windowBase.count c ≤ current.count c := by
        simp [forward, hsnap]
      rw [Partitioned, returnedSum_cons, Bool.and_eq_true, hfwd, ← hiff, Partitioned]
      show current.count c ≤ deltaU64 _ _ + _ ∧ (deltaU64 _ _ + _ = current.count c ↔ _)
      unfold deltaU64
      split <;> omega

/-- The windows partition the events of a counter exactly if no call rebases it with a
snapshot older than the base. -/
theorem windows_partition_iff {c : CounterId} {w : World τ} {ordered : Bool} (h : Run c w ordered) :
    Partitioned w c ↔ ordered = true := h.sum.2

end

/-! ## Two extractions -/

/-- Counters after `n` calls of `malloc`. -/
def afterMallocs (n : Nat) : Stats := { mallocCalls := BitVec.ofNat 64 n }

theorem afterMallocs_advances {m n : Nat} (h : m ≤ n) (hn : n < 2^64) :
    Advances (afterMallocs m) (afterMallocs n) := by
  intro c
  cases c with
  | mallocCalls =>
    show (BitVec.ofNat 64 m).toNat ≤ (BitVec.ofNat 64 n).toNat
    rw [BitVec.toNat_ofNat, BitVec.toNat_ofNat, Nat.mod_eq_of_lt hn, Nat.mod_eq_of_lt (by omega)]
    exact h
  | _ => exact Nat.le_refl _

/-- One extraction after another. -/
theorem successive_windows_partition : ∃ w : World Unit,
    Run .mallocCalls w true ∧ w.returned.length = 2 ∧ Partitioned w .mallocCalls := by
  have hrun : ∃ w : World Unit, Run .mallocCalls w true ∧ w.returned.length = 2 :=
    ⟨_, .step (.rebase ()) (.step (.snapshot ()) (.step (.events (afterMallocs 2)) (.step (.rebase ())
      (.step (.snapshot ()) (.step (.events (afterMallocs 1)) .start
        (.events (afterMallocs_advances (m := 0) (by decide) (by decide))))
        (.snapshot rfl)) (.rebase rfl))
        (.events (afterMallocs_advances (m := 1) (by decide) (by decide)))) (.snapshot rfl))
      (.rebase rfl), rfl⟩
  obtain ⟨w, h, hlen⟩ := hrun
  exact ⟨w, h, hlen, (windows_partition_iff h).mpr rfl⟩

/-- The older of two snapshots rebases last: three calls are reported, of which there were
two, and the base says one. -/
theorem stale_snapshot_counted_twice : ∃ (w : World Bool) (ordered : Bool),
    Run .mallocCalls w ordered ∧ returnedSum w .mallocCalls = 3 ∧
      w.windowBase.count .mallocCalls = 1 := by
  refine ⟨_, _, .step (.rebase false) (.step (.rebase true) (.step (.snapshot true)
    (.step (.events (afterMallocs 2)) (.step (.snapshot false) (.step (.events (afterMallocs 1)) .start
      (.events (afterMallocs_advances (m := 0) (by decide) (by decide)))) (.snapshot rfl))
      (.events (afterMallocs_advances (m := 1) (by decide) (by decide)))) (.snapshot rfl))
    (.rebase rfl)) (.rebase rfl), ?_, ?_⟩ <;> rfl

end MyMalloc.Adaptive.Windows
