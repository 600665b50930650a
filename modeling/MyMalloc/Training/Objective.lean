import MyMalloc.Adaptive.Types
import MyMalloc.Lib.Grouping
import MyMalloc.Lib.Weights
import Mathlib.Data.Rat.Defs
import Mathlib.Algebra.Order.AbsoluteValue.Basic
import Mathlib.Tactic.NormNum

/- The objective of the trainer (`tools/train_selector_model.py`): measured rows,
   their metrics normalised within a workload, and the cost formula learned from
   pairwise preferences.

   Arithmetic is exact, in any ordered field. A row is what the trainer reads of
   a fixed-mode row of the benchmark: a missing key counts as zero, and `case`
   is the mode the case stands for.

   The weights of the formula start uniform. Each preferred pair may add a
   multiple of the difference of its rows, after which the weights are clipped
   and divided by their sum, or reset if there is almost nothing left; each epoch
   ends with a mixture with the uniform weights. All of these lead from weights
   to weights, whatever the rows, so the cost is an average of the metrics. -/
namespace MyMalloc.Training

open Adaptive

inductive Metric where
  | ms
  | peakRssKb
  | mappedLiveRatio
  | fragmentationEstimate
  | slowPathRatio
  | modeSwitches
  | validationErrors
  deriving DecidableEq, Repr

def objectiveMetrics : List Metric :=
  [.ms, .peakRssKb, .mappedLiveRatio, .fragmentationEstimate, .slowPathRatio, .modeSwitches,
   .validationErrors]

/-- A row of the dataset. -/
structure Row (K : Type) where
  workload : String
  case : ModeId
  metric : Metric → K
  largeBytesRatio : K
  remoteFreeRatio : K
  sizeEntropy : K
  cacheHitRate : K
  allocCalls : K
  liveBytes : K

/-- A normalised row, with its `__row_id`. -/
structure Item (K : Type) where
  rowId : Nat
  value : Metric → K

structure ObjectiveModel (K : Type) where
  metrics : List Metric
  weights : List K
  switchCost : K
  pairwiseAccuracy : K

/-- What `majority_preference` returns: -1, 1 or 0. -/
inductive Preference where
  | first
  | second
  | neither
  deriving DecidableEq, Repr

variable {K : Type} [Field K] [LinearOrder K] [IsStrictOrderedRing K]

/-! ## Normalisation -/

/-- `min(values)`. -/
def lowest : List K → K
  | [] => 0
  | v :: vs => vs.foldl min v

/-- `max(values)`. -/
def highest : List K → K
  | [] => 0
  | v :: vs => vs.foldl max v

def normalize (lo hi value : K) : K :=
  if hi ≤ lo then 0 else max 0 (min 1 ((value - lo) / (hi - lo)))

/-- A row within the rows of its workload. -/
def normalizeRow (workloadRows : List (Row K)) (row : Row K) (m : Metric) : K :=
  let values := workloadRows.map (·.metric m)
  normalize (lowest values) (highest values) (row.metric m)

/-- The rows are gone through workload by workload, and counted in that order. -/
def normalizedMetricRows (rows : List (Row K)) : List (Item K) :=
  ((groups Row.workload rows).flatMap fun g => g.2.map (normalizeRow g.2)).mapIdx Item.mk

/-- `by_id[i]`. -/
def byId (items : List (Item K)) (i : Nat) : Metric → K :=
  ((items.find? (·.rowId = i)).map (·.value)).getD fun _ => 0

/-! ## Preferences -/

def majorityPreference (a b : Metric → K) : Preference :=
  let decided := objectiveMetrics.filter fun m => ¬ |a m - b m| < 1 / 10^9
  let aWins := decided.countP fun m => a m < b m
  let bWins := decided.countP fun m => ¬ a m < b m
  if aWins = bWins then .neither else if bWins < aWins then .first else .second

/-- The positions of the rows of each workload. -/
def indexGroups (rows : List (Row K)) : List (List Nat) :=
  (groups (fun x : Row K × Nat => x.1.workload) rows.zipIdx).map fun g => g.2.map (·.2)

/-- The pairs of a list, earlier items first. -/
def pairsOf : List Nat → List (Nat × Nat)
  | [] => []
  | ia :: rest => rest.map (ia, ·) ++ pairsOf rest

/-- A pair of rows, and which of them is better. -/
structure Pair where
  ia : Nat
  ib : Nat
  pref : Preference

def preferredPairs (item : Nat → Metric → K) (indexes : List (List Nat)) : List Pair :=
  indexes.flatMap fun g => (pairsOf g).filterMap fun (ia, ib) =>
    let pref := majorityPreference (item ia) (item ib)
    if pref = .neither then none else some ⟨ia, ib, pref⟩

/-! ## Learning -/

def uniformWeights : List K :=
  List.replicate objectiveMetrics.length (1 / (objectiveMetrics.length : K))

def metricList (x : Metric → K) : List K := objectiveMetrics.map x

/-- The metrics of the worse row minus those of the better one. -/
def difference (a b : Metric → K) (pref : Preference) : List K :=
  metricList fun m => if pref = .first then b m - a m else a m - b m

/-- What one pair does to the weights. -/
def learnPair (learningRate : K) (item : Nat → Metric → K) (weights : List K) (p : Pair) : List K :=
  let diff := difference (item p.ia) (item p.ib) p.pref
  if dot weights diff < 25 / 1000 then
    let clipped := (List.zipWith (fun w d => w + learningRate * d) weights diff).map (max 0)
    if clipped.sum ≤ 1 / 10^12 then uniformWeights else rescale clipped
  else weights

/-- The shrink step at the end of an epoch. -/
def shrink (regularization : K) (weights : List K) : List K :=
  if 0 < regularization then
    rescale (weights.map fun w => (1 - regularization) * w + regularization * (1 / weights.length))
  else weights

def epoch (learningRate regularization : K) (item : Nat → Metric → K) (pairs : List Pair)
    (weights : List K) : List K :=
  shrink regularization (pairs.foldl (learnPair learningRate item) weights)

def learnWeights (epochs : Nat) (learningRate regularization : K) (item : Nat → Metric → K)
    (pairs : List Pair) : List K :=
  if pairs.isEmpty then uniformWeights
  else (epoch learningRate regularization item pairs)^[epochs] uniformWeights

/-- The pair is ordered by cost as by preference. -/
def agrees (weights : List K) (item : Nat → Metric → K) (p : Pair) : Bool :=
  let ca := dot weights (metricList (item p.ia))
  let cb := dot weights (metricList (item p.ib))
  (p.pref = .first && ca < cb) || (p.pref = .second && cb < ca)

/-- The gap between the two least costs of a workload. -/
def costGap (weights : List K) (item : Nat → Metric → K) (indexes : List Nat) : Option K :=
  match (indexes.map fun i => dot weights (metricList (item i))).mergeSort (· ≤ ·) with
  | c₀ :: c₁ :: _ => some (max 0 (c₁ - c₀))
  | _ => none

/-- Half of the median gap. -/
def medianGap (gaps : List K) : K :=
  if gaps.isEmpty then 0 else 1 / 2 * (gaps.mergeSort (· ≤ ·)).getD (gaps.length / 2) 0

def learnObjectiveModel (rows : List (Row K)) (epochs : Nat) (learningRate regularization : K) :
    ObjectiveModel K :=
  let item := byId (normalizedMetricRows rows)
  let indexes := indexGroups rows
  let pairs := preferredPairs item indexes
  let weights := learnWeights epochs learningRate regularization item pairs
  { metrics := objectiveMetrics
    weights := weights
    switchCost := medianGap (indexes.filterMap (costGap weights item))
    pairwiseAccuracy :=
      if pairs.isEmpty then 0 else (pairs.countP (agrees weights item) : K) / (pairs.length : K) }

def objectiveCost (row : Row K) (normalizedRow : Metric → K) (objective : ObjectiveModel K) : K :=
  let cost := (List.zipWith (fun m w => w * normalizedRow m) objective.metrics objective.weights).sum
  if 0 < row.metric .validationErrors then cost + 4 else cost

/-! ## The weights stay weights -/

omit [IsStrictOrderedRing K] in
theorem normalize_mem [ZeroLEOneClass K] (lo hi value : K) :
    0 ≤ normalize lo hi value ∧ normalize lo hi value ≤ 1 := by
  unfold normalize
  split
  · exact ⟨le_refl _, zero_le_one⟩
  · exact ⟨le_max_left .., max_le zero_le_one (min_le_left ..)⟩

/-- Weights for the seven metrics. -/
structure MetricWeights (ws : List K) : Prop extends Weights ws where
  length : ws.length = objectiveMetrics.length

theorem metricWeights_uniform : MetricWeights (uniformWeights (K := K)) :=
  ⟨weights_uniform (by decide), List.length_replicate⟩

theorem MetricWeights.learnPair {ws : List K} (h : MetricWeights ws) (learningRate : K)
    (item : Nat → Metric → K) (p : Pair) :
    MetricWeights (learnPair learningRate item ws p) := by
  unfold Training.learnPair
  dsimp only
  split
  · split
    · exact metricWeights_uniform
    · next hsum =>
      -- after the clipping only the sum matters, and it is not zero
      refine ⟨.rescale (fun w hw => ?_) fun h0 => hsum ?_, ?_⟩
      · obtain ⟨v, -, rfl⟩ := List.mem_map.mp hw
        exact le_max_left ..
      · rw [h0]
        positivity
      · simp [difference, metricList, h.length]
  · exact h

theorem MetricWeights.shrink {ws : List K} (h : MetricWeights ws) {r : K} (h1 : r ≤ 1) :
    MetricWeights (shrink r ws) := by
  unfold Training.shrink
  split
  · next hr =>
    have hmix := h.toWeights.mix hr.le h1
    exact ⟨.rescale hmix.nonneg (by rw [hmix.sum]; exact one_ne_zero), by simp [h.length]⟩
  · exact h

theorem MetricWeights.epoch {ws : List K} (h : MetricWeights ws) (learningRate : K) {r : K}
    (h1 : r ≤ 1) (item : Nat → Metric → K) (pairs : List Pair) :
    MetricWeights (epoch learningRate r item pairs ws) := by
  refine MetricWeights.shrink ?_ h1
  induction pairs generalizing ws with
  | nil => exact h
  | cons p pairs ih => exact ih (h.learnPair learningRate item p)

theorem metricWeights_learned (epochs : Nat) (learningRate : K) {r : K} (h1 : r ≤ 1)
    (item : Nat → Metric → K) (pairs : List Pair) :
    MetricWeights (learnWeights epochs learningRate r item pairs) := by
  unfold learnWeights
  split
  · exact metricWeights_uniform
  · induction epochs with
    | zero => exact metricWeights_uniform
    | succ n ih =>
      rw [Function.iterate_succ_apply']
      exact ih.epoch learningRate h1 item pairs

/-! ## The cost -/

omit [IsStrictOrderedRing K] in
/-- The part of the cost that is learned. -/
theorem objectiveCost_eq (row : Row K) (x : Metric → K) {M : ObjectiveModel K}
    (hM : M.metrics = objectiveMetrics) :
    objectiveCost row x M =
      dot M.weights (metricList x) + if 0 < row.metric .validationErrors then 4 else 0 := by
  have hdot : (List.zipWith (fun m w => w * x m) M.metrics M.weights).sum =
      dot M.weights (metricList x) := by
    rw [hM, dot, metricList, List.zipWith_map_right, List.zipWith_comm]
  unfold objectiveCost
  dsimp only
  rw [hdot]
  split
  · rfl
  · exact (add_zero _).symm

/-- **The learned objective is a monotone average.** Its weights are non-negative and sum to one. The
cost does not fall when a metric rises; on normalised rows it is between 0 and 1 without validation
errors, and at least 4 with them. -/
theorem objective_is_average (rows : List (Row K)) (epochs : Nat) (learningRate : K)
    {regularization : K} (h1 : regularization ≤ 1) :
    let M := learnObjectiveModel rows epochs learningRate regularization
    (∀ w ∈ M.weights, 0 ≤ w) ∧ M.weights.sum = 1 ∧
      (∀ (row : Row K) (x y : Metric → K), (∀ m, x m ≤ y m) →
        objectiveCost row x M ≤ objectiveCost row y M) ∧
      ∀ (rows' : List (Row K)), ∀ item ∈ normalizedMetricRows rows', ∀ row : Row K,
        (row.metric .validationErrors ≤ 0 →
          0 ≤ objectiveCost row item.value M ∧ objectiveCost row item.value M ≤ 1) ∧
        (0 < row.metric .validationErrors → 4 ≤ objectiveCost row item.value M) := by
  intro M
  have hw : MetricWeights M.weights := metricWeights_learned epochs learningRate h1 ..
  refine ⟨hw.nonneg, hw.sum, fun row x y hxy => ?_, fun rows' item hitem row => ?_⟩
  · rw [objectiveCost_eq row x rfl, objectiveCost_eq row y rfl]
    refine add_le_add_left (dot_mono hw.nonneg ?_) _
    exact List.forall₂_map_left_iff.mpr (List.forall₂_map_right_iff.mpr (List.forall₂_same.mpr fun m _ => hxy m))
  · -- every normalised value is between 0 and 1
    have hvalue : ∀ m, 0 ≤ item.value m ∧ item.value m ≤ 1 := by
      obtain ⟨i, hi, rfl⟩ := List.mem_mapIdx.mp hitem
      obtain ⟨g, -, hg⟩ := List.mem_flatMap.mp (List.getElem_mem hi)
      obtain ⟨r, -, hr⟩ := List.mem_map.mp hg
      intro m
      rw [← hr]
      exact normalize_mem ..
    have hlen : (metricList item.value).length = M.weights.length := by simp [metricList, hw.length]
    have hdot := hw.toWeights.dot_mem hlen
      (fun v hv => by
        obtain ⟨m, -, rfl⟩ := List.mem_map.mp hv
        exact hvalue m)
    rw [objectiveCost_eq row item.value rfl]
    constructor
    · intro hok
      rw [if_neg (not_lt.mpr hok), add_zero]
      exact hdot
    · intro herr
      rw [if_pos herr]
      exact le_add_of_nonneg_left hdot.1

/-- A row in which only the time was measured. -/
def timedRow (workload : String) (case : ModeId) (ms : K) : Row K :=
  ⟨workload, case, fun m => if m = .ms then ms else 0, 0, 0, 0, 0, 0, 0⟩

/-- The parameters the trainer is run with. -/
theorem default_objective_is_average :
    (learnObjectiveModel [timedRow "burst" .balanced (3 : ℚ), timedRow "burst" .compactRSS 5]
      200 (8 / 100) (2 / 100)).weights.sum = 1 :=
  (objective_is_average _ 200 (8 / 100) (by norm_num)).2.1

end MyMalloc.Training
