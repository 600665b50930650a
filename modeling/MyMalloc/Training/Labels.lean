import MyMalloc.Adaptive.CostModel
import MyMalloc.Training.Objective

/- The labels of the training examples (`load_examples`).

   `normalized_metric_rows` returns the rows workload by workload, in the order in
   which the workloads first occur. Both of its callers take the result for a
   list in the order of the rows: `load_examples` zips the two, and
   `learn_objective_model` looks a row up by its position. So the row at a
   position gets the metrics of whatever row comes to this position when the rows
   are regrouped. That is its own row as long as the rows of each workload are
   next to each other (`regroup_eq_iff`), and in any other order of the workloads
   some measurements are given to the wrong row (`labels_right_iff`).

   A row is an object in the source, and a dictionary maps its identity to its
   metrics; here the identity is the position in the list. -/
namespace MyMalloc.Training

open Adaptive

structure Example (K : Type) where
  mode : ModeId
  features : Feature → K
  target : K
  workload : String

inductive SignatureSource where
  | balanced
  | mean
  deriving DecidableEq, Repr

variable {K : Type} [Field K] [LinearOrder K]

/-! ## Loading -/

def rowFeatures (log1p : K → K) (row : Row K) : Feature → K
  | .largeBytesRatio => row.largeBytesRatio
  | .remoteFreeRatio => row.remoteFreeRatio
  | .mappedLiveRatio => row.metric .mappedLiveRatio
  | .slowPathRatio => row.metric .slowPathRatio
  | .sizeEntropy => row.sizeEntropy
  | .internalFragRatio => row.metric .fragmentationEstimate
  | .cacheHitRate => row.cacheHitRate
  | .safetyErrorRate => row.metric .validationErrors / max 1 row.allocCalls
  | .logAllocCalls => safeLog1p log1p row.allocCalls
  | .logLiveBytes => safeLog1p log1p row.liveBytes

/-- The rows whose features stand for a workload. -/
def signatureRows (source : SignatureSource) (workloadRows : List (Row K)) : List (Row K) :=
  match source with
  | .balanced =>
    let balanced := workloadRows.filter (·.case = .balanced)
    if balanced.isEmpty then workloadRows else balanced
  | .mean => workloadRows

def signature (log1p : K → K) (rows : List (Row K)) (f : Feature) : K :=
  (rows.map fun row => rowFeatures log1p row f).sum / rows.length

/-- `normalized_by_workload`: the rows with the normalised rows of their positions. -/
def normalizedByWorkload (rows : List (Row K)) : List (String × List ((Row K × Nat) × Item K)) :=
  groups (fun x => x.1.1.workload) (rows.zipIdx.zip (normalizedMetricRows rows))

/-- `norm_rows[id(row)]` for the row at position `i`. -/
def normRow (rows : List (Row K)) (workload : String) (i : Nat) : Metric → K :=
  (((normalizedByWorkload rows).find? (·.1 = workload)).bind fun g =>
    (g.2.find? (·.1.2 = i)).map (·.2.value)).getD fun _ => 0

/-- The examples of one workload. -/
def workloadExamples (log1p : K → K) (objective : ObjectiveModel K) (rows : List (Row K))
    (source : SignatureSource) (workload : String) (workloadRows : List (Row K × Nat)) :
    List (Example K) :=
  let features := signature log1p (signatureRows source (workloadRows.map (·.1)))
  workloadRows.map fun (row, i) =>
    { mode := row.case
      features := features
      target := objectiveCost row (normRow rows workload i) objective
      workload := workload }

def loadExamples (log1p : K → K) (path : String) (objective : ObjectiveModel K)
    (fixedRows : List (Row K)) (source : SignatureSource) : Except String (List (Example K)) :=
  let examples := (groups (fun x : Row K × Nat => x.1.workload) fixedRows.zipIdx).flatMap fun g =>
    workloadExamples log1p objective fixedRows source g.1 g.2
  if examples.isEmpty then .error ("no fixed-mode training examples found in " ++ path)
  else .ok examples

/-! ## What the labels should be -/

/-- A row normalised within its own workload. -/
def ownMetrics (rows : List (Row K)) (row : Row K) : Metric → K :=
  normalizeRow (rows.filter (·.workload = row.workload)) row

/-- Every target is computed from the metrics of its own row. The examples come workload by workload. -/
def TargetsRight (rows : List (Row K)) (objective : ObjectiveModel K) : Prop :=
  ∀ log1p path source examples, loadExamples log1p path objective rows source = .ok examples →
    examples.map (·.target) =
      (regroup Row.workload rows).map fun row => objectiveCost row (ownMetrics rows row) objective

/-- The rows `learn_objective_model` compares are the rows it indexes. -/
def ComparisonsRight (rows : List (Row K)) : Prop :=
  ∀ i row, rows[i]? = some row → byId (normalizedMetricRows rows) i = ownMetrics rows row

def LabelsRight (rows : List (Row K)) : Prop :=
  (∀ objective, TargetsRight rows objective) ∧ ComparisonsRight rows

/-! ## What they are -/

/-- The normalised rows are those of the regrouped rows. -/
theorem normalizedMetricRows_eq (rows : List (Row K)) :
    normalizedMetricRows rows =
      ((regroup Row.workload rows).map (ownMetrics rows)).mapIdx Item.mk := by
  rw [normalizedMetricRows, regroup, List.map_flatMap]
  refine congrArg _ (List.flatMap_congr fun g hg => List.map_congr_left fun row hrow => ?_)
  obtain ⟨hgroup, -⟩ := mem_groups hg
  have hk : row.workload = g.1 := by
    rw [hgroup] at hrow
    simpa using (List.mem_filter.mp hrow).2
  rw [ownMetrics, hk, ← hgroup]

omit [Field K] [LinearOrder K] in
theorem find?_rowId (l : List (Metric → K)) (i : Nat) :
    (l.mapIdx Item.mk).find? (·.rowId = i) = l[i]?.map (Item.mk i) := by
  by_cases hi : i < l.length
  · rw [List.getElem?_eq_getElem hi, Option.map_some, List.find?_eq_some_iff_getElem]
    refine ⟨by simp, i, by simpa using hi, by simp, fun j hj => ?_⟩
    simpa using Nat.ne_of_lt hj
  · rw [List.getElem?_eq_none (by omega), Option.map_none, List.find?_eq_none]
    intro x hx
    obtain ⟨j, hj, rfl⟩ := List.mem_mapIdx.mp hx
    simp only [decide_eq_true_eq]
    omega

theorem byId_eq (rows : List (Row K)) (i : Nat) :
    byId (normalizedMetricRows rows) i =
      (((regroup Row.workload rows).map (ownMetrics rows))[i]?).getD fun _ => 0 := by
  rw [byId, normalizedMetricRows_eq, find?_rowId, Option.map_map]
  exact congrArg (Option.getD · _) (Option.map_id' ..)

theorem normalizedMetricRows_length (rows : List (Row K)) :
    (normalizedMetricRows rows).length = rows.length := by
  rw [normalizedMetricRows_eq, List.length_mapIdx, List.length_map, (regroup_perm ..).length_eq]

/-- The rows are found by their ids. -/
theorem byId_getElem {rows : List (Row K)} {i : Nat} (hi : i < (normalizedMetricRows rows).length) :
    byId (normalizedMetricRows rows) i = (normalizedMetricRows rows)[i].value := by
  have hlist : i < ((regroup Row.workload rows).map (ownMetrics rows)).length := by
    simpa [normalizedMetricRows_eq] using hi
  rw [byId_eq, List.getElem?_eq_getElem hlist, Option.getD_some]
  simp only [normalizedMetricRows_eq, List.getElem_mapIdx]

/-- The dictionary leads the row at a position to the normalised row of the position. -/
theorem normRow_eq {rows : List (Row K)} {row : Row K} {i : Nat} (h : rows[i]? = some row) :
    normRow rows row.workload i = byId (normalizedMetricRows rows) i := by
  obtain ⟨hi, rfl⟩ := List.getElem?_eq_some_iff.mp h
  have hi' : i < (normalizedMetricRows rows).length := by rwa [normalizedMetricRows_length]
  have hz : i < (rows.zipIdx.zip (normalizedMetricRows rows)).length := by
    simpa [normalizedMetricRows_length] using hi
  have hget : (rows.zipIdx.zip (normalizedMetricRows rows))[i] =
      ((rows[i], i), (normalizedMetricRows rows)[i]) := by simp
  have hgroup := find?_groups (fun x : (Row K × Nat) × Item K => x.1.1.workload)
    (hget ▸ List.getElem_mem hz)
  rw [normRow, normalizedByWorkload, hgroup, Option.bind_some, List.find?_filter, byId_getElem hi']
  -- of the pairs of this workload, only the one at position `i` has the row's identity
  have hfind : ∀ q : (Row K × Nat) × Item K → Bool, q ((rows[i], i), (normalizedMetricRows rows)[i]) = true →
      (∀ x, q x = true → x.1.2 = i) →
      (rows.zipIdx.zip (normalizedMetricRows rows)).find? q =
        some ((rows[i], i), (normalizedMetricRows rows)[i]) := by
    intro q hq hq'
    refine List.find?_eq_some_iff_getElem.mpr ⟨hq, i, hz, hget, fun j hj => ?_⟩
    have hne : ¬ q (rows.zipIdx.zip (normalizedMetricRows rows))[j] = true := fun hj' => by
      have : j = i := by simpa using hq' _ hj'
      omega
    simpa using hne
  rw [hfind _ (by simp) (by simp)]
  rfl

omit [Field K] [LinearOrder K] in
theorem zipIdx_regroup (rows : List (Row K)) :
    (regroup (fun x : Row K × Nat => x.1.workload) rows.zipIdx).map (·.1) = regroup Row.workload rows := by
  have h := regroup_map Row.workload (fun x : Row K × Nat => x.1) rows.zipIdx
  rw [List.zipIdx_map_fst] at h
  exact h.symm

/-- The targets, row by row. -/
theorem targets_eq (log1p : K → K) (path : String) (objective : ObjectiveModel K) (rows : List (Row K))
    (source : SignatureSource) {examples : List (Example K)}
    (h : loadExamples log1p path objective rows source = .ok examples) :
    examples.map (·.target) = (regroup (fun x : Row K × Nat => x.1.workload) rows.zipIdx).map
      fun x => objectiveCost x.1 (byId (normalizedMetricRows rows) x.2) objective := by
  unfold loadExamples at h
  dsimp only at h
  split at h
  · cases h
  · obtain rfl := Except.ok.inj h
    rw [regroup, List.map_flatMap, List.map_flatMap]
    refine List.flatMap_congr fun g hg => ?_
    obtain ⟨hgroup, -⟩ := mem_groups hg
    rw [workloadExamples, List.map_map]
    refine List.map_congr_left fun x hx => ?_
    rw [hgroup] at hx
    obtain ⟨hx, hk⟩ := List.mem_filter.mp hx
    have hk : x.1.workload = g.1 := by simpa using hk
    have hget := List.mem_zipIdx_iff_getElem?.mp hx
    simp only [Function.comp_apply, ← hk, normRow_eq hget]

/-! ## When they are right -/

/-- The labels are right exactly if regrouping the rows does not change the sequence of their
normalised metrics. -/
theorem labelsRight_iff_regroup (rows : List (Row K)) :
    LabelsRight rows ↔ (regroup Row.workload rows).map (ownMetrics rows) = rows.map (ownMetrics rows) := by
  have hlen := (regroup_perm Row.workload rows).length_eq
  constructor
  · rintro ⟨-, hcmp⟩
    refine List.ext_getElem (by simpa using hlen) fun i hi hi' => ?_
    have hrow : i < rows.length := by simpa using hi'
    have hown := hcmp i rows[i] (List.getElem?_eq_getElem hrow)
    rw [byId_eq, List.getElem?_eq_getElem hi, Option.getD_some] at hown
    rw [hown, List.getElem_map]
  · intro heq
    have hcmp : ComparisonsRight rows := by
      intro i row hrow
      rw [byId_eq, heq, List.getElem?_map, hrow]
      rfl
    refine ⟨fun objective log1p path source examples hex => ?_, hcmp⟩
    rw [targets_eq log1p path objective rows source hex, ← zipIdx_regroup, List.map_map]
    refine List.map_congr_left fun x hx => ?_
    have hget := List.mem_zipIdx_iff_getElem?.mp ((regroup_perm ..).mem_iff.mp hx)
    rw [Function.comp_apply, hcmp x.2 x.1 hget]

theorem labelsRight_of_contiguous {rows : List (Row K)} (h : Contiguous Row.workload rows) :
    LabelsRight rows := by
  rw [labelsRight_iff_regroup, (regroup_eq_iff ..).mpr h]

/-! ## Orders in which they are not -/

section misplaced
omit [Field K] in
theorem foldl_min_eq {vs : List K} {v c : K} (hc : c ∈ v :: vs) (hle : ∀ x ∈ v :: vs, c ≤ x) :
    vs.foldl min v = c := by
  induction vs generalizing v with
  | nil => exact (List.mem_singleton.mp hc).symm
  | cons w vs ih =>
    rw [List.foldl_cons]
    have hvw := le_min (hle v List.mem_cons_self) (hle w (by simp))
    refine ih ?_ fun x hx => ?_
    · rcases List.mem_cons.mp hc with rfl | hc
      · exact List.mem_cons.mpr (.inl (le_antisymm hvw (min_le_left ..)))
      · rcases List.mem_cons.mp hc with rfl | hc
        · exact List.mem_cons.mpr (.inl (le_antisymm hvw (min_le_right ..)))
        · exact List.mem_cons_of_mem _ hc
    · rcases List.mem_cons.mp hx with rfl | hx
      · exact hvw
      · exact hle x (by simp [hx])

theorem lowest_eq {l : List K} {c : K} (hc : c ∈ l) (hle : ∀ x ∈ l, c ≤ x) : lowest l = c := by
  cases l with
  | nil => exact absurd hc List.not_mem_nil
  | cons v vs => exact foldl_min_eq hc hle

theorem highest_eq {l : List K} {c : K} (hc : c ∈ l) (hle : ∀ x ∈ l, x ≤ c) : highest l = c := by
  cases l with
  | nil => exact absurd hc List.not_mem_nil
  | cons v vs => exact foldl_min_eq (K := Kᵒᵈ) hc hle

variable [IsStrictOrderedRing K] (ws : List String) (r : Nat)

/-- The row at position `j` if only the one at position `r` took any time. -/
def spikeRow (j : Nat) : Row K := timedRow (ws.getD j "") .balanced (if j = r then 1 else 0)

def spike : List (Row K) := (List.range ws.length).map (spikeRow ws r)

omit [LinearOrder K] [IsStrictOrderedRing K] in
theorem spike_workloads : (spike ws r : List (Row K)).map Row.workload = ws := by
  refine List.ext_getElem (by simp [spike]) fun i hi hi' => ?_
  simp [spike, spikeRow, timedRow, hi']

variable {ws r}

omit [LinearOrder K] [IsStrictOrderedRing K] in
theorem mem_workload {j x : Nat} {v : K} (hj : j < ws.length) (hx : ws.getD j "" = ws.getD x "")
    (hv : v = if j = r then 1 else 0) :
    v ∈ (((spike ws r).filter (·.workload = (spikeRow ws r x : Row K).workload)).map (·.metric .ms)) := by
  refine List.mem_map.mpr ⟨spikeRow ws r j, List.mem_filter.mpr ⟨?_, ?_⟩, ?_⟩
  · exact List.mem_map.mpr ⟨j, List.mem_range.mpr hj, rfl⟩
  · simpa [spikeRow, timedRow] using hx
  · simpa [spikeRow, timedRow] using hv.symm

theorem workload_values {x : Nat} {v : K}
    (h : v ∈ (((spike ws r).filter (·.workload = (spikeRow ws r x : Row K).workload)).map (·.metric .ms))) :
    0 ≤ v ∧ v ≤ 1 := by
  obtain ⟨row, hrow, rfl⟩ := List.mem_map.mp h
  obtain ⟨j, -, rfl⟩ := List.mem_map.mp (List.mem_filter.mp hrow).1
  have hms : (spikeRow ws r j : Row K).metric .ms = if j = r then 1 else 0 := rfl
  rw [hms]
  split
  · exact ⟨zero_le_one, le_refl _⟩
  · exact ⟨le_refl _, zero_le_one⟩

/-- With another row in its workload, the slow row is at the upper end. -/
theorem ownMetrics_spike {q : Nat} (hr : r < ws.length) (hq : q < ws.length) (hne : q ≠ r)
    (hkey : ws.getD q "" = ws.getD r "") :
    ownMetrics (spike ws r) (spikeRow ws r r : Row K) .ms = 1 := by
  have hlo := lowest_eq (mem_workload (K := K) hq hkey (if_neg hne).symm) fun v hv => (workload_values hv).1
  have hhi := highest_eq (mem_workload (K := K) hr rfl (if_pos rfl).symm) fun v hv => (workload_values hv).2
  have hms : (spikeRow ws r r : Row K).metric .ms = 1 := if_pos rfl
  rw [ownMetrics, normalizeRow, hlo, hhi, hms, normalize, if_neg (not_le.mpr zero_lt_one)]
  simp

/-- Any other row is at the lower end. -/
theorem ownMetrics_spike_of_ne {p : Nat} (hp : p < ws.length) (hne : p ≠ r) :
    ownMetrics (spike ws r) (spikeRow ws r p : Row K) .ms = 0 := by
  have hlo := lowest_eq (mem_workload (K := K) hp rfl (if_neg hne).symm) fun v hv => (workload_values hv).1
  have hms : (spikeRow ws r p : Row K).metric .ms = 0 := if_neg hne
  rw [ownMetrics, normalizeRow, hlo, hms, normalize]
  split <;> simp

theorem contiguous_of_labelsRight
    (h : ∀ rows : List (Row K), rows.map Row.workload = ws → LabelsRight rows) : Contiguous id ws := by
  have hkeys : ws = (List.range ws.length).map fun j => ws.getD j "" := by
    conv_lhs => rw [← spike_workloads (K := K) ws 0, spike, List.map_map]
    rfl
  by_contra hc
  rw [hkeys, contiguous_map] at hc
  obtain ⟨p, r, q, hp, hne, hq, hqr, hkey⟩ := exists_misplaced hc
  have hr : r < ws.length := List.mem_range.mp ((regroup_perm ..).mem_iff.mp (List.mem_of_getElem? hp))
  have hpn : p < ws.length := by
    have := (List.getElem?_eq_some_iff.mp hp).1
    rwa [(regroup_perm ..).length_eq, List.length_range] at this
  -- position `p` gets the metrics of the slow row, and is not the slow row
  have hbad := (h (spike ws r) (spike_workloads ws r)).2 p (spikeRow ws r p) (by simp [spike, hpn])
  have hregroup : regroup Row.workload (spike ws r : List (Row K)) =
      (regroup (fun j => ws.getD j "") (List.range ws.length)).map (spikeRow ws r) :=
    regroup_map Row.workload (spikeRow ws r) (List.range ws.length)
  rw [byId_eq, hregroup, List.map_map, List.getElem?_map, hp] at hbad
  have hms := congrFun hbad .ms
  rw [ownMetrics_spike_of_ne hpn hne] at hms
  exact one_ne_zero ((ownMetrics_spike hr hq hqr hkey).symm.trans hms)

/-- **Labels and row order.** The labels are right exactly if regrouping the rows by workload does
not change the sequence of their normalised metrics. An order of the workloads is right for all
measurements exactly if the rows of each workload are next to each other. -/
theorem labels_right_iff (rows : List (Row K)) :
    (LabelsRight rows ↔
      (regroup Row.workload rows).map (ownMetrics rows) = rows.map (ownMetrics rows)) ∧
    ((∀ rows' : List (Row K), rows'.map Row.workload = rows.map Row.workload → LabelsRight rows') ↔
      Contiguous Row.workload rows) := by
  refine ⟨labelsRight_iff_regroup rows, fun h => ?_, fun h rows' hrows => ?_⟩
  · exact (contiguous_map ..).mp (contiguous_of_labelsRight h)
  · refine labelsRight_of_contiguous ((contiguous_map ..).mp ?_)
    rw [hrows]
    exact (contiguous_map ..).mpr h

end misplaced

/-- The same rows with those of "mixed" next to each other. -/
theorem grouped_rows_labelled :
    LabelsRight [timedRow "mixed" .balanced (1 : ℚ), timedRow "mixed" .compactRSS 3, timedRow "burst" .balanced 7] :=
  (labels_right_iff _).1.mpr rfl

/-- The rows of one workload on both sides of another's. -/
def interleaved : List (Row ℚ) :=
  [timedRow "mixed" .balanced 1, timedRow "burst" .balanced 7, timedRow "mixed" .compactRSS 3]

/-- The slower row of "mixed" gets the cost of the only row of "burst", and the other way round. -/
theorem interleaved_rows_mislabelled :
    ¬ LabelsRight interleaved ∧
      (loadExamples id "rows" ⟨objectiveMetrics, [1, 0, 0, 0, 0, 0, 0], 0, 0⟩ interleaved .mean).toOption.map
        (·.map fun e => (e.workload, e.mode, e.target)) =
          some [("mixed", .balanced, 0), ("mixed", .compactRSS, 0), ("burst", .balanced, 1)] := by
  refine ⟨fun h => ?_, by decide +kernel⟩
  have hid : byId (normalizedMetricRows interleaved) 2 .ms = 0 := by decide +kernel
  have hown : ownMetrics interleaved (timedRow "mixed" .compactRSS 3) .ms = 1 := by decide +kernel
  have hms := congrFun (h.2 2 (timedRow "mixed" .compactRSS 3) rfl) .ms
  rw [hid, hown] at hms
  exact zero_ne_one hms

end MyMalloc.Training
