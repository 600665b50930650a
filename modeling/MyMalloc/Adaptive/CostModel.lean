import MyMalloc.Adaptive.Types
import MyMalloc.Lib.TwoSmallest
import Mathlib.Algebra.Order.Field.Basic
import Mathlib.Data.Rat.Cast.Order
import Mathlib.Data.Rat.Cast.Lemmas
import Mathlib.Tactic.NormNum
import Mathlib.Tactic.Linarith

/- The cost model of the selector (`adaptive_model_selector.cpp`,
   `generated_selector_model.h`): a table of one-split trees, the cost it
   predicts for each mode, and the choice of a mode.

   Costs are exact numbers, elements of any ordered field: the table is
   rational, and features are compared with it, never combined. `log1p` is a
   parameter, since only the comparison of its value with a threshold matters. -/
namespace MyMalloc.Adaptive

/-- The features the selector reads of `WorkloadFeatures`. -/
structure WorkloadFeatures (K : Type) where
  largeBytesRatio : K
  sizeEntropy : K
  cacheHitRate : K
  remoteFreeRatio : K
  mappedLiveRatio : K
  internalFragRatio : K
  slowPathRatio : K
  safetyErrorRate : K
  allocCalls : Nat
  requestedBytes : Nat
  mappedBytes : Nat
  liveBytes : Nat
  remoteFreeCount : Nat
  sameThreadFreeCount : Nat

inductive Feature where
  | largeBytesRatio
  | remoteFreeRatio
  | mappedLiveRatio
  | slowPathRatio
  | sizeEntropy
  | internalFragRatio
  | cacheHitRate
  | safetyErrorRate
  | logAllocCalls
  | logLiveBytes
  deriving DecidableEq, Repr

/-- A tree of `generated_selector_model`: one comparison, two leaves. -/
structure Tree where
  mode : ModeId
  feature : Feature
  threshold : ℚ
  leftValue : ℚ
  rightValue : ℚ
  deriving DecidableEq

def switchCost : ℚ := 0.0101525439468

def bias : ModeId → ℚ
  | .balanced => 0.280339903849
  | .throughputCache => 0.29428866545
  | .deterministicLatency => 0.285576343935
  | .compactRSS => 0.303699426589
  | .fragmentationStable => 0.282038940822
  | .crossThreadMessage => 0.296176714338
  | .largeObjectStreaming => 0.298555930478
  | .hardenedDebug => 10

def trees : List Tree :=
  [⟨.balanced, .slowPathRatio, 0.94, -0.0376149267183, 0.143478131863⟩,
   ⟨.balanced, .slowPathRatio, 0.94, -0.0244497023669, 0.0932607857107⟩,
   ⟨.balanced, .slowPathRatio, 0.048, -0.0296103304308, 0.0279023310681⟩,
   ⟨.balanced, .slowPathRatio, 0.94, -0.0122385013959, 0.0508536948381⟩,
   ⟨.balanced, .mappedLiveRatio, 5375.15, -0.0103469311174, 0.047406332905⟩,
   ⟨.balanced, .slowPathRatio, 0.94, -0.00770254041756, 0.0366763275358⟩,
   ⟨.balanced, .mappedLiveRatio, 5375.15, -0.00661838337743, 0.0335100055344⟩,
   ⟨.balanced, .sizeEntropy, 1.724, 0.0156339630823, -0.0127330202054⟩,
   ⟨.balanced, .mappedLiveRatio, 4776.399, -0.00855195859882, 0.0149327944958⟩,
   ⟨.balanced, .sizeEntropy, 0.947, 0.0223591736067, -0.00608432683145⟩,
   ⟨.throughputCache, .slowPathRatio, 0.94, -0.0205354729895, 0.143524807261⟩,
   ⟨.throughputCache, .internalFragRatio, 0, -0.0384100360534, 0.0556143080914⟩,
   ⟨.throughputCache, .internalFragRatio, 0, -0.0249665234347, 0.0361493002594⟩,
   ⟨.throughputCache, .slowPathRatio, 0.94, -0.00926594787021, 0.0611738617969⟩,
   ⟨.throughputCache, .slowPathRatio, 0.94, -0.00602286611563, 0.039763010168⟩,
   ⟨.throughputCache, .internalFragRatio, 0, -0.0108771553375, 0.0152884667028⟩,
   ⟨.throughputCache, .slowPathRatio, 0.048, -0.00825550549522, 0.0115179760579⟩,
   ⟨.throughputCache, .internalFragRatio, 0, -0.00591090368196, 0.00821311791772⟩,
   ⟨.throughputCache, .cacheHitRate, 0.220415537489, 0.0169047402786, -0.0019250119748⟩,
   ⟨.throughputCache, .internalFragRatio, 0.004, -0.00265997947511, 0.0125724653761⟩,
   ⟨.deterministicLatency, .slowPathRatio, 0.94, -0.0316008115865, 0.145881275706⟩,
   ⟨.deterministicLatency, .slowPathRatio, 0.048, -0.0391999582746, 0.0427931657066⟩,
   ⟨.deterministicLatency, .slowPathRatio, 0.94, -0.0163864065996, 0.0798452212114⟩,
   ⟨.deterministicLatency, .slowPathRatio, 0.94, -0.0106511642897, 0.0518993937874⟩,
   ⟨.deterministicLatency, .mappedLiveRatio, 5375.15, -0.00920301135317, 0.0474131333509⟩,
   ⟨.deterministicLatency, .slowPathRatio, 0.94, -0.00700481125578, 0.0369556599354⟩,
   ⟨.deterministicLatency, .mappedLiveRatio, 4776.399, -0.0108558760998, 0.0189671178527⟩,
   ⟨.deterministicLatency, .mappedLiveRatio, 5375.15, -0.00479585992998, 0.0266317293692⟩,
   ⟨.deterministicLatency, .slowPathRatio, 0.94, -0.00438764504274, 0.0249326406195⟩,
   ⟨.deterministicLatency, .internalFragRatio, 0.184, 0.0027636925859, -0.0266929581273⟩,
   ⟨.compactRSS, .mappedLiveRatio, 124.121, -0.0411574236635, 0.0217730812269⟩,
   ⟨.compactRSS, .mappedLiveRatio, 124.121, -0.0267523253813, 0.0141525027975⟩,
   ⟨.compactRSS, .cacheHitRate, 0.686127744511, 0.0249304030508, -0.00241101133783⟩,
   ⟨.compactRSS, .slowPathRatio, 0.048, -0.00436788290321, 0.014015089577⟩,
   ⟨.compactRSS, .sizeEntropy, 2.839, 0.00477836792603, -0.0231826662427⟩,
   ⟨.compactRSS, .mappedLiveRatio, 124.121, -0.0166888272876, 0.00451187187⟩,
   ⟨.compactRSS, .largeBytesRatio, 0.599, -0.00203783603922, 0.013244647474⟩,
   ⟨.compactRSS, .sizeEntropy, 2.839, 0.00246006846556, -0.0180741932904⟩,
   ⟨.compactRSS, .slowPathRatio, 0.048, -0.00438342798862, 0.00679499321147⟩,
   ⟨.compactRSS, .internalFragRatio, 0.004, -0.00189188123848, 0.0101853128906⟩,
   ⟨.fragmentationStable, .slowPathRatio, 0.94, -0.0306939230118, 0.114440031376⟩,
   ⟨.fragmentationStable, .slowPathRatio, 0.94, -0.0199510499577, 0.0743860203946⟩,
   ⟨.fragmentationStable, .slowPathRatio, 0.048, -0.0255383842776, 0.0242317851773⟩,
   ⟨.fragmentationStable, .internalFragRatio, 0.184, 0.00325954145439, -0.0577798886644⟩,
   ⟨.fragmentationStable, .slowPathRatio, 0.94, -0.00852917177538, 0.0387289489354⟩,
   ⟨.fragmentationStable, .sizeEntropy, 0.947, 0.0273408739635, -0.00851999270804⟩,
   ⟨.fragmentationStable, .slowPathRatio, 0.048, -0.0112395043359, 0.0132331826061⟩,
   ⟨.fragmentationStable, .sizeEntropy, 1.724, 0.0111082636422, -0.00918569902954⟩,
   ⟨.fragmentationStable, .mappedLiveRatio, 5375.15, -0.00481016684427, 0.0266392976912⟩,
   ⟨.fragmentationStable, .mappedLiveRatio, 124.121, 0.0216670386399, -0.00385185763888⟩,
   ⟨.crossThreadMessage, .slowPathRatio, 0.94, -0.0197028792094, 0.152406403909⟩,
   ⟨.crossThreadMessage, .slowPathRatio, 0.94, -0.0128068714861, 0.0990641625407⟩,
   ⟨.crossThreadMessage, .slowPathRatio, 0.048, -0.0220623696362, 0.0342314618001⟩,
   ⟨.crossThreadMessage, .internalFragRatio, 0, -0.0174226876572, 0.0263599800283⟩,
   ⟨.crossThreadMessage, .slowPathRatio, 0.94, -0.00618028797751, 0.0431847010115⟩,
   ⟨.crossThreadMessage, .mappedLiveRatio, 5375.15, -0.00491922106541, 0.0334822589377⟩,
   ⟨.crossThreadMessage, .slowPathRatio, 0.94, -0.004535546146, 0.0297917830304⟩,
   ⟨.crossThreadMessage, .mappedLiveRatio, 5375.15, -0.00361248007671, 0.0233509094606⟩,
   ⟨.crossThreadMessage, .slowPathRatio, 0.94, -0.00325660135773, 0.0206290269966⟩,
   ⟨.crossThreadMessage, .sizeEntropy, 0.947, 0.0143127367946, -0.00357149427227⟩,
   ⟨.largeObjectStreaming, .mappedLiveRatio, 124.121, -0.0428340149452, 0.0157517303709⟩,
   ⟨.largeObjectStreaming, .sizeEntropy, 0.947, -0.0231033679175, 0.0120091200204⟩,
   ⟨.largeObjectStreaming, .mappedLiveRatio, 124.121, -0.0197559309432, 0.00693153268652⟩,
   ⟨.largeObjectStreaming, .internalFragRatio, 0, 0.010903070102, -0.00980688601453⟩,
   ⟨.largeObjectStreaming, .mappedLiveRatio, 124.121, -0.0166574296488, 0.00431366403094⟩,
   ⟨.largeObjectStreaming, .internalFragRatio, 0, 0.00741218385244, -0.00788425832027⟩,
   ⟨.largeObjectStreaming, .largeBytesRatio, 0.599, -0.00246695509692, 0.0129265430632⟩,
   ⟨.largeObjectStreaming, .mappedLiveRatio, 124.121, -0.0125581593361, 0.0025152421043⟩,
   ⟨.largeObjectStreaming, .internalFragRatio, 0, 0.00477301058852, -0.00581513390527⟩,
   ⟨.largeObjectStreaming, .mappedLiveRatio, 124.121, -0.00983335727448, 0.00181727894823⟩]

/-- The modes in the order of their indices. -/
def allModes : List ModeId :=
  [.balanced, .throughputCache, .deterministicLatency, .compactRSS, .fragmentationStable,
   .crossThreadMessage, .largeObjectStreaming, .hardenedDebug]

theorem mem_allModes (m : ModeId) : m ∈ allModes := by cases m <;> decide

section
variable {K : Type} [Field K] [LinearOrder K] [IsStrictOrderedRing K] (log1p : K → K)

def safeLog1p (v : K) : K := log1p (if 0 < v then v else 0)

def buildFeatures (f : WorkloadFeatures K) : Feature → K
  | .largeBytesRatio => f.largeBytesRatio
  | .remoteFreeRatio => f.remoteFreeRatio
  | .mappedLiveRatio => f.mappedLiveRatio
  | .slowPathRatio => f.slowPathRatio
  | .sizeEntropy => f.sizeEntropy
  | .internalFragRatio => f.internalFragRatio
  | .cacheHitRate => f.cacheHitRate
  | .safetyErrorRate => f.safetyErrorRate
  | .logAllocCalls => safeLog1p log1p (f.allocCalls : K)
  | .logLiveBytes => safeLog1p log1p (f.liveBytes : K)

/-- The loop of `predict_cost` over the trees. -/
def treeScore (features : Feature → K) (mode : ModeId) (score : K) (l : List Tree) : K :=
  l.foldl (fun score tree =>
    if tree.mode ≠ mode then score
    else score + if features tree.feature ≤ (tree.threshold : K) then (tree.leftValue : K)
      else (tree.rightValue : K)) score

/-- What the trees make of a mode, before the cost of switching to it. -/
def modelScore (f : WorkloadFeatures K) (mode : ModeId) : K :=
  treeScore (buildFeatures log1p f) mode (bias mode : K) trees

def predictCost (f : WorkloadFeatures K) (candidate current : ModeId) : K :=
  let score := modelScore log1p f candidate
  if candidate ≠ current then score + (switchCost : K) else score

structure ModelDecision (K : Type) where
  mode : ModeId
  cost : ModeId → K
  confidence : K
  available : Bool

/-- The loop keeps the decision's mode and the two smallest costs. -/
def adaptiveModelSelectMode (f : WorkloadFeatures K) (current : ModeId) : ModelDecision K :=
  let cost := fun candidate => predictCost log1p f candidate current
  let found := scanBest cost ⟨.balanced, 10^100, 10^100⟩ allModes
  ⟨found.item, cost, if found.second < 10^90 then found.second - found.best else 0, true⟩

/-! ## Costs are far below the value the search starts from -/

/-- No leaf adds more than one. -/
theorem trees_le_one : ∀ tree ∈ trees, tree.leftValue ≤ 1 ∧ tree.rightValue ≤ 1 := by
  decide +kernel

theorem bias_le (m : ModeId) : bias m ≤ 10 := by cases m <;> decide +kernel

theorem treeScore_le (features : Feature → K) (mode : ModeId) (score : K) (l : List Tree)
    (hl : ∀ tree ∈ l, tree.leftValue ≤ 1 ∧ tree.rightValue ≤ 1) :
    treeScore features mode score l ≤ score + l.length := by
  induction l generalizing score with
  | nil => simp [treeScore]
  | cons tree l ih =>
    obtain ⟨h1, h2⟩ := hl tree List.mem_cons_self
    have h1 : (tree.leftValue : K) ≤ 1 := by exact_mod_cast h1
    have h2 : (tree.rightValue : K) ≤ 1 := by exact_mod_cast h2
    have hrest := ih (if tree.mode ≠ mode then score else score +
      if features tree.feature ≤ (tree.threshold : K) then (tree.leftValue : K) else tree.rightValue)
      (fun x hx => hl x (List.mem_cons_of_mem _ hx))
    refine hrest.trans ?_
    rw [List.length_cons, Nat.cast_add, Nat.cast_one]
    split
    · linarith
    · split <;> linarith

theorem predictCost_lt (f : WorkloadFeatures K) (candidate current : ModeId) :
    predictCost log1p f candidate current < 10^90 := by
  have hb : (bias candidate : K) ≤ 10 := by exact_mod_cast bias_le candidate
  have hs : (switchCost : K) ≤ 1 := by
    have : switchCost ≤ 1 := by decide +kernel
    exact_mod_cast this
  have hlen : (trees.length : K) = 70 := by
    rw [show trees.length = 70 from rfl]; norm_num
  have hscore := treeScore_le (buildFeatures log1p f) candidate (bias candidate : K) trees trees_le_one
  have hbig : (81 : K) < 10^90 := by norm_num
  have hle : modelScore log1p f candidate ≤ 80 := by
    unfold modelScore
    rw [hlen] at hscore
    linarith
  unfold predictCost
  dsimp only
  split <;> linarith

/-! ## The choice -/

/-- The mode chosen is the first one of least cost, and the confidence is the distance of the
two least costs. -/
theorem adaptiveModelSelectMode_spec (f : WorkloadFeatures K) (current : ModeId) :
    FirstMin (fun m => predictCost log1p f m current) allModes
      (adaptiveModelSelectMode log1p f current).mode ∧
    ∃ second, TwoSmallest (predictCost log1p f (adaptiveModelSelectMode log1p f current).mode current)
        second (allModes.map fun m => predictCost log1p f m current) ∧
      (adaptiveModelSelectMode log1p f current).confidence =
        second - predictCost log1p f (adaptiveModelSelectMode log1p f current).mode current := by
  have hlt : ∀ m ∈ allModes, predictCost log1p f m current < (10^100 : K) := fun m _ =>
    (predictCost_lt log1p f m current).trans (by norm_num)
  obtain ⟨h1, h2, h3⟩ := scanBest_spec (fun m => predictCost log1p f m current) .balanced
    (l := allModes) (by decide) hlt
  have hsec : (scanBest (fun m => predictCost log1p f m current) ⟨.balanced, 10^100, 10^100⟩
      allModes).second < (10^90 : K) := by
    obtain ⟨rest, hp, -⟩ := h3
    -- the second smallest cost is the cost of a mode
    obtain ⟨m, -, hm⟩ := List.mem_map.mp (hp.mem_iff.mpr (List.mem_cons_of_mem _ List.mem_cons_self))
    rw [← hm]
    exact predictCost_lt log1p f m current
  rw [h2] at h3
  refine ⟨h1, _, h3, ?_⟩
  simp only [adaptiveModelSelectMode, if_pos hsec, h2]

/-- A mode that was not chosen costs more by the confidence at least. -/
theorem confidence_le (f : WorkloadFeatures K) (current : ModeId) {m : ModeId}
    (hm : m ≠ (adaptiveModelSelectMode log1p f current).mode) :
    (adaptiveModelSelectMode log1p f current).confidence ≤ predictCost log1p f m current -
      predictCost log1p f (adaptiveModelSelectMode log1p f current).mode current := by
  obtain ⟨-, second, htwo, hconf⟩ := adaptiveModelSelectMode_spec log1p f current
  generalize (adaptiveModelSelectMode log1p f current).mode = chosen at *
  have hmem : predictCost log1p f m current ∈
      (allModes.map fun m => predictCost log1p f m current).erase (predictCost log1p f chosen current) := by
    have hp : allModes.Perm (chosen :: allModes.erase chosen) := List.perm_cons_erase (mem_allModes chosen)
    have hp' := (hp.map fun m => predictCost log1p f m current).erase (predictCost log1p f chosen current)
    rw [List.map_cons, List.erase_cons_head] at hp'
    exact hp'.mem_iff.mpr (List.mem_map.mpr ⟨m, (List.mem_erase_of_ne hm).mpr (mem_allModes m), rfl⟩)
  rw [hconf]
  exact sub_le_sub_right (htwo.le_of_mem_erase hmem) _

end

end MyMalloc.Adaptive
