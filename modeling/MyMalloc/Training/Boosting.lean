import MyMalloc.Lib.LeastSquares
import MyMalloc.Training.Labels
import Mathlib.Data.List.Dedup

/- Training the cost model (`best_stump`, `train`): for each mode, stumps are
   fitted one after the other to what the ones before have left over.

   A stump is a split of the examples and a value for either side. `best_stump`
   tries the splits at some quantiles of each feature and keeps the one of least
   squared error; the values are the means of the residuals, so a split with an
   empty side is passed over. `train` adds the stump, scaled by the learning
   rate, to its predictions. A side moves towards its mean by a multiple of the
   way, and `sum_sq_sub_mean_le` says that this does not increase the error as
   long as the multiple is at most two. -/
namespace MyMalloc.Training

open Adaptive

/-- A stump of the trainer. -/
structure Stump (K : Type) where
  mode : ModeId
  feature : Feature
  threshold : K
  left : K
  right : K

def allFeatures : List Feature :=
  [.largeBytesRatio, .remoteFreeRatio, .mappedLiveRatio, .slowPathRatio, .sizeEntropy,
   .internalFragRatio, .cacheHitRate, .safetyErrorRate, .logAllocCalls, .logLiveBytes]

variable {K : Type} [Field K] [LinearOrder K]

/-- What a stump says about a feature vector. -/
def Stump.leaf (s : Stump K) (features : Feature → K) : K :=
  if features s.feature ≤ s.threshold then s.left else s.right

/-- In hundredths. -/
def quantiles : List Nat := [10, 20, 35, 50, 65, 80, 90]

def candidateThresholds (values : List K) : List K :=
  let ordered := values.mergeSort (· ≤ ·)
  if ordered.length < 2 then ordered
  else ((quantiles.map fun q =>
    ordered.getD (min (ordered.length - 1) (q * (ordered.length - 1) / 100)) 0).dedup).mergeSort (· ≤ ·)

/-- The residuals on the left and on the right of a threshold. -/
def splitLeft (es : List (Example K)) (residuals : List K) (f : Feature) (threshold : K) : List K :=
  ((es.zip residuals).filter fun x => x.1.features f ≤ threshold).map (·.2)

def splitRight (es : List (Example K)) (residuals : List K) (f : Feature) (threshold : K) : List K :=
  ((es.zip residuals).filter fun x => ¬ x.1.features f ≤ threshold).map (·.2)

/-- The stump of a split, with its squared error. -/
def stumpAt (es : List (Example K)) (residuals : List K) (mode : ModeId) (f : Feature) (threshold : K) :
    Stump K × K :=
  let lv := mean (splitLeft es residuals f threshold)
  let rv := mean (splitRight es residuals f threshold)
  (⟨mode, f, threshold, lv, rv⟩,
    sumSq ((es.zip residuals).map fun x => x.2 - if x.1.features f ≤ threshold then lv else rv))

/-- One turn of the search: the best stump so far, with its error. -/
def tryStump (es : List (Example K)) (residuals : List K) (mode : ModeId) (best : Option (Stump K × K))
    (x : Feature × K) : Option (Stump K × K) :=
  if (splitLeft es residuals x.1 x.2).isEmpty || (splitRight es residuals x.1 x.2).isEmpty then best
  else
    let found := stumpAt es residuals mode x.1 x.2
    match best with
    | none => some found
    | some b => if found.2 < b.2 then some found else some b

/-- The splits that are tried. -/
def candidates (es : List (Example K)) : List (Feature × K) :=
  allFeatures.flatMap fun f => (candidateThresholds (es.map fun e => e.features f)).map (f, ·)

def zeroStump (mode : ModeId) : Stump K := ⟨mode, .largeBytesRatio, 0, 0, 0⟩

def bestStump (es : List (Example K)) (residuals : List K) (mode : ModeId) : Stump K :=
  (((candidates es).foldl (tryStump es residuals mode) none).map (·.1)).getD (zeroStump mode)

/-! ## Rounds -/

def residualsOf (es : List (Example K)) (predictions : List K) : List K :=
  List.zipWith (fun e p => e.target - p) es predictions

def Stump.scale (s : Stump K) (rate : K) : Stump K :=
  { s with left := s.left * rate, right := s.right * rate }

def addStump (s : Stump K) (es : List (Example K)) (predictions : List K) : List K :=
  List.zipWith (fun e p => p + s.leaf e.features) es predictions

/-- The predictions for the examples of a mode, and the stumps so far. -/
structure Boosted (K : Type) where
  predictions : List K
  trees : List (Stump K)

def boostRound (mode : ModeId) (learningRate : K) (es : List (Example K)) (b : Boosted K) : Boosted K :=
  let stump := (bestStump es (residualsOf es b.predictions) mode).scale learningRate
  ⟨addStump stump es b.predictions, b.trees ++ [stump]⟩

def boost (mode : ModeId) (learningRate bias : K) (es : List (Example K)) (rounds : Nat) : Boosted K :=
  (boostRound mode learningRate es)^[rounds] ⟨List.replicate es.length bias, []⟩

/-- The bias of a mode, shrunk towards the mean of all targets; 10 for a mode without examples. -/
def modeBias (examples : List (Example K)) (modePriorShrink : K) (mode : ModeId) : K :=
  let modeExamples := examples.filter (·.mode = mode)
  if modeExamples.isEmpty then 10
  else (1 - modePriorShrink) * mean (modeExamples.map (·.target)) +
    modePriorShrink * mean (examples.map (·.target))

/-- The stumps of a mode. -/
def modeTrees (examples : List (Example K)) (roundsPerMode : Nat) (learningRate modePriorShrink : K)
    (mode : ModeId) : List (Stump K) :=
  let modeExamples := examples.filter (·.mode = mode)
  if modeExamples.isEmpty then []
  else (boost mode learningRate (modeBias examples modePriorShrink mode) modeExamples roundsPerMode).trees

/-- `train`; there is one example at least. -/
def train (examples : List (Example K)) (roundsPerMode : Nat) (learningRate modePriorShrink : K) :
    (ModeId → K) × List (Stump K) :=
  (modeBias examples modePriorShrink,
    allModes.flatMap (modeTrees examples roundsPerMode learningRate modePriorShrink))

/-- The squared error of predictions. -/
def squaredError (es : List (Example K)) (predictions : List K) : K := sumSq (residualsOf es predictions)

/-! ## The stump that is chosen -/

/-- The leaves are the means of the two sides of a split, neither of which is empty. -/
structure SplitMeans (es : List (Example K)) (residuals : List K) (s : Stump K) : Prop where
  left_ne : splitLeft es residuals s.feature s.threshold ≠ []
  right_ne : splitRight es residuals s.feature s.threshold ≠ []
  left : s.left = mean (splitLeft es residuals s.feature s.threshold)
  right : s.right = mean (splitRight es residuals s.feature s.threshold)

/-- The search returns the zero stump or the stump of a split with two sides. -/
theorem bestStump_cases (es : List (Example K)) (residuals : List K) (mode : ModeId) :
    bestStump es residuals mode = zeroStump mode ∨
      ∃ f threshold, splitLeft es residuals f threshold ≠ [] ∧ splitRight es residuals f threshold ≠ [] ∧
        bestStump es residuals mode = (stumpAt es residuals mode f threshold).1 := by
  have hfold : ∀ (l : List (Feature × K)) (best : Option (Stump K × K)),
      (∀ b, best = some b → ∃ f threshold, splitLeft es residuals f threshold ≠ [] ∧
        splitRight es residuals f threshold ≠ [] ∧ b = stumpAt es residuals mode f threshold) →
      ∀ b, l.foldl (tryStump es residuals mode) best = some b → ∃ f threshold,
        splitLeft es residuals f threshold ≠ [] ∧ splitRight es residuals f threshold ≠ [] ∧
          b = stumpAt es residuals mode f threshold := by
    intro l
    induction l with
    | nil => exact fun _ h => h
    | cons x l ih =>
      intro best h
      refine ih _ fun b hb => ?_
      unfold tryStump at hb
      split at hb
      · exact h b hb
      · next hne =>
        simp only [Bool.or_eq_true, List.isEmpty_iff, not_or] at hne
        -- the stump of this split, or the one from before
        have hcase : b = stumpAt es residuals mode x.1 x.2 ∨ best = some b := by
          cases best with
          | none => exact .inl (Option.some.inj hb).symm
          | some b₀ =>
            dsimp only at hb
            split at hb
            · exact .inl (Option.some.inj hb).symm
            · exact .inr hb
        rcases hcase with rfl | hbest
        · exact ⟨x.1, x.2, hne.1, hne.2, rfl⟩
        · exact h b hbest
  unfold bestStump
  cases hbest : (candidates es).foldl (tryStump es residuals mode) none with
  | none => exact .inl rfl
  | some b =>
    obtain ⟨f, threshold, hl, hr, rfl⟩ := hfold _ none (fun _ h => absurd h (Option.some_ne_none _).symm) b hbest
    exact .inr ⟨f, threshold, hl, hr, rfl⟩

theorem bestStump_spec (es : List (Example K)) (residuals : List K) (mode : ModeId) :
    bestStump es residuals mode = zeroStump mode ∨ SplitMeans es residuals (bestStump es residuals mode) := by
  refine (bestStump_cases es residuals mode).imp_right ?_
  rintro ⟨f, threshold, hl, hr, h⟩
  rw [h]
  exact ⟨hl, hr, rfl, rfl⟩

/-! ## The error -/

theorem residualsOf_addStump (s : Stump K) (es : List (Example K)) (predictions : List K) :
    residualsOf es (addStump s es predictions) =
      (es.zip (residualsOf es predictions)).map fun x => x.2 - s.leaf x.1.features := by
  induction es generalizing predictions with
  | nil => rfl
  | cons e es ih =>
    cases predictions with
    | nil => rfl
    | cons p predictions =>
      have hhead : e.target - (p + s.leaf e.features) = e.target - p - s.leaf e.features := by ring
      have htail := ih predictions
      simp only [residualsOf, addStump, List.zipWith_cons_cons, List.zip_cons_cons, List.map_cons] at htail ⊢
      rw [hhead, htail]

omit [LinearOrder K] in
theorem zip_residuals (es : List (Example K)) (predictions : List K) :
    (es.zip (residualsOf es predictions)).map (·.2) = residualsOf es predictions :=
  List.map_snd_zip (by simp [residualsOf])

variable [IsStrictOrderedRing K] {es : List (Example K)}

/-- A stump whose leaves are means does not increase the error, scaled by up to two. -/
theorem squaredError_addStump {s : Stump K} {predictions : List K}
    (h : SplitMeans es (residualsOf es predictions) s) {rate : K} (h0 : 0 ≤ rate) (h2 : rate ≤ 2) :
    squaredError es (addStump (s.scale rate) es predictions) ≤ squaredError es predictions := by
  have hsplit := fun a b : K => sumSq_split (fun x : Example K × K => x.1.features s.feature ≤ s.threshold)
    (·.2) a b (es.zip (residualsOf es predictions))
  have hbefore : squaredError es predictions =
      sumSq (splitLeft es (residualsOf es predictions) s.feature s.threshold) +
        sumSq (splitRight es (residualsOf es predictions) s.feature s.threshold) := by
    have hzero := hsplit 0 0
    simp only [ite_self, sub_zero, List.map_id', zip_residuals] at hzero
    exact hzero
  rw [squaredError, residualsOf_addStump, hbefore]
  refine (hsplit (s.left * rate) (s.right * rate)).trans_le (add_le_add ?_ ?_)
  · rw [h.left]
    exact sum_sq_sub_mean_le _ h0 h2
  · rw [h.right]
    exact sum_sq_sub_mean_le _ h0 h2

omit [IsStrictOrderedRing K] in
theorem squaredError_zeroStump (mode : ModeId) (rate : K) (predictions : List K) :
    squaredError es (addStump ((zeroStump mode).scale rate) es predictions) = squaredError es predictions := by
  have hleaf : ∀ e : Example K, ((zeroStump mode).scale rate).leaf e.features = 0 := fun e => by
    simp [Stump.leaf, Stump.scale, zeroStump]
  rw [squaredError, residualsOf_addStump]
  simp only [hleaf, sub_zero, zip_residuals]
  rfl

/-- **Boosting never increases the training error.** With a learning rate between 0 and 2 the squared
error of the predictions for a mode's examples does not grow from one round to the next, and each
stump is the zero stump or has the residual means of a split as its leaves. -/
theorem boosting_error_antitone (mode : ModeId) (bias : K) (es : List (Example K)) (rounds : Nat)
    {learningRate : K} (h0 : 0 ≤ learningRate) (h2 : learningRate ≤ 2) :
    squaredError es (boost mode learningRate bias es (rounds + 1)).predictions ≤
        squaredError es (boost mode learningRate bias es rounds).predictions ∧
      ∀ residuals, bestStump es residuals mode = zeroStump mode ∨
        SplitMeans es residuals (bestStump es residuals mode) := by
  refine ⟨?_, fun residuals => bestStump_spec es residuals mode⟩
  have hround : boost mode learningRate bias es (rounds + 1) =
      boostRound mode learningRate es (boost mode learningRate bias es rounds) :=
    Function.iterate_succ_apply' ..
  rw [hround, boostRound]
  rcases bestStump_spec es (residualsOf es (boost mode learningRate bias es rounds).predictions) mode with
    hzero | hmeans
  · rw [hzero]
    exact (squaredError_zeroStump mode learningRate _).le
  · exact squaredError_addStump hmeans h0 h2

/-- The rate the trainer is run with, on two examples. -/
theorem first_round_not_worse :
    let es : List (Example ℚ) :=
      [⟨.balanced, fun _ => 0, 1, "burst"⟩, ⟨.balanced, fun _ => 1, 3, "mixed"⟩]
    squaredError es (boost .balanced (35 / 100) 2 es 1).predictions ≤ squaredError es [2, 2] :=
  (boosting_error_antitone .balanced 2 _ 0 (by norm_num) (by norm_num)).1

end MyMalloc.Training
