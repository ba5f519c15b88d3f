import SuitePlan.Decimal.Binary64
import SuitePlan.Weight.Table

/-! Weights from measured times: each spec gets its share of a budget, rounded down. -/

namespace SuitePlan

/-- Numbers that can be rounded down to a whole number. -/
class RoundDown (W : Type) where
  floor : W → W

instance : RoundDown Float := ⟨Binary64.floor⟩

namespace Weights

variable {W : Type} [Zero W] [Add W] [Mul W] [Div W] [LT W] [DecidableLT W] [RoundDown W]

/-- The share of the budget that belongs to a time. -/
def share (total budget time : W) : W :=
  if 0 < total then RoundDown.floor (time / total * budget) else 0

/-- The entries that have a time, with the weights that follow from the times. -/
def ofTimings (timings : Weights W) (total budget : W) : Weights W :=
  ofList (timings.entries.filterMap fun (k, e) =>
    e.time.map fun time => (k, ⟨some time, some (share total budget time)⟩))

/-- The sum of all times. -/
def totalTime (timings : Weights W) : W :=
  (timings.entries.filterMap (·.2.time)).foldl (· + ·) 0

/-- The table after a run: the weights of the timed specs laid over what was there. Without a total
duration the sum of the times is used. -/
def update (existing timings : Weights W) (total : Option W) (budget : W) : Weights W :=
  existing.merge (timings.ofTimings (total.getD timings.totalTime) budget)

end Weights

end SuitePlan
