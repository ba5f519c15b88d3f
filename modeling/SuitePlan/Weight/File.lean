import SuitePlan.Storage
import SuitePlan.Weight.Document
import SuitePlan.Weight.Timing

/-! Weight files. -/

namespace SuitePlan

inductive WeightFileError where
  | storage (e : StorageError)
  | invalid
deriving DecidableEq, Repr

namespace Weights

/-- The table in the content of a file. -/
def ofContent (content : Except StorageError String) :
    Except WeightFileError (Weights Float) :=
  match content with
  | .error e => .error (.storage e)
  | .ok s =>
    match ofText? s with
    | some t => .ok t
    | none => .error .invalid

variable {m : Type → Type} [Monad m] [Storage m]

def ofPath (path : String) : m (Except WeightFileError (Weights Float)) := do
  pure (ofContent (← Storage.read path))

/-- The table in a file, empty where there is none. -/
def ofPathOrEmpty (path : String) : m (Weights Float) := do
  match ← ofPath path with
  | .ok t => pure t
  | .error _ => pure {}

/-- Lays the weights that follow from the timings over those in a file. -/
def updateAt (path : String) (timings : Weights Float) (total : Option Float)
    (budget : Float) : m (Except WeightFileError (Weights Float)) := do
  let merged := (← ofPathOrEmpty path).update timings total budget
  match ← Storage.save (m := m) path merged.toJson.pretty with
  | .ok () => pure (.ok merged)
  | .error e => pure (.error (.storage e))

end Weights

end SuitePlan
