import SuitePlan.TagExpr.Precedence
import SuitePlan.Weight.File

/-! The reasons why a plan cannot be made. -/

namespace SuitePlan

inductive Failure where
  | settingsUnreadable (path : String) (e : StorageError)
  | settingsInvalid (path : String)
  | listUnreadable (path : String) (e : StorageError)
  | noSpecs
  | badExpression (expression : String) (e : TagExprError)
  | nothingSelected (expression : String)
  | badTimings (path : String) (e : WeightFileError)
  | weightsNotWritten (path : String) (e : WeightFileError)
  | manifestNotWritten (e : StorageError)
deriving DecidableEq, Repr

def Failure.message : Failure → String
  | settingsUnreadable path _ => "Failed to read config file " ++ path
  | settingsInvalid path => "Invalid config file " ++ path
  | listUnreadable path _ => "Failed to read spec list " ++ path
  | noSpecs => "No spec paths given"
  | badExpression expression _ => "Invalid tag expression '" ++ expression ++ "'"
  | nothingSelected expression => "No specs match tag expression '" ++ expression ++ "'"
  | badTimings path _ => "Failed to read timings from " ++ path
  | weightsNotWritten path _ => "Failed to update weights file " ++ path
  | manifestNotWritten _ => "I/O error"

end SuitePlan
