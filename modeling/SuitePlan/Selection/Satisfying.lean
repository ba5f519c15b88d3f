import SuitePlan.TagExpr.Grammar
import SuitePlan.Selection.Batch

/-! Selecting the specs whose feature tags satisfy an expression. -/

namespace SuitePlan

/-- Whether tags satisfy the expression in a text. A blank text is satisfied by all tags. -/
def satisfies (g : Grammar) (expression : String) (tags : List Tag) : Except TagExprError Bool :=
  if isBlankText expression then .ok true
  else (g.parse expression).map fun e => holds e tags

/-- The paths among those with their tags that satisfy the expression. Where there are no paths
the expression does not matter. -/
def selectPaths (g : Grammar) (expression : String) (specs : List (String × List Tag)) :
    Except TagExprError (List String) :=
  (specs.filterM fun s => satisfies g expression s.2).map (·.map (·.1))

section ReadAll

variable {n : Type → Type} [Monad n] (readAll : List String → n (List (List Tag)))

/-- The paths whose files satisfy the expression. For a blank expression no file is read. -/
def selectFilesWith (g : Grammar) (expression : String) (paths : List String) :
    n (Except TagExprError (List String)) := do
  if isBlankText expression then pure (.ok paths)
  else
    let tags ← readAll paths
    pure (selectPaths g expression (paths.zip tags))

/-- Filters the feature files of a suite. All other files follow them. -/
def selectSuiteWith (g : Grammar) (expression : String) (paths : List String) :
    n (Except TagExprError (List String)) := do
  let features := paths.filter namesFeature
  if features.isEmpty then pure (.ok paths)
  else
    let selected ← selectFilesWith readAll g expression features
    pure (selected.map (· ++ paths.filter (!namesFeature ·)))

end ReadAll

variable {m : Type → Type} [Monad m] [Storage m]

/-- Selects from files that are read one after another. -/
def selectFiles (g : Grammar) (expression : String) (paths : List String) :
    StateT KnownTags m (Except TagExprError (List String)) :=
  selectFilesWith readAllTags g expression paths

def selectSuite (g : Grammar) (expression : String) (paths : List String) :
    StateT KnownTags m (Except TagExprError (List String)) :=
  selectSuiteWith readAllTags g expression paths

/-- Selects from files that are read at the same time, in one order of steps. -/
def selectFilesBy (limit : Nat) (moves : List Move) (g : Grammar) (expression : String)
    (paths : List String) : OptionT (StateT KnownTags m) (Except TagExprError (List String)) :=
  selectFilesWith (readScheduled limit moves) g expression paths

def selectSuiteBy (limit : Nat) (moves : List Move) (g : Grammar) (expression : String)
    (paths : List String) : OptionT (StateT KnownTags m) (Except TagExprError (List String)) :=
  selectSuiteWith (readScheduled limit moves) g expression paths

end SuitePlan
