import SuitePlan.Plan.Failure
import SuitePlan.Selection.Satisfying
import SuitePlan.Settings

/-! The specs of a run: those that are named, filtered by the tag expression. -/

namespace SuitePlan

/-- The paths in a list with one path a line. Blank lines do not count. -/
def specLines (content : String) : List String :=
  (((lines content.toList).map trim).filter (!·.isEmpty)).map String.ofList

variable {m : Type → Type} [Monad m] [Storage m]

def listedSpecs (path : String) : ExceptT Failure m (List String) := do
  match ← (Storage.read path : m (Except StorageError String)) with
  | .ok content => pure (specLines content)
  | .error e => throw (.listUnreadable path e)

/-- The given paths, followed by those in a list. There has to be one. -/
def namedSpecs (paths : List String) (list : Option String) :
    ExceptT Failure m (List String) := do
  let more ← match list with
    | none => pure []
    | some path => listedSpecs path
  if (paths ++ more).isEmpty then throw .noSpecs else pure (paths ++ more)

/-- The specs that satisfy the tag expression. Without one, all of them do. -/
def chosenSpecs (s : Settings) (paths : List String) : ExceptT Failure m (List String) := do
  match s.tagExpression with
  | none => pure paths
  | some expression =>
    match ← (selectSuite s.grammar expression paths : StateT KnownTags m _).run' {} with
    | .error e => throw (.badExpression expression e)
    | .ok [] => throw (.nothingSelected expression)
    | .ok selected => pure selected

/-- The settings in a file, or the defaults where no file is given. -/
def loadSettings (path : Option String) : ExceptT Failure m Settings := do
  match path with
  | none => pure {}
  | some p =>
    match ← (Storage.read p : m (Except StorageError String)) with
    | .error e => throw (.settingsUnreadable p e)
    | .ok content =>
      match Settings.ofText? content with
      | some s => pure s
      | none => throw (.settingsInvalid p)

end SuitePlan
