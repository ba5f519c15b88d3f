import SuitePlan.Gherkin.Grammar
import SuitePlan.Manifest.Assembly
import SuitePlan.Manifest.Document

/-! Reading feature files and writing the manifest of a suite. -/

namespace SuitePlan

/-- The document in the content of a file. -/
def documentOf (content : Except StorageError String) : Except SpecError Gherkin.Document :=
  match content with
  | .error e => .error (.unreadable e)
  | .ok s =>
    match Gherkin.parse? s with
    | some d => .ok d
    | none => .error .invalid

variable {m : Type → Type} [Monad m] [Storage m]

def loadDocument (path : String) : m (Except SpecError Gherkin.Document) := do
  pure (documentOf (← Storage.read path))

namespace Manifest

def fileName : String := "test-manifest.json"

/-- The manifest of the feature files at some paths. -/
def ofFiles (now : Time) (base : String) (tagExpression : Option String) (paths : List String) :
    m Manifest := do
  let documents ← paths.mapM loadDocument
  pure (ofDocuments now base tagExpression (paths.zip documents))

/-- Writes the manifest into a directory. A manifest that is there already is removed first. -/
def renew (now : Time) (base : String) (tagExpression : Option String) (dir : String)
    (paths : List String) : m (Except StorageError Manifest) := do
  let file := Path.child dir fileName
  match ← (Storage.remove file : m (Except StorageError Unit)) with
  | .error .notText => pure (.error .notText)
  | .error .other => pure (.error .other)
  | _ =>
    let manifest ← ofFiles now base tagExpression paths
    match ← Storage.save (m := m) file manifest.toJson.pretty with
    | .ok () => pure (.ok manifest)
    | .error e => pure (.error e)

end Manifest

end SuitePlan
