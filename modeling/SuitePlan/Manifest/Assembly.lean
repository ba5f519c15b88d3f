import SuitePlan.Manifest.Expected
import SuitePlan.Path
import SuitePlan.Storage

/-! Building a manifest from the documents of a list of specs. -/

namespace SuitePlan

/-- Why a spec has no entry. -/
inductive SpecError where
  | unreadable (e : StorageError)
  | missingFeature
  | invalid
deriving DecidableEq, Repr

namespace ManifestEntry

/-- The entry for a document, if there is one with a feature. -/
def ofDocument (d : Except SpecError Gherkin.Document) : Except SpecError ManifestEntry :=
  match d with
  | .error e => .error e
  | .ok none => .error .missingFeature
  | .ok (some f) => .ok (ofRecords f.heading.name f.records)

end ManifestEntry

namespace Manifest

/-- Records one spec. A spec without an entry changes nothing. -/
def add (base : String) (m : Manifest) (spec : String × Except SpecError Gherkin.Document) :
    Manifest :=
  match ManifestEntry.ofDocument spec.2 with
  | .error _ => m
  | .ok e => (m.insert (specKey base spec.1) e).1

/-- The manifest of specs with their documents, the paths taken relative to a base directory. -/
def ofDocuments (now : Time) (base : String) (tagExpression : Option String)
    (specs : List (String × Except SpecError Gherkin.Document)) : Manifest :=
  specs.foldl (add base) (empty now tagExpression specs.length)

end Manifest

end SuitePlan
