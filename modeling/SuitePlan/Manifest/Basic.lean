import SuitePlan.Tag
import SuitePlan.Text.Blank
import SuitePlan.Time.Calendar

/-! Manifests: how many scenarios every spec is expected to run. -/

namespace SuitePlan

/-- A scenario that is expected to run. -/
structure ExpectedScenario where
  name : String
  line : Nat
  tags : List Tag
  isExample : Bool
deriving DecidableEq, Repr

structure ManifestEntry where
  featureName : String
  expectedScenarios : Nat
  scenarios : List ExpectedScenario
deriving DecidableEq, Repr

def ManifestEntry.ofRecords (featureName : String) (scenarios : List ExpectedScenario) :
    ManifestEntry :=
  ⟨featureName, scenarios.length, scenarios⟩

/-- The entries by path, in the order of the paths. -/
structure Manifest where
  generatedAt : Time
  tagExpression : String
  specs : List (String × ManifestEntry)
  totalSpecs : Nat
  totalScenarios : Nat
deriving DecidableEq, Repr

/-- Puts a value into a list that is sorted by key. A value of the same key is replaced. -/
def putSorted {α : Type} (key : String) (a : α) : List (String × α) → List (String × α)
  | [] => [(key, a)]
  | (k, b) :: rest =>
    if key = k then (key, a) :: rest
    else if key < k then (key, a) :: (k, b) :: rest
    else (k, b) :: putSorted key a rest

namespace Manifest

/-- The number that counts go up to before they begin again. -/
def countLimit : Nat := 1 <<< 64

/-- A manifest without entries. A blank expression is recorded as none. -/
def empty (now : Time) (tagExpression : Option String) (totalSpecs : Nat) : Manifest :=
  let e := trimText (tagExpression.getD "")
  ⟨now, if e.isEmpty then "none" else e, [], totalSpecs, 0⟩

def get? (m : Manifest) (path : String) : Option ManifestEntry := m.specs.lookup path

/-- The scenarios expected of a path so far. -/
def expectedAt (m : Manifest) (path : String) : Nat :=
  ((m.get? path).map (·.expectedScenarios)).getD 0

/-- Records a spec in place of an earlier entry for the same path. An entry that expects no
scenarios is refused. -/
def insert (m : Manifest) (path : String) (e : ManifestEntry) : Manifest × Bool :=
  if e.expectedScenarios = 0 then (m, false)
  else
    let others := m.totalScenarios + countLimit - m.expectedAt path
    ({ m with
        specs := putSorted path e m.specs
        totalScenarios := (others + e.expectedScenarios) % countLimit }, true)

end Manifest

end SuitePlan
