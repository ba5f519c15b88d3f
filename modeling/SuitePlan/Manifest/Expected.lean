import SuitePlan.Gherkin.Document
import SuitePlan.Manifest.Basic

/-! The scenarios that a feature is expected to run. An outline runs once for every example. -/

namespace SuitePlan

/-- The tags of `more` that are not there yet are added at the end. -/
def unionTags (tags more : List Tag) : List Tag :=
  more.foldl (fun ts t => if t ∈ ts then ts else ts ++ [t]) tags

namespace Gherkin

def exampleName (name : String) (i : Nat) : String :=
  name ++ " (example #" ++ toString i ++ ")"

/-- The records of a scenario that inherits the given tags. -/
def Scenario.records (inherited : List Tag) (s : Scenario) : List ExpectedScenario :=
  let tags := unionTags inherited s.heading.tags
  if s.isOutline then
    (List.range s.exampleRows).map fun i =>
      ⟨exampleName s.heading.name (i + 1), s.heading.line, tags, true⟩
  else [⟨s.heading.name, s.heading.line, tags, false⟩]

mutual

def Child.records (inherited : List Tag) : Child → List ExpectedScenario
  | .scenario s => s.records inherited
  | .rule h children => recordsOfAll (unionTags inherited h.tags) children

def recordsOfAll (inherited : List Tag) : List Child → List ExpectedScenario
  | [] => []
  | c :: cs => c.records inherited ++ recordsOfAll inherited cs

end

def Feature.records (f : Feature) : List ExpectedScenario := recordsOfAll f.heading.tags f.children

end Gherkin

end SuitePlan
