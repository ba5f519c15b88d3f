import SuitePlan.Json.Decode
import SuitePlan.Json.Printer
import SuitePlan.Manifest.Basic
import SuitePlan.Time.Rfc3339

/-! Manifests as JSON documents. -/

namespace SuitePlan

namespace ExpectedScenario

/-- Only an example says that it is one. -/
def toJson (r : ExpectedScenario) : Json :=
  .record ([("name", .text r.name), ("line", .nat r.line), ("tags", .texts r.tags)] ++
    if r.isExample then [("isExample", .boolean true)] else [])

def ofJson? (j : Json) : Option ExpectedScenario := do
  match ← Json.fields? ["name", "line", "tags", "isExample"] j with
  | [name, line, tags, isExample] =>
    some ⟨← Json.required? Json.asText? name, ← Json.required? Json.asNat? line,
      ← Json.required? (Json.asList? Json.asText?) tags,
      ← Json.defaulted? false Json.asBool? isExample⟩
  | _ => none

end ExpectedScenario

namespace ManifestEntry

def toJson (e : ManifestEntry) : Json :=
  .record [("featureName", .text e.featureName), ("expectedScenarios", .nat e.expectedScenarios),
    ("scenarios", .array (e.scenarios.map ExpectedScenario.toJson))]

def ofJson? (j : Json) : Option ManifestEntry := do
  match ← Json.fields? ["featureName", "expectedScenarios", "scenarios"] j with
  | [name, expected, scenarios] =>
    some ⟨← Json.required? Json.asText? name, ← Json.required? Json.asNat? expected,
      ← Json.required? (Json.asList? ExpectedScenario.ofJson?) scenarios⟩
  | _ => none

end ManifestEntry

namespace Manifest

def specsToJson (specs : List (String × ManifestEntry)) : Json :=
  .record (specs.map fun (k, e) => (k, e.toJson))

/-- The last of several entries for one path counts. -/
def specsOfJson? (j : Json) : Option (List (String × ManifestEntry)) := do
  let members ← j.asMembers?
  let entries ← members.mapM fun (k, v) => (ManifestEntry.ofJson? v).map (k, ·)
  some (entries.foldl (fun specs (k, e) => putSorted k e specs) [])

/-- The members of the document, apart from the time of generation. -/
def membersAfterTime (m : Manifest) : List (String × Json) :=
  [("tagExpression", .text m.tagExpression), ("specs", specsToJson m.specs),
    ("totalSpecs", .nat m.totalSpecs), ("totalScenarios", .nat m.totalScenarios)]

def toJson (m : Manifest) : Json :=
  .record (("generatedAt", .text m.generatedAt.text) :: m.membersAfterTime)

def ofJson? (j : Json) : Option Manifest := do
  let names := ["generatedAt", "tagExpression", "specs", "totalSpecs", "totalScenarios"]
  match ← Json.fields? names j with
  | [time, expression, specs, totalSpecs, totalScenarios] =>
    let time ← Json.required? Json.asText? time
    some ⟨← Time.ofText? time, ← Json.required? Json.asText? expression,
      ← Json.required? specsOfJson? specs, ← Json.required? Json.asNat? totalSpecs,
      ← Json.required? Json.asNat? totalScenarios⟩
  | _ => none

def ofText? (s : String) : Option Manifest := (Json.ofText? s).bind ofJson?

end Manifest

end SuitePlan
