import SuitePlan.Json.Decode
import SuitePlan.Json.Printer
import SuitePlan.Weight.Table

/-! Weight tables as JSON documents. -/

namespace SuitePlan

namespace Weighing

/-- Absent values are left out. -/
def toJson (e : Weighing Float) : Json :=
  .record ((e.time.map fun x => ("time", .float x)).toList ++
    (e.weight.map fun x => ("weight", .float x)).toList)

def ofJson? (j : Json) : Option (Weighing Float) := do
  match ← Json.fields? ["time", "weight"] j with
  | [time, weight] =>
    let number := Json.defaulted? none (Json.asOption? Json.asFloat?)
    some ⟨← number time, ← number weight⟩
  | _ => none

end Weighing

namespace Weights

def toJson (t : Weights Float) : Json := .record (t.entries.map fun (k, e) => (k, e.toJson))

/-- A key that is repeated keeps its first place and takes its last value. -/
def ofJson? (j : Json) : Option (Weights Float) := do
  let members ← j.asMembers?
  let entries ← members.mapM fun (k, v) => (Weighing.ofJson? v).map (k, ·)
  some (ofList entries)

def ofText? (s : String) : Option (Weights Float) := (Json.ofText? s).bind ofJson?

end Weights

end SuitePlan
