import SuitePlan.Distribution
import SuitePlan.Manifest.File
import SuitePlan.Plan.Choice

/-! Making the plan of a run: the specs of every worker, the manifest and the browser. -/

namespace SuitePlan

structure Plan where
  tagExpression : Option String
  browser : Option Browser
  specs : List String
  buckets : List (Bucket Float)
  manifest : String
  totalScenarios : Nat

def Settings.manifestPath (s : Settings) : String := Path.child s.manifestDir Manifest.fileName

variable {m : Type → Type} [Monad m] [Storage m]

/-- Spreads the specs over the workers by the weights in the weight file. Added up as patterns, what is not a
number has a sign. -/
def bucketsOf (s : Settings) (specs : List String) : m (List (Bucket Float)) := do
  let table ← Weights.ofPathOrEmpty s.weightsPath
  let weighed := weigh (table.map .ofFloat) s.defaultWeight s.suffixRule specs
  pure ((spread weighed s.threadCount).map (.map Pattern.toFloat))

/-- Writes the manifest of the specs. Paths are taken relative to the given directory. -/
def renewManifest (now : Time) (directory : String) (s : Settings) (specs : List String) :
    ExceptT Failure m Manifest := do
  match ← (Manifest.renew now directory s.tagExpression s.manifestDir specs : m _) with
  | .ok manifest => pure manifest
  | .error e => throw (.manifestNotWritten e)

namespace Plan

def make (now : Time) (directory : String) (s : Settings) (specs : List String) :
    ExceptT Failure m Plan := do
  let buckets ← (bucketsOf s specs : m _)
  let manifest ← renewManifest now directory s specs
  pure {
    tagExpression := s.tagExpression
    browser := s.browserRule.select s.tagExpression
    specs := specs
    buckets := buckets
    manifest := s.manifestPath
    totalScenarios := manifest.totalScenarios }

def toJson (p : Plan) : Json :=
  .record [("tagExpression", .ofOption .text p.tagExpression),
    ("browser", .ofOption (fun b => .text b.name) p.browser), ("specs", .texts p.specs),
    ("buckets", bucketsToJson p.buckets), ("manifest", .text p.manifest),
    ("totalScenarios", .nat p.totalScenarios)]

end Plan

end SuitePlan
