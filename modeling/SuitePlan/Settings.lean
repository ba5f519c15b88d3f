import SuitePlan.Browser.Choice
import SuitePlan.Decimal.Pattern
import SuitePlan.Json.Decode
import SuitePlan.Json.Printer
import SuitePlan.Weight.Suffix

/-! The settings of a run and the JSON documents they are read from. -/

namespace SuitePlan

structure Settings where
  threadCount : Nat := 2
  weightsPath : String := "cypress-parallel/parallel-weights.json"
  defaultWeight : Pattern := .ofFloat 1.0
  totalWeight : Float := 1000.0
  tags : Option String := none
  grammar : Grammar := .precedence
  suffixRule : KeyRule := .longest
  markerSearch : MarkerSearch := .expression
  marker : String := "@BE"
  manifestDir : String := "resultValidation"
  /-- How many files may be read at once. No result depends on it. -/
  readConcurrency : Nat := 8

namespace Settings

/-- The settings with the tag expression of the command line or else that of the environment, if
there is one. -/
def overlayTags (s : Settings) (environment flag : Option String) : Settings :=
  { s with tags := flag <|> environment <|> s.tags }

/-- The tag expression, if it is not blank. -/
def tagExpression (s : Settings) : Option String := s.tags.filter fun t => !isBlankText t

def browserRule (s : Settings) : BrowserRule := ⟨s.marker, s.markerSearch, s.grammar⟩

def toJson (s : Settings) : Json :=
  .record [("threadCount", .nat s.threadCount), ("weightsJson", .text s.weightsPath),
    ("defaultWeight", .float s.defaultWeight.toFloat), ("totalWeight", .float s.totalWeight),
    ("tags", .ofOption .text s.tags), ("grammar", .text s.grammar.name),
    ("suffixRule", .text s.suffixRule.name), ("browserPolicy", .text s.markerSearch.name),
    ("backendTag", .text s.marker), ("manifestDir", .text s.manifestDir),
    ("readConcurrency", .nat s.readConcurrency)]

def fieldNames : List String :=
  ["threadCount", "weightsJson", "defaultWeight", "totalWeight", "tags", "grammar", "suffixRule",
    "browserPolicy", "backendTag", "manifestDir", "readConcurrency"]

def asPattern? (j : Json) : Option Pattern := j.asFloat?.map .ofFloat

/-- Every setting that a document leaves out has its default. -/
def ofJson? (j : Json) : Option Settings := do
  let d : Settings := {}
  match ← Json.fields? fieldNames j with
  | [threadCount, weightsPath, defaultWeight, totalWeight, tags, grammar, suffixRule, search,
      marker, manifestDir, readConcurrency] =>
    some {
      threadCount := ← Json.defaulted? d.threadCount Json.asNat? threadCount
      weightsPath := ← Json.defaulted? d.weightsPath Json.asText? weightsPath
      defaultWeight := ← Json.defaulted? d.defaultWeight asPattern? defaultWeight
      totalWeight := ← Json.defaulted? d.totalWeight Json.asFloat? totalWeight
      tags := ← Json.defaulted? d.tags (Json.asOption? Json.asText?) tags
      grammar := ← Json.defaulted? d.grammar (Json.asChoice? Grammar.ofName?) grammar
      suffixRule := ← Json.defaulted? d.suffixRule (Json.asChoice? KeyRule.ofName?) suffixRule
      markerSearch := ← Json.defaulted? d.markerSearch (Json.asChoice? MarkerSearch.ofName?) search
      marker := ← Json.defaulted? d.marker Json.asText? marker
      manifestDir := ← Json.defaulted? d.manifestDir Json.asText? manifestDir
      readConcurrency := ← Json.defaulted? d.readConcurrency Json.asNat? readConcurrency }
  | _ => none

def ofText? (s : String) : Option Settings := (Json.ofText? s).bind ofJson?

end Settings

end SuitePlan
