import SuitePlan.Command.Basic
import SuitePlan.Plan.Make

/-! Running the commands. -/

namespace SuitePlan

namespace Command

/-- What a run depends on besides its arguments and the files. -/
structure Environment where
  config : Option String := none
  tags : Option String := none
  directory : String := "/"
  now : Time

/-- What a run leaves behind: its exit code, its output, and the message of an error. -/
structure Report where
  code : Nat
  output : String := ""
  message : Option String := none
deriving DecidableEq, Repr

def Given.applyTo (g : Given) (s : Settings) : Settings :=
  { s with
    grammar := g.grammar.getD s.grammar
    threadCount := g.threads.getD s.threadCount
    weightsPath := g.weights.getD s.weightsPath
    defaultWeight := g.defaultWeight.getD s.defaultWeight
    suffixRule := g.suffixRule.getD s.suffixRule
    markerSearch := g.policy.getD s.markerSearch
    marker := g.marker.getD s.marker
    manifestDir := g.outDir.getD s.manifestDir }

def line (s : String) : String := s ++ "\n"

variable {m : Type → Type} [Monad m] [Storage m]

def resolveSpecs (g : Given) (s : Settings) : ExceptT Failure m (List String) := do
  chosenSpecs s (← namedSpecs g.operands g.list)

def updateWeights (timings : String) (g : Given) (s : Settings) : ExceptT Failure m String := do
  let path := g.output.getD s.weightsPath
  match ← (Weights.ofPath timings : m _) with
  | .error e => throw (.badTimings timings e)
  | .ok table =>
    let budget := g.totalWeight.getD s.totalWeight
    match ← (Weights.updateAt path table g.totalDuration budget : m _) with
    | .error e => throw (.weightsNotWritten path e)
    | .ok merged => pure (line (path ++ ": " ++ toString merged.size ++ " specs"))

/-- The settings of a command. Its own options count more than the environment, and that more than the
settings file. -/
def Invocation.settings (i : Invocation) (env : Environment) : ExceptT Failure m Settings := do
  return i.given.applyTo ((← loadSettings i.given.config).overlayTags env.tags i.given.tags)

/-- The output of a command that has its settings. -/
def Invocation.perform (i : Invocation) (env : Environment) (s : Settings) :
    ExceptT Failure m String := do
  let g := i.given
  match i.name with
  | .filter => return String.join ((← resolveSpecs g s).map line)
  | .distribute => return line (bucketsToJson (← bucketsOf (m := m) s (← resolveSpecs g s))).pretty
  | .manifest =>
    let _ ← renewManifest env.now env.directory s (← resolveSpecs g s)
    return line (s.manifestPath)
  | .browser =>
    return line (((s.browserRule.select s.tagExpression).map Browser.name).getD "default")
  | .plan => return line (← Plan.make env.now env.directory s (← resolveSpecs g s)).toJson.pretty
  | .weights => updateWeights ((g.operands.head?).getD "") g s

/-- The output of a command. -/
def Invocation.run (i : Invocation) (env : Environment) : ExceptT Failure m String := do
  i.perform env (← i.settings env)

def versionText : String := "specshard 0.1.0\n"

def helpText : String :=
  "Tag filtering and weighted sharding of feature specs\n\nCommands: " ++
    ", ".intercalate (Name.all.map Name.text) ++ "\n"

/-- Runs the program. -/
def run (args : List String) (env : Environment) : m Report := do
  match ofArguments args env.config with
  | .error .version => pure { code := 0, output := versionText }
  | .error .help => pure { code := 0, output := helpText }
  | .error .usageError => pure { code := 2 }
  | .ok i =>
    match ← (i.run env).run with
    | .ok output => pure { code := 0, output := output }
    | .error e => pure { code := 1, message := some e.message }

end Command

end SuitePlan
