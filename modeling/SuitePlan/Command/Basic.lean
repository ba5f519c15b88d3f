import SuitePlan.Command.Arguments

/-! The commands of the program. -/

namespace SuitePlan

namespace Command

/-- The commands by name. -/
inductive Name where
  | filter
  | distribute
  | manifest
  | browser
  | plan
  | weights
deriving DecidableEq, Repr

namespace Name

def text : Name → String
  | filter => "filter"
  | distribute => "distribute"
  | manifest => "manifest"
  | browser => "browser"
  | plan => "plan"
  | weights => "weights"

def all : List Name := [filter, distribute, manifest, browser, plan, weights]

def ofText? (s : String) : Option Name := all.find? (·.text = s)

end Name

/-- The options that stand before or behind every command. -/
def sharedOptions : List OptionName := [.config, .tags, .grammar]

def distributionOptions : List OptionName := [.threads, .weights, .defaultWeight, .suffixRule]

def Name.level : Name → Level
  | filter => { options := sharedOptions ++ [.list] }
  | distribute => { options := sharedOptions ++ .list :: distributionOptions }
  | manifest => { options := sharedOptions ++ [.list, .outDir] }
  | browser => { options := sharedOptions ++ [.policy, .marker], limit := some 0 }
  | plan => { options := sharedOptions ++ .list :: .outDir :: distributionOptions }
  | weights =>
    { options := sharedOptions ++ [.output, .totalDuration, .totalWeight], limit := some 1 }

def topLevel : Level := { options := sharedOptions, isTop := true }

/-- A command with what it was given. The settings file comes from the environment where the
arguments do not name one. -/
structure Invocation where
  name : Name
  given : Given

/-- A value behind the command counts more than one before it. -/
def Given.join (before behind : Given) (config : Option String) : Given :=
  { behind with
    verbose := before.verbose || behind.verbose
    config := behind.config <|> before.config <|> config
    tags := behind.tags <|> before.tags
    grammar := behind.grammar <|> before.grammar }

/-- An empty path in the environment is an error, unless the arguments name the settings file both
before the command and behind it. -/
def emptyConfig (before behind : Given) (config : Option String) : Bool :=
  config = some "" && (before.config.isNone || behind.config.isNone)

/-- Reads the arguments. The weights command needs its operand. -/
def ofArguments (args : List String) (config : Option String) : Except Stop Invocation := do
  match ← scan topLevel {} args with
  | (_, []) => .error .usageError
  | (before, command :: rest) =>
    match Name.ofText? command with
    | none => .error (if command = "help" then .help else .usageError)
    | some name =>
      let (behind, _) ← scan name.level {} rest
      if (name = .weights && behind.operands.isEmpty) || emptyConfig before behind config then
        .error .usageError
      else .ok ⟨name, before.join behind config⟩

end Command

end SuitePlan
