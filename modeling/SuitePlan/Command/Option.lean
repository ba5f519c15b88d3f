import SuitePlan.Browser.Choice
import SuitePlan.Decimal.Reading
import SuitePlan.Weight.Suffix

/-! The options of the command line and the values they have been given. -/

namespace SuitePlan

namespace Command

/-- An option that takes a value. -/
inductive OptionName where
  | config
  | tags
  | grammar
  | list
  | threads
  | weights
  | defaultWeight
  | suffixRule
  | outDir
  | policy
  | marker
  | output
  | totalDuration
  | totalWeight
deriving DecidableEq, Repr

def OptionName.text : OptionName → String
  | config => "config"
  | tags => "tags"
  | grammar => "grammar"
  | list => "list"
  | threads => "threads"
  | weights => "weights"
  | defaultWeight => "default-weight"
  | suffixRule => "suffix-rule"
  | outDir => "out-dir"
  | policy => "policy"
  | marker => "marker"
  | output => "output"
  | totalDuration => "total-duration"
  | totalWeight => "total-weight"

/-- Why the arguments name no command to run. -/
inductive Stop where
  | version
  | help
  | usageError
deriving DecidableEq, Repr

/-- The values that have been given so far. -/
structure Given where
  verbose : Bool := false
  config : Option String := none
  tags : Option String := none
  grammar : Option Grammar := none
  list : Option String := none
  threads : Option Nat := none
  weights : Option String := none
  defaultWeight : Option Pattern := none
  suffixRule : Option KeyRule := none
  outDir : Option String := none
  policy : Option MarkerSearch := none
  marker : Option String := none
  output : Option String := none
  totalDuration : Option Float := none
  totalWeight : Option Float := none
  operands : List String := []

/-- A path is any text but the empty one. -/
def pathOfText? (s : String) : Option String := if s.isEmpty then none else some s

/-- The value of an option that has none yet. An option is given at most once. -/
def once {α : Type} (old new : Option α) : Except Stop (Option α) :=
  match old, new with
  | none, some a => .ok (some a)
  | _, _ => .error .usageError

namespace Given

def set (g : Given) (o : OptionName) (s : String) : Except Stop Given := do
  match o with
  | .config => return { g with config := ← once g.config (pathOfText? s) }
  | .tags => return { g with tags := ← once g.tags (some s) }
  | .grammar => return { g with grammar := ← once g.grammar (Grammar.ofText s).toOption }
  | .list => return { g with list := ← once g.list (pathOfText? s) }
  | .threads => return { g with threads := ← once g.threads (Numeral.natOfText? s) }
  | .weights => return { g with weights := ← once g.weights (pathOfText? s) }
  | .defaultWeight =>
    return { g with defaultWeight := ← once g.defaultWeight (Numeral.patternOfText? s) }
  | .suffixRule =>
    return { g with suffixRule := ← once g.suffixRule (KeyRule.ofText s).toOption }
  | .outDir => return { g with outDir := ← once g.outDir (pathOfText? s) }
  | .policy => return { g with policy := ← once g.policy (MarkerSearch.ofText s).toOption }
  | .marker => return { g with marker := ← once g.marker (some s) }
  | .output => return { g with output := ← once g.output (pathOfText? s) }
  | .totalDuration =>
    return { g with totalDuration := ← once g.totalDuration (Numeral.floatOfText? s) }
  | .totalWeight => return { g with totalWeight := ← once g.totalWeight (Numeral.floatOfText? s) }

/-- Adds an operand where fewer than `limit` are there. -/
def addOperand (limit : Option Nat) (g : Given) (s : String) : Except Stop Given :=
  if s.isEmpty || limit.any (· ≤ g.operands.length) then .error .usageError
  else .ok { g with operands := g.operands ++ [s] }

end Given

end Command

end SuitePlan
