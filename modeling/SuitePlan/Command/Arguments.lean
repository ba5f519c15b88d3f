import SuitePlan.Command.Option

/-! Reading the arguments of the command line. -/

namespace SuitePlan

namespace Command

/-- What an option without a value asks for. -/
inductive Flag where
  | verbose
  | version
  | help
  | unknown
deriving DecidableEq, Repr

/-- One argument by itself. -/
inductive Word where
  | separator
  | flags (fs : List Flag)
  | setting (o : OptionName) (value : Option String)
  | operand (s : String)
deriving DecidableEq, Repr

/-- Where arguments stand: before the command, or behind it. -/
structure Level where
  options : List OptionName
  isTop : Bool := false
  limit : Option Nat := none

namespace Level

def longFlag (l : Level) (name : String) : Flag :=
  if name = "verbose" then .verbose
  else if name = "help" then .help
  else if name = "version" ∧ l.isTop then .version
  else .unknown

def shortFlag (l : Level) (c : Char) : Flag :=
  if c = 'v' then .verbose
  else if c = 'h' then .help
  else if c = 'V' ∧ l.isTop then .version
  else .unknown

/-- An argument that begins with two dashes, without them. -/
def longWord (l : Level) (s : List Char) : Word :=
  let name := String.ofList (s.takeWhile (· ≠ '='))
  let value := match s.dropWhile (· ≠ '=') with
    | [] => none
    | _ :: r => some (String.ofList r)
  match l.options.find? (·.text = name) with
  | some o => .setting o value
  | none => .flags [if value.isSome then .unknown else l.longFlag name]

def word (l : Level) (arg : String) : Word :=
  match arg.toList with
  | ['-', '-'] => .separator
  | '-' :: '-' :: s => l.longWord s
  | ['-'] => .operand arg
  | '-' :: cs => .flags (cs.map l.shortFlag)
  | _ => .operand arg

end Level

namespace Given

def takeFlags (g : Given) : List Flag → Except Stop Given
  | [] => .ok g
  | .verbose :: fs =>
    if g.verbose then .error .usageError else takeFlags { g with verbose := true } fs
  | .version :: _ => .error .version
  | .help :: _ => .error .help
  | .unknown :: _ => .error .usageError

end Given

/-- Whether an argument can be the value of the option before it. -/
def isValue (s : String) : Bool := s = "-" || !s.startsWith "-"

/-- Reads arguments from left to right. Before the command the first operand ends the reading, as it
is the command. -/
def scan (l : Level) : Given → List String → Except Stop (Given × List String)
  | g, [] => .ok (g, [])
  | g, arg :: rest =>
    match l.word arg with
    | .separator =>
      if l.isTop then .error .usageError
      else (rest.foldlM (Given.addOperand l.limit) g).map (·, [])
    | .flags fs => do scan l (← g.takeFlags fs) rest
    | .setting o (some v) => do scan l (← g.set o v) rest
    | .setting o none =>
      match rest with
      | v :: rest => if isValue v then do scan l (← g.set o v) rest else .error .usageError
      | [] => .error .usageError
    | .operand s =>
      if l.isTop then .ok (g, s :: rest)
      else do scan l (← g.addOperand l.limit s) rest

end Command

end SuitePlan
