import SuitePlan.TagExpr.Grammar

/-! Which browser the workers start, chosen by the place of a marker tag in the expression. -/

namespace SuitePlan

inductive Browser where
  | chrome
  | electron
deriving DecidableEq, Repr

def Browser.name : Browser → String
  | chrome => "chrome"
  | electron => "electron"

/-- How the marker is looked for: in the parsed expression, or in its text. -/
inductive MarkerSearch where
  | expression
  | pattern
deriving DecidableEq, Repr, Inhabited

namespace MarkerSearch

def name : MarkerSearch → String
  | expression => "expression"
  | pattern => "pattern"

def ofName? (s : String) : Option MarkerSearch :=
  if s = "expression" then some expression else if s = "pattern" then some pattern else none

/-- Reads the name of a mode in any case. -/
def ofText (s : String) : Except String MarkerSearch :=
  match ofName? (lowercase s) with
  | some m => .ok m
  | none =>
    .error ("unknown browser policy '" ++ lowercase s ++ "', expected 'expression' or 'pattern'")

end MarkerSearch

/-- Whether the marker is one of the words of a leaf, which blanks and commas separate. -/
def names (marker value : String) : Bool :=
  (pieces (fun c => isBlank c || c = ',') value.toList).contains marker.toList

/-- Whether some leaf names the marker under an even number of negations, or an odd one. -/
def TagExpr.mentions (marker : String) (even : Bool) : TagExpr → Bool
  | tag value => even && names marker value
  | and left right => left.mentions marker even || right.mentions marker even
  | or left right => left.mentions marker even || right.mentions marker even
  | not operand => operand.mentions marker (!even)
  | unknown => false

/-- Electron for a marker that is mentioned and nowhere negated. -/
def TagExpr.browser (marker : String) (e : TagExpr) : Browser :=
  if e.mentions marker false then .chrome
  else if e.mentions marker true then .electron
  else .chrome

namespace Pattern

/-- Whether the marker stands in the text before its first line end, or begins there. -/
def onLine (marker : List Char) : List Char → Bool
  | [] => marker.isEmpty
  | c :: r => marker.isPrefixOf (c :: r) || (c ≠ '\n' && onLine marker r)

/-- Whether the marker stands on the line that is reached over some blanks. -/
def afterBlanks (marker : List Char) : List Char → Bool
  | [] => onLine marker []
  | c :: r => onLine marker (c :: r) || (isBlank c && afterBlanks marker r)

/-- Whether the text begins with `not` and a blank, and the marker follows. -/
def negatedHere (marker : List Char) : List Char → Bool
  | 'n' :: 'o' :: 't' :: c :: r => isBlank c && afterBlanks marker r
  | _ => false

def negated (marker : List Char) : List Char → Bool
  | [] => false
  | c :: r => negatedHere marker (c :: r) || negated marker r

/-- What may stand before the marker: nothing, a blank, a comma or an opening parenthesis. -/
def opensAfter : Option Char → Bool
  | none => true
  | some c => isBlank c || c = ',' || c = '('

/-- What may stand behind the marker. The words `or` and `and` need a blank behind them. -/
def closesBefore : List Char → Bool
  | [] => true
  | 'o' :: 'r' :: c :: _ => isBlank c
  | 'a' :: 'n' :: 'd' :: c :: _ => isBlank c
  | c :: _ => isBlank c || c = ',' || c = ')'

/-- Whether the marker stands by itself somewhere, given the character before the text. -/
def standalone (marker : List Char) (before : Option Char) (s : List Char) : Bool :=
  (opensAfter before && marker.isPrefixOf s && closesBefore (s.drop marker.length)) ||
    match s with
    | [] => false
    | c :: r => standalone marker (some c) r

/-- Electron for a marker that stands by itself in the text, with no `not` before it on its line. -/
def browser (marker s : List Char) : Browser :=
  if negated marker s then .chrome
  else if standalone marker none s then .electron
  else .chrome

end Pattern

structure BrowserRule where
  marker : String := "@BE"
  mode : MarkerSearch := .expression
  grammar : Grammar := .precedence

namespace BrowserRule

/-- A text that cannot be parsed is searched instead. -/
def ofExpression (p : BrowserRule) (s : String) : Browser :=
  match p.grammar.parse s with
  | .ok (some e) => e.browser p.marker
  | .ok none => .chrome
  | .error _ => Pattern.browser p.marker.toList s.toList

/-- The browser for an expression. Without one the runner keeps its own default. -/
def select (p : BrowserRule) (expression : Option String) : Option Browser :=
  match expression with
  | none => none
  | some s =>
    if isBlankText s then none
    else
      match p.mode with
      | .expression => some (p.ofExpression s)
      | .pattern => some (Pattern.browser p.marker.toList s.toList)

end BrowserRule

end SuitePlan
