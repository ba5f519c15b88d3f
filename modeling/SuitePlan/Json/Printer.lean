import SuitePlan.Json.Basic

/-! Writing JSON values, compactly or over several lines. -/

namespace SuitePlan

namespace Lexeme

def hexDigit (n : Nat) : Char := Nat.digitChar (n % 16)

/-- Quotes, backslashes and control characters are escaped. -/
def escape (c : Char) : List Char :=
  if c = '"' then ['\\', '"']
  else if c = '\\' then ['\\', '\\']
  else if c = '\x08' then ['\\', 'b']
  else if c = '\t' then ['\\', 't']
  else if c = '\n' then ['\\', 'n']
  else if c = '\x0c' then ['\\', 'f']
  else if c = '\r' then ['\\', 'r']
  else if c < ' ' then ['\\', 'u', '0', '0', hexDigit (c.toNat / 16), hexDigit c.toNat]
  else [c]

/-- A string without text is written as one that cannot be read as text either. -/
def render : Lexeme → List Char
  | openArray => ['[']
  | closeArray => [']']
  | openObject => ['\x7b']
  | closeObject => ['\x7d']
  | comma => [',']
  | colon => [':']
  | null => ['n', 'u', 'l', 'l']
  | boolean true => ['t', 'r', 'u', 'e']
  | boolean false => ['f', 'a', 'l', 's', 'e']
  | number n => n.render
  | string (some s) => '"' :: s.toList.flatMap escape ++ ['"']
  | string none => "\"\\ud800\"".toList

end Lexeme

namespace Json

/-- Either everything stands in one line without blanks, or every item and member has a line of its
own, indented by two spaces for each array and object around it. -/
inductive Layout where
  | compact
  | pretty
deriving DecidableEq

def Layout.newline (style : Layout) (level : Nat) : List Char :=
  match style with
  | .compact => []
  | .pretty => '\n' :: List.replicate (2 * level) ' '

def Layout.space : Layout → List Char
  | .compact => []
  | .pretty => [' ']

/-- A lexeme with the blanks before it. -/
abbrev Piece := List Char × Lexeme

mutual

/-- The pieces of a value, the first of them with `gap` before it. -/
def layOut (style : Layout) (level : Nat) (gap : List Char) : Json → List Piece
  | .null => [(gap, .null)]
  | .boolean b => [(gap, .boolean b)]
  | .number n => [(gap, .number n)]
  | .string s => [(gap, .string s)]
  | .array [] => [(gap, .openArray), ([], .closeArray)]
  | .array (j :: js) =>
    (gap, .openArray) :: layOut style (level + 1) (style.newline (level + 1)) j ++
      layOutItems style (level + 1) js ++ [(style.newline level, .closeArray)]
  | .object [] => [(gap, .openObject), ([], .closeObject)]
  | .object ((k, j) :: ms) =>
    (gap, .openObject) :: (style.newline (level + 1), .string k) :: ([], .colon) ::
      layOut style (level + 1) style.space j ++
      layOutMembers style (level + 1) ms ++ [(style.newline level, .closeObject)]

def layOutItems (style : Layout) (level : Nat) : List Json → List Piece
  | [] => []
  | j :: js => ([], .comma) :: layOut style level (style.newline level) j ++
      layOutItems style level js

def layOutMembers (style : Layout) (level : Nat) : List (Option String × Json) → List Piece
  | [] => []
  | (k, j) :: ms => ([], .comma) :: (style.newline level, .string k) :: ([], .colon) ::
      layOut style level style.space j ++ layOutMembers style level ms

end

def render (style : Layout) (j : Json) : List Char :=
  (layOut style 0 [] j).flatMap fun (gap, l) => gap ++ l.render

def compact (j : Json) : String := String.ofList (j.render .compact)

def pretty (j : Json) : String := String.ofList (j.render .pretty)

end Json

end SuitePlan
