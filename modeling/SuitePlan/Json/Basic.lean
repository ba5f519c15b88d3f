import SuitePlan.Decimal.Numeral

/-! JSON values and the lexemes their texts are made of. -/

namespace SuitePlan

/-- A JSON value. A string is `none` when its escapes leave half a surrogate pair: it has a place
in the document but no text. Members keep their order and may repeat a key. -/
inductive Json where
  | null
  | boolean (b : Bool)
  | number (n : Numeral)
  | string (s : Option String)
  | array (items : List Json)
  | object (members : List (Option String × Json))
deriving Inhabited

namespace Json

def text (s : String) : Json := .string (some s)

def nat (n : Nat) : Json := .number (.ofNat n)

/-- A double, or null where JSON has no number for it. -/
def float (x : Float) : Json := if Binary64.isFinite x then .number (.ofFloat x) else .null

def texts (ss : List String) : Json := .array (ss.map text)

/-- An object with textual keys. -/
def record (members : List (String × Json)) : Json :=
  .object (members.map fun (k, v) => (some k, v))

def ofOption (f : α → Json) : Option α → Json
  | none => .null
  | some a => f a

mutual

/-- The number of arrays and objects around the innermost value, itself included. -/
def depth : Json → Nat
  | .array items => itemDepth items + 1
  | .object members => memberDepth members + 1
  | _ => 0

def itemDepth : List Json → Nat
  | [] => 0
  | j :: js => max (depth j) (itemDepth js)

def memberDepth : List (Option String × Json) → Nat
  | [] => 0
  | (_, j) :: js => max (depth j) (memberDepth js)

end

end Json

inductive Lexeme where
  | openArray
  | closeArray
  | openObject
  | closeObject
  | comma
  | colon
  | null
  | boolean (b : Bool)
  | number (n : Numeral)
  | string (s : Option String)
deriving DecidableEq

end SuitePlan
