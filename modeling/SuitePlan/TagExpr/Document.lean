import SuitePlan.TagExpr.Basic
import SuitePlan.Json.Decode

/-! Expressions as JSON documents. A node is an object whose member `type` names its kind. -/

namespace SuitePlan

namespace TagExpr

def toJson : TagExpr → Json
  | tag value => .record [("type", .text "tag"), ("value", .text value)]
  | and left right =>
    .record [("type", .text "and"), ("left", left.toJson), ("right", right.toJson)]
  | or left right =>
    .record [("type", .text "or"), ("left", left.toJson), ("right", right.toJson)]
  | not operand => .record [("type", .text "not"), ("operand", operand.toJson)]
  | unknown => .record [("type", .text "unknown")]

inductive Kind where
  | tag
  | and
  | or
  | not
  | unknown
deriving DecidableEq

namespace Kind

/-- Any other name is that of an unknown kind. -/
def ofName (s : String) : Kind :=
  if s = "tag" then tag
  else if s = "and" then and
  else if s = "or" then or
  else if s = "not" then not
  else unknown

def ofNumber : Nat → Kind
  | 0 => tag
  | 1 => and
  | 2 => or
  | 3 => not
  | _ => unknown

/-- An inner node may give its kind by number. -/
def ofJson? (inner : Bool) : Json → Option Kind
  | .string s => s.map ofName
  | .number n => if inner then n.toNat?.map ofNumber else none
  | _ => none

def fieldNames : Kind → List String
  | tag => ["value"]
  | and => ["left", "right"]
  | or => ["left", "right"]
  | not => ["operand"]
  | unknown => []

end Kind

/-- A value inside a document, with the expression it stands for if it is a node. -/
abbrev Part := Json × Option TagExpr

/-- The node of a kind with its fields in order. -/
def ofFields? : Kind → List Part → Option TagExpr
  | .tag, [v] => v.1.asText?.map tag
  | .and, [l, r] => do some (and (← l.2) (← r.2))
  | .or, [l, r] => do some (or (← l.2) (← r.2))
  | .not, [e] => e.2.map not
  | .unknown, [] => some unknown
  | _, _ => none

/-- The only member of this name. -/
def onlyMember? (members : List (Option String × Part)) (key : String) : Option Part :=
  match members.filter (·.1 == some key) with
  | [m] => some m.2
  | _ => none

def ofMembers? (inner : Bool) (members : List (Option String × Part)) : Option TagExpr := do
  let kind ← Kind.ofJson? inner (← onlyMember? members "type").1
  ofFields? kind (← kind.fieldNames.mapM (onlyMember? members))

/-- A node may also be an array of its kind and its fields. -/
def ofItems? (inner : Bool) : List Part → Option TagExpr
  | [] => none
  | kind :: fields => (Kind.ofJson? inner kind.1).bind fun k => ofFields? k fields

mutual

def ofNode? (inner : Bool) : Json → Option TagExpr
  | .array items => ofItems? inner (itemParts items)
  | .object members => ofMembers? inner (memberParts members)
  | _ => none

def itemParts : List Json → List Part
  | [] => []
  | j :: js => (j, ofNode? true j) :: itemParts js

def memberParts : List (Option String × Json) → List (Option String × Part)
  | [] => []
  | (k, j) :: ms => (k, j, ofNode? true j) :: memberParts ms

end

/-- The expression a document stands for. -/
def ofJson? (j : Json) : Option TagExpr := if j.isPlain then ofNode? false j else none

/-- Reads a document that may be null, which stands for no expression. -/
def ofText? (s : String) : Option (Option TagExpr) :=
  (Json.ofTextWithin? Json.depthLimit s).bind (Json.asOption? ofJson?)

end TagExpr

end SuitePlan
