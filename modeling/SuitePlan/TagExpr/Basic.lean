import SuitePlan.Tag

/-! Tag expressions, the text they are shown as, and what they say about a set of tags. -/

namespace SuitePlan

/-- A condition on tags. A node of unknown kind can only come from a document. -/
inductive TagExpr where
  | tag (value : String)
  | and (left right : TagExpr)
  | or (left right : TagExpr)
  | not (operand : TagExpr)
  | unknown
deriving DecidableEq, Repr, Inhabited

namespace TagExpr

def kind : TagExpr → String
  | tag _ => "tag"
  | and _ _ => "and"
  | or _ _ => "or"
  | not _ => "not"
  | unknown => "unknown"

/-- Parentheses around every binary node, and none elsewhere. -/
def render : TagExpr → String
  | tag value => value
  | and left right => "(" ++ left.render ++ " and " ++ right.render ++ ")"
  | or left right => "(" ++ left.render ++ " or " ++ right.render ++ ")"
  | not operand => "not " ++ operand.render
  | unknown => "<unknown>"

/-- Whether the expression holds of a list of tags. A node of unknown kind never holds. -/
def eval (tags : List Tag) : TagExpr → Bool
  | tag value => tags.any (Tag.same · value)
  | and left right => left.eval tags && right.eval tags
  | or left right => left.eval tags || right.eval tags
  | not operand => !operand.eval tags
  | unknown => false

/-- The values of the leaves from left to right. -/
def leaves : TagExpr → List String
  | tag value => [value]
  | and left right => left.leaves ++ right.leaves
  | or left right => left.leaves ++ right.leaves
  | not operand => operand.leaves
  | unknown => []

end TagExpr

/-- An absent expression holds of every list of tags. -/
def holds (e : Option TagExpr) (tags : List Tag) : Bool :=
  match e with
  | none => true
  | some e => e.eval tags

end SuitePlan
