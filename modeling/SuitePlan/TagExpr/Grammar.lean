import SuitePlan.TagExpr.Legacy
import SuitePlan.TagExpr.Precedence

/-! The grammars an expression can be written in. -/

namespace SuitePlan

inductive Grammar where
  | precedence
  | legacy
deriving DecidableEq, Repr, Inhabited

namespace Grammar

def name : Grammar → String
  | precedence => "precedence"
  | legacy => "legacy"

def ofName? (s : String) : Option Grammar :=
  if s = "precedence" then some precedence else if s = "legacy" then some legacy else none

/-- Reads the name of a grammar in any case. -/
def ofText (s : String) : Except String Grammar :=
  match ofName? (lowercase s) with
  | some g => .ok g
  | none => .error ("unknown grammar '" ++ lowercase s ++ "', expected 'precedence' or 'legacy'")

/-- The expression written in a text. A blank text has none. -/
def parse (g : Grammar) (s : String) : Except TagExprError (Option TagExpr) :=
  match g with
  | precedence => Precedence.parse s.toList
  | legacy => .ok (Legacy.parse s.toList)

end Grammar

end SuitePlan
