import SuitePlan.Tag

/-! Feature documents, reduced to what is needed to count their scenarios. -/

namespace SuitePlan

namespace Gherkin

/-- The first line of a part of a document, with the tags above it. -/
structure Heading where
  name : String := ""
  tags : List Tag := []
  line : Nat := 0
deriving DecidableEq, Repr, Inhabited

/-- A table of examples. The header row does not count. -/
structure Examples where
  tags : List Tag
  line : Nat
  rows : Nat
deriving DecidableEq, Repr

/-- A scenario is an outline when it has tables of examples. -/
structure Scenario where
  heading : Heading
  examples : List Examples
deriving DecidableEq, Repr, Inhabited

inductive Child where
  | scenario (s : Scenario)
  | rule (heading : Heading) (children : List Child)
deriving Repr, Inhabited

structure Feature where
  heading : Heading
  children : List Child
deriving Repr

/-- A document without a feature holds nothing but comments. -/
abbrev Document := Option Feature

namespace Scenario

def isOutline (s : Scenario) : Bool := !s.examples.isEmpty

/-- The number of rows in all tables together. -/
def exampleRows (s : Scenario) : Nat := s.examples.foldr (·.rows + ·) 0

end Scenario

end Gherkin

end SuitePlan
