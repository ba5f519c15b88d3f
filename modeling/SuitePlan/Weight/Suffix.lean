import SuitePlan.Text.Lowercase
import SuitePlan.Weight.Table

/-! The weight of a spec path: that of a key the path ends with. -/

namespace SuitePlan

/-- Which key counts when a path ends with several. -/
inductive KeyRule where
  | longest
  | last
deriving DecidableEq, Repr, Inhabited

namespace KeyRule

def name : KeyRule → String
  | longest => "longest"
  | last => "last"

def ofName? (s : String) : Option KeyRule :=
  if s = "longest" then some longest else if s = "last" then some last else none

/-- Reads the name of a rule in any case. -/
def ofText (s : String) : Except String KeyRule :=
  match ofName? (lowercase s) with
  | some r => .ok r
  | none => .error ("unknown suffix rule '" ++ lowercase s ++ "', expected 'longest' or 'last'")

/-- The longer of two keys, the first of two that are equally long. -/
def longer {W : Type} (a b : String × W) : String × W :=
  if b.1.utf8ByteSize ≤ a.1.utf8ByteSize then a else b

def choose? {W : Type} (r : KeyRule) (matching : List (String × W)) : Option (String × W) :=
  match r, matching with
  | _, [] => none
  | longest, m :: ms => some (ms.foldl longer m)
  | last, m :: ms => (m :: ms).getLast?

end KeyRule

namespace Weights

variable {W : Type}

/-- The keys that have a weight and that the path ends with. -/
def matching (t : Weights W) (path : String) : List (String × W) :=
  t.entries.filterMap fun (k, e) =>
    if k.toList.isSuffixOf path.toList then e.weight.map (k, ·) else none

/-- The weight of a path, or the given one if no key matches. -/
def weightOf (t : Weights W) (fallback : W) (r : KeyRule) (path : String) : W :=
  ((r.choose? (t.matching path)).map (·.2)).getD fallback

end Weights

end SuitePlan
