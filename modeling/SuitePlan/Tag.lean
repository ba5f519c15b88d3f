import SuitePlan.Text.Lowercase

/-! Tags and the equality that ignores their case. -/

namespace SuitePlan

abbrev Tag := String

/-- Two tags are the same tag when their lower-case forms agree. -/
def Tag.same (a b : Tag) : Bool := lowercase a == lowercase b

end SuitePlan
