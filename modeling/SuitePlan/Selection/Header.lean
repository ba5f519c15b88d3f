import SuitePlan.Tag
import SuitePlan.Text.Blank

/-! The tags in the header of a feature file, which ends at the `Feature:` line. -/

namespace SuitePlan

def startsWith (s : List Char) (start : String) : Bool := start.toList.isPrefixOf s

/-- The words of a tag line that begin with an at sign. Any other line holds no tags. -/
def lineTags (line : List Char) : List Tag :=
  let t := trim line
  if t.head? = some '@' then ((words t).filter (·.head? = some '@')).map String.ofList else []

def isFeatureLine (line : List Char) : Bool := startsWith (trim line) "Feature:"

/-- The tags above the feature line, in order and with repetitions. -/
def headerTags (s : List Char) : List Tag :=
  ((lines (dropByteOrderMark s)).takeWhile (!isFeatureLine ·)).flatMap lineTags

/-- The tags that a feature file declares for all its scenarios. -/
def declaredTags (content : String) : List Tag := headerTags content.toList

end SuitePlan
