import SuitePlan.Decimal.Numeral
import SuitePlan.Decimal.Pattern

/-! Numbers as a user types them. -/

namespace SuitePlan

namespace Numeral

def allDigits (s : List Char) : Bool := s.all Char.isDigit

/-- A sign, if there is one, and whether it is a minus. -/
def splitSign : List Char → Bool × List Char
  | '-' :: r => (true, r)
  | '+' :: r => (false, r)
  | s => (false, s)

/-- A natural number within 64 bits, which may have a plus sign. -/
def natOfText? (s : String) : Option Nat :=
  let ds := match s.toList with
    | '+' :: r => r
    | t => t
  if ds.isEmpty || !allDigits ds then none
  else if decimalValue ds < natLimit then some (decimalValue ds)
  else none

/-- The exponent in a text that is empty or begins with the letter `e`. -/
def exponentOf? : List Char → Option Int
  | [] => some 0
  | c :: r =>
    let (negative, ds) := splitSign r
    if c.toLower ≠ 'e' || ds.isEmpty || !allDigits ds then none
    else some (if negative then -(decimalValue ds : Int) else decimalValue ds)

/-- A decimal without a sign. Digits have to stand on one side of the point at least. -/
def decimalOf? (s : List Char) : Option (Nat × Int) :=
  let whole := s.takeWhile Char.isDigit
  let (places, r) := match s.dropWhile Char.isDigit with
    | '.' :: t => (t.takeWhile Char.isDigit, t.dropWhile Char.isDigit)
    | t => ([], t)
  if whole.isEmpty && places.isEmpty then none
  else (exponentOf? r).map fun e => (decimalValue (whole ++ places), e - places.length)

/-- The sign of a double and its bits without it: a decimal, or a name for infinity or for no number in
any case. A decimal that is too large is infinite. -/
def signedOfText? (s : String) : Option (Bool × Nat) :=
  let (negative, t) := splitSign s.toList
  let word := String.ofList (t.map Char.toLower)
  if word = "inf" ∨ word = "infinity" then some (negative, Binary64.infinity)
  else if word = "nan" then some (negative, Binary64.notANumber)
  else (decimalOf? t).map fun (d, e) => (negative, magnitude d e)

def floatOfText? (s : String) : Option Float :=
  (signedOfText? s).map fun (negative, bits) => Binary64.ofBits negative bits

/-- Also what is not a number keeps its sign. -/
def patternOfText? (s : String) : Option Pattern :=
  (signedOfText? s).map fun (negative, bits) => Pattern.ofBits negative bits

end Numeral

end SuitePlan
