import SuitePlan.Decimal.Numeral

/-! Numerals read in steps. The significand keeps as many digits as fit into 64 bits. It is rounded
to a double, the power of ten is rounded to a double, and so is their product or quotient. The
outcome is close to the double nearest to the numeral and can differ from it. -/

namespace SuitePlan

namespace Numeral

/-- Appends digits to a significand while it stays within 64 bits. The other digits are left. -/
def fill (significand : Nat) : List Char → Nat × List Char
  | [] => (significand, [])
  | c :: ds =>
    let next := 10 * significand + digitValue c
    if next < natLimit then fill next ds else (significand, c :: ds)

/-- The numeral written with these digits before and after the point. A digit that does not fit
counts as a factor of ten before the point and for nothing after it. -/
def ofDigits (negative : Bool) (whole fraction : List Char) (exponent : Option Int) : Numeral :=
  let (front, dropped) := fill 0 whole
  let (digits, ignored) := fill front fraction
  let places := fraction.length - ignored.length
  ⟨negative, digits, exponent.getD 0 + dropped.length - places,
    dropped.isEmpty && fraction.isEmpty && exponent.isNone⟩

/-- The largest exponent at which a power of ten is a finite double. -/
def tensLimit : Nat := 308

/-- The bits of the double nearest to `10 ^ k`. -/
def tens (k : Nat) : Nat := Binary64.nearest (powerOfTen k) 1

/-- A double multiplied by a power of ten. -/
def raise (bits k : Nat) : Nat :=
  if bits = 0 then 0
  else if k ≤ tensLimit then Binary64.product bits (tens k)
  else Binary64.infinity

/-- A double divided by a power of ten, one that is too large for a double being split up. -/
def lower (bits k : Nat) : Nat :=
  if bits = 0 then 0
  else if k ≤ tensLimit then Binary64.quotient bits (tens k)
  else lower (Binary64.quotient bits (tens tensLimit)) (k - tensLimit)
termination_by k
decreasing_by simp_all [tensLimit]; omega

/-- The bits of the double that a numeral without its sign is read as. -/
def stepwise (digits : Nat) (exponent : Int) : Nat :=
  let bits := Binary64.nearest digits 1
  if 0 ≤ exponent then raise bits exponent.toNat else lower bits (-exponent).toNat

/-- The double that a numeral is read as, unless the numeral is too large. -/
def toFloat? (n : Numeral) : Option Float :=
  let bits := stepwise n.digits n.exponent
  if bits < Binary64.infinity then some (Binary64.ofBits n.negative bits) else none

end Numeral

end SuitePlan
