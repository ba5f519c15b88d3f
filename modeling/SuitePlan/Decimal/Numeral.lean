import SuitePlan.Decimal.Binary64

/-! Decimal numerals: the double nearest to one, and the numeral with the fewest digits that is
nearest to a given double. -/

namespace SuitePlan

def digitValue (c : Char) : Nat := c.toNat - '0'.toNat

/-- The number a run of decimal digits stands for. -/
def decimalValue (ds : List Char) : Nat := ds.foldl (fun n c => 10 * n + digitValue c) 0

/-- The number `± digits · 10 ^ exponent`. An integral numeral was written without a point and
without an exponent, and all its digits are there. -/
structure Numeral where
  negative : Bool
  digits : Nat
  exponent : Int
  integral : Bool
deriving DecidableEq, Repr

def powerOfTen (k : Nat) : Nat := Nat.pow 10 k

namespace Numeral

def ofNat (n : Nat) : Numeral := ⟨false, n, 0, true⟩

/-- The bits of the double nearest to `digits · 10 ^ exponent`. Exponents far outside the range of
doubles are decided without computing the power. -/
def magnitude (digits : Nat) (exponent : Int) : Nat :=
  if digits = 0 then 0
  else if 400 < exponent then Binary64.infinity
  else if exponent + (digits.log2 / 3 + 2 : Nat) < -400 then 0
  else Binary64.nearest (digits * powerOfTen exponent.toNat) (powerOfTen (-exponent).toNat)

/-- The natural numbers below this one have 64 bits at most. -/
def natLimit : Nat := 1 <<< 64

/-- The natural number that a numeral was written as, within 64 bits. -/
def toNat? (n : Numeral) : Option Nat :=
  if n.integral ∧ !n.negative ∧ n.exponent = 0 ∧ n.digits < natLimit then some n.digits else none

/-- The multiple of `10 ^ x` that reads back as the double `m · 2 ^ e`, the nearer one of two. -/
def onGrid? (bits : Nat) (x : Int) : Option Nat :=
  let (m, e) := Binary64.split bits
  let num := m <<< e.toNat * powerOfTen (-x).toNat
  let den := 1 <<< (-e).toNat * powerOfTen x.toNat
  let d := num / den
  let near := Binary64.roundEven num den
  let far := if near = d then d + 1 else d
  if magnitude near x = bits then some near
  else if magnitude far x = bits then some far
  else none

/-- The first hit on ever finer grids. -/
def search (bits : Nat) : Nat → Int → Option (Nat × Int)
  | 0, _ => none
  | k + 1, x =>
    match onGrid? bits x with
    | some d => some (d, x)
    | none => search bits k (x - 1)

/-- All digits of the double `m · 2 ^ e`. -/
def expansion (bits : Nat) : Nat × Int :=
  let (m, e) := Binary64.split bits
  if 0 ≤ e then (m <<< e.toNat, 0) else (m * Nat.pow 5 (-e).toNat, e)

/-- A power of ten above the double `m · 2 ^ e`, at most two places too high. -/
def ceilingExponent (bits : Nat) : Int :=
  let (m, e) := Binary64.split bits
  (((m.log2 : Int) + e + 1) * 30103) / 100000 + 1

/-- The decimal with the fewest digits that reads back as the given positive double. -/
def shortest (bits : Nat) : Nat × Int :=
  (search bits 20 (ceilingExponent bits)).getD (expansion bits)

/-- The numeral a finite double is written as. -/
def ofFloat (x : Float) : Numeral :=
  let bits := Binary64.magnitude x
  let (d, e) := if bits = 0 then (0, 0) else shortest bits
  ⟨Binary64.isNegative x, d, e, false⟩

/-- The digits and the exponent of the power of ten that goes with the first digit. -/
def leading (n : Numeral) : List Char × Int :=
  let ds := Nat.toDigits 10 n.digits
  (ds, (ds.length : Int) - 1 + n.exponent)

def zeros (k : Nat) : List Char := List.replicate k '0'

/-- Plain notation, with at least one digit on both sides of the point. -/
def plain (n : Numeral) : List Char :=
  let (ds, e) := n.leading
  if 0 ≤ n.exponent then ds ++ zeros n.exponent.toNat ++ ['.', '0']
  else if 0 ≤ e then ds.take (e.toNat + 1) ++ '.' :: ds.drop (e.toNat + 1)
  else '0' :: '.' :: zeros (-e - 1).toNat ++ ds

/-- Scientific notation, with a sign on the exponent and no point after a single digit. -/
def scientific (n : Numeral) : List Char :=
  let (ds, e) := n.leading
  let tail := if ds.length ≤ 1 then [] else '.' :: ds.drop 1
  ds.take 1 ++ tail ++ 'e' :: (if e < 0 then '-' else '+') :: Nat.toDigits 10 e.natAbs

/-- The text of a numeral. A number that is not integral is written plainly from `1e-5` up to
below `1e16`. -/
def render (n : Numeral) : List Char :=
  let sign := if n.negative then ['-'] else []
  let e := n.leading.2
  if n.integral then sign ++ Nat.toDigits 10 n.digits
  else if -5 ≤ e ∧ e < 16 then sign ++ n.plain
  else sign ++ n.scientific

end Numeral

end SuitePlan
