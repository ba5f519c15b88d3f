/-! Doubles as exact numbers. The bits of a positive double, read as a natural number, grow with
its value, so rounding a quotient and splitting a double are both arithmetic on naturals. -/

namespace SuitePlan

namespace Binary64

def signBit : Nat := 1 <<< 63

/-- The number of mantissas at one exponent. -/
def binade : Nat := 1 <<< 52

/-- The bits of positive infinity. All smaller numbers are the bits of finite doubles. -/
def infinity : Nat := 2047 * binade

/-- The bits of the not-a-number value. -/
def notANumber : Nat := infinity + binade / 2

/-- A finite double without its sign is `mantissa · 2 ^ exponent`. -/
def split (bits : Nat) : Nat × Int :=
  let e : Nat := bits / binade
  let f : Nat := bits % binade
  if e = 0 then (f, -1074) else (f + binade, (e : Int) - 1075)

/-- The whole number nearest to a quotient, a tie going to the even one. -/
def roundEven (num den : Nat) : Nat :=
  let q := num / den
  let r := num % den
  if 2 * r < den ∨ (2 * r = den ∧ q % 2 = 0) then q else q + 1

/-- A quotient divided by `2 ^ e`, as numerator and denominator. -/
def scale (num den : Nat) (e : Int) : Nat × Nat := (num <<< (-e).toNat, den <<< e.toNat)

/-- The exponent at which a quotient is rounded: the mantissa gets 53 bits where doubles have
that many, and the smallest exponent is -1074. -/
def roundingExponent (num den : Nat) : Int :=
  let k : Int := num.log2 - den.log2
  let e := max (k - 53) (-1074)
  let (n, d) := scale num den e
  if n / d < 2 * binade then e else e + 1

/-- The bits of the double nearest to a quotient. What is too large becomes infinity. -/
def nearest (num den : Nat) : Nat :=
  if num = 0 then 0
  else
    let e := roundingExponent num den
    let (n, d) := scale num den e
    min ((e + 1074).toNat * binade + roundEven n d) infinity

/-- The rounded product of two finite doubles without sign. -/
def product (x y : Nat) : Nat :=
  let (m, e) := split x
  let (n, f) := split y
  let (num, den) := scale (m * n) 1 (-(e + f))
  nearest num den

/-- The rounded quotient of two finite doubles without sign. -/
def quotient (x y : Nat) : Nat :=
  let (m, e) := split x
  let (n, f) := split y
  let (num, den) := scale m n (f - e)
  nearest num den

def bitsOf (x : Float) : Nat := x.toBits.toNat

def ofBits (negative : Bool) (bits : Nat) : Float :=
  Float.ofBits (UInt64.ofNat (if negative then signBit + bits else bits))

def magnitude (x : Float) : Nat := bitsOf x % signBit

def isNegative (x : Float) : Bool := signBit ≤ bitsOf x

def isFinite (x : Float) : Bool := magnitude x < infinity

/-- The place of a double in the total order
`-inf < … < -0.0 < 0.0 < … < inf < NaN`. -/
def rank (x : Float) : Int :=
  if isNegative x then -1 - (magnitude x : Int) else magnitude x

/-- The total order of doubles. -/
def le (x y : Float) : Bool := rank x ≤ rank y

theorem le_trans (x y z : Float) (h : le x y) (h' : le y z) : le x z :=
  decide_eq_true (Int.le_trans (of_decide_eq_true h) (of_decide_eq_true h'))

theorem le_total (x y : Float) : le x y || le y x := by
  simp only [le, Bool.or_eq_true, decide_eq_true_eq]
  exact Int.le_total (rank x) (rank y)

/-- The largest whole double that is not above `x`, the sign of a zero being kept. -/
def floor (x : Float) : Float :=
  let (m, e) := split (magnitude x)
  if 0 ≤ e then x
  else
    let d := 1 <<< (-e).toNat
    let q := m / d
    if isNegative x ∧ m % d ≠ 0 then ofBits true (nearest (q + 1) 1)
    else ofBits (isNegative x) (nearest q 1)

end Binary64

end SuitePlan
