import SuitePlan.Decimal.Binary64

/-! Doubles as the patterns of their bits. Unlike a `Float`, of which one alone is not a number, a pattern
that is not a number has a sign, and the total order looks at it. -/

namespace SuitePlan

/-- The sixty-four bits of a double. -/
structure Pattern where
  bits : UInt64
deriving DecidableEq, Repr

namespace Pattern

open Binary64 (signBit binade infinity)

def ofFloat (x : Float) : Pattern := ⟨x.toBits⟩

def ofBits (negative : Bool) (bits : Nat) : Pattern :=
  ⟨UInt64.ofNat (if negative then signBit + bits else bits)⟩

def toFloat (p : Pattern) : Float := .ofBits p.bits

def magnitude (p : Pattern) : Nat := p.bits.toNat % signBit

def isNegative (p : Pattern) : Bool := signBit ≤ p.bits.toNat

def isNumber (p : Pattern) : Bool := p.magnitude ≤ infinity

/-- The place in the total order `-NaN < -inf < … < -0.0 < 0.0 < … < inf < NaN`. -/
def rank (p : Pattern) : Int :=
  if p.isNegative then -1 - (p.magnitude : Int) else p.magnitude

def le (p q : Pattern) : Bool := p.rank ≤ q.rank

theorem le_trans (p q r : Pattern) (h : p.le q) (h' : q.le r) : p.le r :=
  decide_eq_true (Int.le_trans (of_decide_eq_true h) (of_decide_eq_true h'))

theorem le_total (p q : Pattern) : p.le q || q.le p := by
  simp only [le, Bool.or_eq_true, decide_eq_true_eq]
  exact Int.le_total p.rank q.rank

/-- The sum of opposite infinities, as x86-64 gives it. -/
def undefined : Pattern := ⟨0xfff8000000000000⟩

/-- The pattern with the highest bit of its fraction set, as a sum leaves what is not a number. -/
def quiet (p : Pattern) : Pattern := ⟨p.bits ||| UInt64.ofNat (binade / 2)⟩

/-- A sum with a term that is not a number is the first such term. -/
def add (p q : Pattern) : Pattern :=
  if !p.isNumber then p.quiet
  else if !q.isNumber then q.quiet
  else
    let s := ofFloat (p.toFloat + q.toFloat)
    if s.isNumber then s else undefined

/-- Among the doubles that `Float` has, both orders are the same. -/
theorem le_ofFloat (x y : Float) : (ofFloat x).le (ofFloat y) = Binary64.le x y := rfl

end Pattern

end SuitePlan
