import SuitePlan.Decimal.Stepwise
import SuitePlan.Json.Reader

/-! Taking JSON values as values of other types. -/

namespace SuitePlan

namespace Json

mutual

/-- Whether every string and key has a text and every number a double. -/
def isPlain : Json → Bool
  | .number n => n.toFloat?.isSome
  | .string s => s.isSome
  | .array items => itemsPlain items
  | .object members => membersPlain members
  | _ => true

def itemsPlain : List Json → Bool
  | [] => true
  | j :: js => isPlain j && itemsPlain js

def membersPlain : List (Option String × Json) → Bool
  | [] => true
  | (k, j) :: ms => k.isSome && isPlain j && membersPlain ms

end

/-- The deepest nesting that is read where every value counts. -/
def depthLimit : Nat := 127

def asText? : Json → Option String
  | .string s => s
  | _ => none

def asBool? : Json → Option Bool
  | .boolean b => some b
  | _ => none

def asNat? : Json → Option Nat
  | .number n => n.toNat?
  | _ => none

def asFloat? : Json → Option Float
  | .number n => n.toFloat?
  | _ => none

/-- Null stands for an absent value. -/
def asOption? (f : Json → Option α) : Json → Option (Option α)
  | .null => some none
  | j => (f j).map some

def asList? (f : Json → Option α) : Json → Option (List α)
  | .array items => items.mapM f
  | _ => none

/-- The members of an object, in order. Keys without text are refused. -/
def asMembers? : Json → Option (List (String × Json))
  | .object members => members.mapM fun (k, j) => k.map (·, j)
  | _ => none

/-- The values of the members called `key`. -/
def valuesOf (key : String) (members : List (String × Json)) : List Json :=
  (members.filter (·.1 == key)).map (·.2)

/-- The value of the member called `key`, if there is one. Two of them are an error. -/
def memberOf? (members : List (String × Json)) (key : String) : Option (Option Json) :=
  match valuesOf key members with
  | [] => some none
  | [j] => some (some j)
  | _ => none

/-- The values of the fields of a record. A record is an object whose unknown members are ignored
and whose fields occur at most once, or an array of the fields in their order, which may leave
out the last ones. -/
def fields? (names : List String) : Json → Option (List (Option Json))
  | .array items =>
    if items.length ≤ names.length then
      some (items.map some ++ List.replicate (names.length - items.length) none)
    else none
  | j => do
    let members ← j.asMembers?
    names.mapM (memberOf? members)

/-- A field that has to be there. -/
def required? (f : Json → Option α) : Option Json → Option α
  | none => none
  | some j => f j

/-- A field with a value to fall back on. -/
def defaulted? (d : α) (f : Json → Option α) : Option Json → Option α
  | none => some d
  | some j => f j

/-- A choice among names: one of them as a string, or as the only key of an object with the value
null. -/
def asChoice? (f : String → Option α) : Json → Option α
  | .string (some s) => f s
  | .object [(some s, .null)] => f s
  | _ => none

end Json

end SuitePlan
