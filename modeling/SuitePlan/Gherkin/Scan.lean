/-! Scanning a text by rules that take a beginning of it, with ordered choice. -/

namespace SuitePlan

namespace Gherkin

/-- What a rule makes of a text: it takes a beginning of it, it does not apply, or it finds the
whole document to be invalid. -/
inductive Outcome (α : Type) where
  | found (value : α) (rest : List Char)
  | missed
  | refused
deriving Inhabited

def Scan (α : Type) : Type := List Char → Outcome α

namespace Scan

instance : Monad Scan where
  pure a := fun s => .found a s
  bind p f := fun s =>
    match p s with
    | .found a r => f a r
    | .missed => .missed
    | .refused => .refused

def miss {α : Type} : Scan α := fun _ => .missed

def refuse {α : Type} : Scan α := fun _ => .refused

/-- The text that is left. -/
def rest : Scan (List Char) := fun s => .found s s

/-- Goes on with a later part of the text. -/
def skip (f : List Char → List Char) : Scan Unit := fun s => .found () (f s)

/-- Goes on with a later part of the text, if there is one to go on with. -/
def advance (f : List Char → Option (List Char)) : Scan Unit := fun s =>
  match f s with
  | some r => .found () r
  | none => .missed

def exactly (t : List Char) : Scan Unit := fun s =>
  if t.isPrefixOf s then .found () (s.drop t.length) else .missed

/-- The second rule is tried only where the first does not apply. -/
def orElse {α : Type} (p q : Scan α) : Scan α := fun s =>
  match p s with
  | .missed => q s
  | o => o

def optional {α : Type} (p : Scan α) : Scan (Option α) := orElse (some <$> p) (pure none)

/-- What a rule takes from a text when it is repeated as long as it takes something. -/
def repeatFrom {α : Type} (p : Scan α) (s : List Char) : Outcome (List α) :=
  match p s with
  | .missed => .found [] s
  | .refused => .refused
  | .found a r =>
    if r.length < s.length then
      match repeatFrom p r with
      | .found as t => .found (a :: as) t
      | .missed => .missed
      | .refused => .refused
    else .found [a] r
termination_by s.length

/-- Repeats a rule while it applies. -/
def many {α : Type} (p : Scan α) : Scan (List α) := fun s => repeatFrom p s

/-- Repeats a rule, with something that may always be skipped in between. What is skipped after
the last time is given back. -/
def manySkipping {α : Type} (gap : List Char → List Char) (p : Scan α) : Scan (List α) := do
  match ← optional p with
  | none => pure []
  | some a => (a :: ·) <$> many (do skip gap; p)

end Scan

end Gherkin

end SuitePlan
