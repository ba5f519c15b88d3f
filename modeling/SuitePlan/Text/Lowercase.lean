import SuitePlan.Text.CaseTable

/-! Lower-casing by the full Unicode mapping, where a capital sigma depends on its neighbours. -/

namespace SuitePlan

def inRanges (ranges : Array (Nat × Nat)) (c : Char) : Bool :=
  ranges.any fun (a, b) => a ≤ c.toNat && c.toNat ≤ b

def isCased (c : Char) : Bool := inRanges casedRanges c

def isCaseIgnorable (c : Char) : Bool := inRanges caseIgnorableRanges c

/-- The lower-case counterpart of a character taken by itself. Only U+0130 has two characters. -/
def lowerChar (c : Char) : List Char :=
  let n := c.toNat
  if n < 0x80 then [c.toLower]
  else if n = 0x130 then ['i', '\u0307']
  else
    match lowerRuns.find? fun (a, b, step, _) => a ≤ n && n ≤ b && (n - a) % step == 0 with
    | some (_, _, _, offset) => [Char.ofNat (Int.ofNat n + offset).toNat]
    | none => [c]

/-- Whether the first character that counts is a letter with case. -/
def startsCased (s : List Char) : Bool :=
  match s.dropWhile isCaseIgnorable with
  | [] => false
  | c :: _ => isCased c

/-- Whether a capital sigma ends a word, given the reversed text before it and the text after. -/
def endsWord (before after : List Char) : Bool := startsCased before && !startsCased after

def lowerAfter (before : List Char) : List Char → List Char
  | [] => []
  | 'Σ' :: r => (if endsWord before r then 'ς' else 'σ') :: lowerAfter ('Σ' :: before) r
  | c :: r => lowerChar c ++ lowerAfter (c :: before) r

def lowercase (s : String) : String := String.ofList (lowerAfter [] s.toList)

end SuitePlan
