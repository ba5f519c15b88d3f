import SuitePlan.Text.Blank

/-! The tokens of a tag expression. -/

namespace SuitePlan

/-- A parenthesis or a word, with the blanks before it and the byte offset of its text. -/
structure Token where
  gap : List Char
  start : Nat
  text : List Char
deriving DecidableEq, Repr

inductive TokenKind where
  | opening
  | closing
  | and
  | or
  | not
  | word
deriving DecidableEq, Repr

def isParen (c : Char) : Bool := c = '(' || c = ')'

def isWordChar (c : Char) : Bool := !isBlank c && !isParen c

/-- The operators `and` and `or` may be written in any case, `not` only in lower case. -/
def TokenKind.ofText (s : List Char) : TokenKind :=
  if s = ['('] then opening
  else if s = [')'] then closing
  else if s.map Char.toLower = ['a', 'n', 'd'] then and
  else if s.map Char.toLower = ['o', 'r'] then or
  else if s = ['n', 'o', 't'] then not
  else word

/-- The number of bytes of a text in UTF-8. -/
def byteSize : List Char → Nat
  | [] => 0
  | c :: s => c.utf8Size + byteSize s

namespace Token

def kind (t : Token) : TokenKind := .ofText t.text

def content (t : Token) : String := String.ofList t.text

/-- The tokens of a text that begins at byte `start` of the whole. -/
def scan (start : Nat) (s : List Char) : List Token :=
  let gap := s.takeWhile isBlank
  let here := start + byteSize gap
  match _h : s.dropWhile isBlank with
  | [] => []
  | c :: r =>
    if isParen c then ⟨gap, here, [c]⟩ :: scan (here + c.utf8Size) r
    else
      let text := c :: r.takeWhile isWordChar
      ⟨gap, here, text⟩ :: scan (here + byteSize text) (r.dropWhile isWordChar)
termination_by s.length
decreasing_by
  all_goals
    have hs := (List.dropWhile_sublist isBlank (l := s)).length_le
    rw [_h, List.length_cons] at hs
  · exact hs
  · have hr := (List.dropWhile_sublist isWordChar (l := r)).length_le
    omega

end Token

def tokensOf (s : List Char) : List Token := Token.scan 0 s

end SuitePlan
