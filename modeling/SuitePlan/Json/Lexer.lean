import SuitePlan.Decimal.Stepwise
import SuitePlan.Json.Basic

/-! Cutting a JSON text into lexemes. -/

namespace SuitePlan

def hexValue? (c : Char) : Option Nat :=
  if c.isDigit then some (digitValue c)
  else if 'a' ≤ c ∧ c ≤ 'f' then some (c.toNat - 'a'.toNat + 10)
  else if 'A' ≤ c ∧ c ≤ 'F' then some (c.toNat - 'A'.toNat + 10)
  else none

namespace Lexeme

def isHighSurrogate (u : Nat) : Bool := 0xd800 ≤ u && u < 0xdc00

def isLowSurrogate (u : Nat) : Bool := 0xdc00 ≤ u && u < 0xe000

/-- The part of a string that has been read: its characters in reverse, `none` once half a
surrogate pair was left over, and a high surrogate that still lacks its other half. -/
structure Scanned where
  chars : Option (List Char) := some []
  high : Option Nat := none

namespace Scanned

def push (s : Scanned) (c : Char) : Scanned :=
  ⟨if s.high.isSome then none else s.chars.map (c :: ·), none⟩

/-- Takes in a 16-bit code unit from an escape. -/
def pushUnit (s : Scanned) (u : Nat) : Scanned :=
  match s.high with
  | some h =>
    if isLowSurrogate u then
      ⟨s.chars.map (Char.ofNat (0x10000 + (h - 0xd800) * 0x400 + (u - 0xdc00)) :: ·), none⟩
    else ⟨none, none⟩
  | none =>
    if isHighSurrogate u then ⟨s.chars, some u⟩
    else if isLowSurrogate u then ⟨none, none⟩
    else s.push (Char.ofNat u)

def finish (s : Scanned) : Option String :=
  if s.high.isSome then none else s.chars.map fun cs => String.ofList cs.reverse

end Scanned

/-- Where the scan of a string stands: between characters, after a backslash, or inside a `\u`
escape with some digits to come. -/
inductive Place where
  | between
  | escape
  | hex (left value : Nat)

def escapedChar? : Char → Option Char
  | '"' => some '"'
  | '\\' => some '\\'
  | '/' => some '/'
  | 'b' => some '\x08'
  | 'f' => some '\x0c'
  | 'n' => some '\n'
  | 'r' => some '\r'
  | 't' => some '\t'
  | _ => none

/-- Reads a string up to its closing quote. Control characters may only stand in escapes. -/
def scanString (place : Place) (s : Scanned) : List Char → Option (Option String × List Char)
  | [] => none
  | c :: r =>
    match place with
    | .between =>
      if c = '"' then some (s.finish, r)
      else if c = '\\' then scanString .escape s r
      else if c < ' ' then none
      else scanString .between (s.push c) r
    | .escape =>
      if c = 'u' then scanString (.hex 3 0) s r
      else
        match escapedChar? c with
        | none => none
        | some e => scanString .between (s.push e) r
    | .hex left value =>
      match hexValue? c with
      | none => none
      | some d =>
        if left = 0 then scanString .between (s.pushUnit (16 * value + d)) r
        else scanString (.hex (left - 1) (16 * value + d)) s r

/-- A run of digits after a mark. The mark is optional, the digits after it are not. -/
def scanFraction : List Char → Option (List Char × List Char)
  | '.' :: r =>
    let ds := r.takeWhile Char.isDigit
    if ds.isEmpty then none else some (ds, r.dropWhile Char.isDigit)
  | s => some ([], s)

def scanExponentDigits (negative : Bool) (s : List Char) : Option (Option Int × List Char) :=
  let ds := s.takeWhile Char.isDigit
  if ds.isEmpty then none
  else
    let n : Int := decimalValue ds
    some (some (if negative then -n else n), s.dropWhile Char.isDigit)

def scanExponent : List Char → Option (Option Int × List Char)
  | c :: s =>
    if c = 'e' ∨ c = 'E' then
      match s with
      | '+' :: r => scanExponentDigits false r
      | '-' :: r => scanExponentDigits true r
      | r => scanExponentDigits false r
    else some (none, c :: s)
  | [] => some (none, [])

/-- Reads a number without its sign. A leading zero stands alone before the point. -/
def scanNumber (negative : Bool) (s : List Char) : Option (Numeral × List Char) := do
  let whole := s.takeWhile Char.isDigit
  if whole.isEmpty ∨ (whole.head? = some '0' ∧ 1 < whole.length) then none
  else
    let (fraction, r) ← scanFraction (s.dropWhile Char.isDigit)
    let (exponent, r) ← scanExponent r
    some (Numeral.ofDigits negative whole fraction exponent, r)

def scanWord (word : String) (l : Lexeme) (s : List Char) : Option (Lexeme × List Char) :=
  if word.toList.isPrefixOf s then some (l, s.drop word.length) else none

/-- The lexeme at the start of a text, and what follows it. -/
def scan : List Char → Option (Lexeme × List Char)
  | [] => none
  | '[' :: r => some (openArray, r)
  | ']' :: r => some (closeArray, r)
  | '{' :: r => some (openObject, r)
  | '}' :: r => some (closeObject, r)
  | ',' :: r => some (comma, r)
  | ':' :: r => some (colon, r)
  | '"' :: r => (scanString .between {} r).map fun (s, r) => (string s, r)
  | '-' :: r => (scanNumber true r).map fun (n, r) => (number n, r)
  | 'n' :: r => scanWord "ull" null r
  | 't' :: r => scanWord "rue" (boolean true) r
  | 'f' :: r => scanWord "alse" (boolean false) r
  | s => (scanNumber false s).map fun (n, r) => (number n, r)

def isGap (c : Char) : Bool := c = ' ' || c = '\n' || c = '\t' || c = '\r'

/-- All lexemes of a text. The blanks between them are spaces, tabs and line ends. -/
def scanAll (s : List Char) : Option (List Lexeme) :=
  match s.dropWhile isGap with
  | [] => some []
  | c :: r =>
    match scan (c :: r) with
    | none => none
    | some (l, rest) =>
      if rest.length < s.length then (scanAll rest).map (l :: ·) else none
termination_by s.length

end Lexeme

end SuitePlan
