import SuitePlan.Decimal.Numeral
import SuitePlan.Text.Blank
import SuitePlan.Time.Calendar

/-! Times as texts such as `2024-01-02T03:04:05.120Z`. -/

namespace SuitePlan

namespace Time

/-- A number with at least `width` digits. -/
def padded (width n : Nat) : List Char :=
  let ds := Nat.toDigits 10 n
  List.replicate (width - ds.length) '0' ++ ds

/-- Years of more than four digits and years before the year 0 have a sign. -/
def yearText (y : Int) : List Char :=
  if 0 ≤ y ∧ y ≤ 9999 then padded 4 y.toNat
  else (if y < 0 then '-' else '+') :: padded 4 y.natAbs

/-- The fraction of a second in 0, 3, 6 or 9 digits, the fewest that are exact. -/
def fractionText (nano : Nat) : List Char :=
  if nano = 0 then []
  else if nano % 1000000 = 0 then '.' :: padded 3 (nano / 1000000)
  else if nano % 1000 = 0 then '.' :: padded 6 (nano / 1000)
  else '.' :: padded 9 nano

def render (t : Time) : List Char :=
  yearText t.date.year ++ '-' :: padded 2 t.date.month ++ '-' :: padded 2 t.date.day ++
    'T' :: padded 2 t.hour ++ ':' :: padded 2 t.minute ++ ':' :: padded 2 t.second ++
    fractionText t.nano ++ ['Z']

def text (t : Time) : String := String.ofList t.render

/-- A number of at most `width` digits, with blanks before it. -/
def scanNumber (width : Nat) (s : List Char) : Option (Nat × List Char) :=
  let t := trimStart s
  let ds := (t.take width).takeWhile Char.isDigit
  if ds.isEmpty then none else some (decimalValue ds, t.drop ds.length)

/-- A year, of four digits at most unless it has a sign. -/
def scanYear (s : List Char) : Option (Int × List Char) :=
  match trimStart s with
  | '-' :: r => signed (-1) r
  | '+' :: r => signed 1 r
  | t => (scanNumber 4 t).map fun (n, t) => ((n : Int), t)
where
  signed (sign : Int) (r : List Char) : Option (Int × List Char) :=
    if (r.head?.map Char.isDigit).getD false then
      (scanNumber r.length r).map fun (n, t) => (sign * n, t)
    else none

/-- A mark with blanks before it. -/
def scanMark (c : Char) (s : List Char) : Option (List Char) :=
  match trimStart s with
  | d :: r => if d = c then some r else none
  | [] => none

/-- The separator between date and time. -/
def scanSeparator : List Char → Option (List Char)
  | c :: r => if c = 'T' ∨ c = 't' ∨ c = ' ' then some r else none
  | [] => none

/-- A fraction of a second in nanoseconds. Digits after the ninth are dropped. -/
def scanNanos : List Char → Option (Nat × List Char)
  | '.' :: r =>
    let ds := r.takeWhile Char.isDigit
    if ds.isEmpty then none
    else
      let kept := ds.take 9
      some (decimalValue kept * powerOfTen (9 - kept.length), r.dropWhile Char.isDigit)
  | s => some (0, s)

def twoDigits : List Char → Option (Nat × List Char)
  | a :: b :: r =>
    if a.isDigit && b.isDigit then some (10 * digitValue a + digitValue b, r) else none
  | _ => none

/-- An offset from UTC in minutes: `Z`, `UTC`, or hours and minutes with a sign. -/
def scanOffset (s : List Char) : Option (Int × List Char) :=
  if (s.take 3).map Char.toLower = ['u', 't', 'c'] then some (0, s.drop 3)
  else
    match s with
    | 'Z' :: r => some (0, r)
    | 'z' :: r => some (0, r)
    | '+' :: r => scanHours 1 r
    | '-' :: r => scanHours (-1) r
    | '−' :: r => scanHours (-1) r
    | _ => none
where
  scanHours (sign : Int) (r : List Char) : Option (Int × List Char) := do
    let (h, r) ← twoDigits r
    let (m, r) ← twoDigits (r.dropWhile fun c => c = ':' || isBlank c)
    if m < 60 then some (sign * (60 * h + m : Nat), r) else none

/-- The date and the time of day as they are written, whether or not there is such a day. -/
def scanLocal (s : List Char) : Option (Time × List Char) := do
  let (year, s) ← scanYear s
  let s ← scanMark '-' s
  let (month, s) ← scanNumber 2 s
  let s ← scanMark '-' s
  let (day, s) ← scanNumber 2 s
  let s ← scanSeparator s
  let (hour, s) ← scanNumber 2 s
  let s ← scanMark ':' s
  let (minute, s) ← scanNumber 2 s
  let s ← scanMark ':' s
  let (second, s) ← scanNumber 2 s
  let (nano, s) ← scanNanos s
  some (⟨⟨year, month, day⟩, hour, minute, second, nano⟩, s)

def isValid (t : Time) : Bool :=
  t.date.isValid && t.hour < 24 && t.minute < 60 && t.second ≤ 60

/-- Reads a time with its offset from UTC. Blanks may stand between the parts. -/
def ofChars? (s : List Char) : Option Time := do
  let (t, s) ← scanLocal s
  let (offset, s) ← scanOffset (trimStart s)
  let u := t.minusMinutes offset
  if t.isValid && offset.natAbs < 1440 && s.all isBlank && Date.inRange u.date.year then some u
  else none

def ofText? (s : String) : Option Time := ofChars? s.toList

end Time

end SuitePlan
