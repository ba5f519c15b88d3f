/-! Points of time in UTC, as dates of the Gregorian calendar and times of day. -/

namespace SuitePlan

structure Date where
  year : Int
  month : Nat
  day : Nat
deriving DecidableEq, Repr

/-- A point of time. In a leap second the second is 60. -/
structure Time where
  date : Date
  hour : Nat
  minute : Nat
  second : Nat
  nano : Nat
deriving DecidableEq, Repr

namespace Date

def isLeap (year : Int) : Bool := year % 4 = 0 && (year % 100 ≠ 0 || year % 400 = 0)

def monthLength (year : Int) (month : Nat) : Nat :=
  if month = 2 then (if isLeap year then 29 else 28)
  else if month = 4 ∨ month = 6 ∨ month = 9 ∨ month = 11 then 30
  else 31

/-- The range of years that times are given in. -/
def inRange (year : Int) : Bool := -262143 ≤ year && year ≤ 262142

def isValid (d : Date) : Bool :=
  inRange d.year && 1 ≤ d.month && d.month ≤ 12 && 1 ≤ d.day && d.day ≤ monthLength d.year d.month

def next (d : Date) : Date :=
  if d.day < monthLength d.year d.month then { d with day := d.day + 1 }
  else if d.month < 12 then ⟨d.year, d.month + 1, 1⟩
  else ⟨d.year + 1, 1, 1⟩

def previous (d : Date) : Date :=
  if 1 < d.day then { d with day := d.day - 1 }
  else if 1 < d.month then ⟨d.year, d.month - 1, monthLength d.year (d.month - 1)⟩
  else ⟨d.year - 1, 12, 31⟩

/-- The date a number of days after the first of March of the year 0. Years that begin in March
have their leap day at the end. -/
def ofMarchDays (days : Int) : Date :=
  let era := days / 146097
  let n := (days % 146097).toNat
  let yearOfEra := (n - n / 1460 + n / 36524 - n / 146096) / 365
  let dayOfYear := n - (365 * yearOfEra + yearOfEra / 4 - yearOfEra / 100)
  let m := (5 * dayOfYear + 2) / 153
  let day := dayOfYear - (153 * m + 2) / 5 + 1
  let year := era * 400 + yearOfEra
  if m < 10 then ⟨year, m + 3, day⟩ else ⟨year + 1, m - 9, day⟩

end Date

namespace Time

/-- The time a number of minutes earlier, less than a day before or after. -/
def minusMinutes (t : Time) (minutes : Int) : Time :=
  let m : Int := 60 * t.hour + t.minute - minutes
  let date := if m < 0 then t.date.previous else if 1440 ≤ m then t.date.next else t.date
  let n := (m % 1440).toNat
  { t with date := date, hour := n / 60, minute := n % 60 }

/-- The time a number of seconds after the beginning of 1970. -/
def ofEpoch (seconds : Int) (nano : Nat) : Time :=
  let n := (seconds % 86400).toNat
  ⟨Date.ofMarchDays (seconds / 86400 + 719468), n / 3600, n / 60 % 60, n % 60, nano⟩

end Time

end SuitePlan
