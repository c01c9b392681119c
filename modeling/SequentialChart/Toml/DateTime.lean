/-!
# Dates and times

A data file may hold a date, a time of day, or both, with a distance to universal time or without
one. It has to be well-formed.

## Main definitions

* `Toml.dropDate?`, `Toml.dropTime?`, `Toml.dropZone?` — what follows such a part.
* `Toml.isDateTime`.
-/

namespace SequentialChart.Toml

/-- The number that exactly `n` digits denote, and what follows them. -/
def takeNumber? (n : Nat) (s : List Char) : Option (Nat × List Char) :=
  let digits := s.take n
  if digits.length = n ∧ digits.all Char.isDigit then
    some (digits.foldl (fun v c => 10 * v + (c.toNat - '0'.toNat)) 0, s.drop n)
  else none

def dropChar? (c : Char) : List Char → Option (List Char)
  | d :: s => if d = c then some s else none
  | [] => none

def isLeapYear (year : Nat) : Bool := year % 4 = 0 && (year % 100 ≠ 0 || year % 400 = 0)

/-- The number of days of a month; there are none in a month that does not exist. -/
def daysInMonth (year month : Nat) : Nat :=
  if month = 2 then if isLeapYear year then 29 else 28
  else if month ∈ [4, 6, 9, 11] then 30
  else if 1 ≤ month ∧ month ≤ 12 then 31
  else 0

/-- What follows a date such as `1979-05-27`. -/
def dropDate? (s : List Char) : Option (List Char) := do
  let (year, s) ← takeNumber? 4 s
  let (month, s) ← takeNumber? 2 (← dropChar? '-' s)
  let (day, s) ← takeNumber? 2 (← dropChar? '-' s)
  if 1 ≤ day ∧ day ≤ daysInMonth year month then some s else none

def dropMinute? (s : List Char) : Option (List Char) := do
  let (hour, s) ← takeNumber? 2 s
  let (minute, s) ← takeNumber? 2 (← dropChar? ':' s)
  if hour ≤ 23 ∧ minute ≤ 59 then some s else none

/-- What follows a time of day such as `07:32`, `07:32:00` or `07:32:00.25`. A minute may have a
leap second. -/
def dropTime? (s : List Char) : Option (List Char) := do
  match ← dropMinute? s with
  | ':' :: s =>
    let (second, s) ← takeNumber? 2 s
    if second ≤ 60 then
      match s with
      | '.' :: s =>
        let (_, s) ← takeNumber? 1 s
        some (s.dropWhile Char.isDigit)
      | s => some s
    else none
  | s => some s

/-- What follows a distance to universal time such as `Z` or `-07:00`. -/
def dropZone? : List Char → Option (List Char)
  | c :: s =>
    if c = 'Z' ∨ c = 'z' then some s
    else if c = '+' ∨ c = '-' then dropMinute? s
    else none
  | [] => none

/-- A date, a time of day, or a date and a time with `T` or a blank between them, which may be
followed by the distance to universal time. -/
def isDateTime (s : List Char) : Bool :=
  match dropDate? s with
  | none => dropTime? s = some []
  | some [] => true
  | some (c :: s) =>
    (c = 'T' || c = 't' || c = ' ') &&
      match dropTime? s with
      | none => false
      | some [] => true
      | some s => dropZone? s = some []

end SequentialChart.Toml
