import Interleave.Text.Basic

set_option autoImplicit false

namespace Interleave.Text

def isLeapYear (year : Nat) : Bool := year % 4 = 0 && (year % 100 ≠ 0 || year % 400 = 0)

def daysOfYear (year : Nat) : Nat := if isLeapYear year then 366 else 365

def monthLengths (year : Nat) : List Nat :=
  [31, if isLeapYear year then 29 else 28, 31, 30, 31, 30, 31, 31, 30, 31, 30, 31]

def yearOf (year : Nat) : Nat → Nat → Nat × Nat
  | 0, days => (year, days)
  | fuel + 1, days =>
    if days < daysOfYear year then (year, days)
    else yearOf (year + 1) fuel (days - daysOfYear year)

def monthOf (month : Nat) : List Nat → Nat → Nat × Nat
  | [], days => (month, days + 1)
  | length :: rest, days =>
    if days < length then (month, days + 1) else monthOf (month + 1) rest (days - length)

def timeText (seconds : Nat) : String :=
  let days := seconds / 86400
  let (year, dayOfYear) := yearOf 1970 (days / 365 + 1) days
  let (month, day) := monthOf 1 (monthLengths year) dayOfYear
  let rest := seconds % 86400
  padded 4 year ++ "-" ++ padded 2 month ++ "-" ++ padded 2 day ++ "T"
    ++ padded 2 (rest / 3600) ++ ":" ++ padded 2 (rest / 60 % 60) ++ ":" ++ padded 2 (rest % 60)
    ++ "Z"

end Interleave.Text
