/-!
# Dates and moments

Calendar dates of the years 1 to 9999, and moments with an optional offset from
universal time, counted in minutes. Numbers that name no date or moment are
refused with the first limit that they break.
-/

set_option autoImplicit false

namespace SqlMigration

structure Date where
  year : Nat
  month : Nat
  day : Nat
  deriving DecidableEq, Repr

structure Moment where
  date : Date
  hour : Nat
  minute : Nat
  second : Nat
  micro : Nat
  offset : Option Int
  deriving DecidableEq, Repr

namespace Calendar

inductive Fault where
  | year (n : Nat)
  | month
  | day
  | hour
  | minute
  | second
  | offset (minutes : Int)
  deriving DecidableEq, Repr

def isLeap (year : Nat) : Bool := year % 4 = 0 && (year % 100 ≠ 0 || year % 400 = 0)

def daysInMonth (year month : Nat) : Nat :=
  if month = 2 then (if isLeap year then 29 else 28)
  else if month = 4 ∨ month = 6 ∨ month = 9 ∨ month = 11 then 30
  else 31

def dateFault? (d : Date) : Option Fault :=
  if d.year < 1 ∨ 9999 < d.year then some (.year d.year)
  else if d.month < 1 ∨ 12 < d.month then some .month
  else if d.day < 1 ∨ daysInMonth d.year d.month < d.day then some .day
  else none

/-- The offset is looked at first, then the date, then the time of the day. -/
def momentFault? (m : Moment) : Option Fault :=
  match m.offset.filter (fun o => 1440 ≤ o.natAbs) with
  | some o => some (.offset o)
  | none =>
    match dateFault? m.date with
    | some f => some f
    | none =>
      if 23 < m.hour then some .hour
      else if 59 < m.minute then some .minute
      else if 59 < m.second then some .second
      else none

def spanText (minutes : Int) : String :=
  let days := minutes.fdiv 1440
  let seconds := (minutes.fmod 1440) * 60
  let parts := (if days = 0 then [] else ["days=" ++ toString days]) ++
    (if seconds = 0 then [] else ["seconds=" ++ toString seconds])
  "datetime.timedelta(" ++ (if parts.isEmpty then "0" else ", ".intercalate parts) ++ ")"

def Fault.message : Fault → String
  | .year n => "year " ++ toString n ++ " is out of range"
  | .month => "month must be in 1..12"
  | .day => "day is out of range for month"
  | .hour => "hour must be in 0..23"
  | .minute => "minute must be in 0..59"
  | .second => "second must be in 0..59"
  | .offset minutes =>
    "offset must be a timedelta strictly between -timedelta(hours=24) and timedelta(hours=24), not "
      ++ spanText minutes ++ "."

def padded (width n : Nat) : String :=
  let digits := Nat.toDigits 10 n
  String.ofList (List.replicate (width - digits.length) '0' ++ digits)

end Calendar

open Calendar

namespace Date

def text (d : Date) : String := padded 4 d.year ++ "-" ++ padded 2 d.month ++ "-" ++ padded 2 d.day

def numbers (d : Date) : List Nat := [d.year, d.month, d.day]

def literal (d : Date) : String :=
  "datetime.date(" ++ ", ".intercalate (d.numbers.map toString) ++ ")"

/-- Days from the first day of year zero of the extended calendar. -/
def ordinal (d : Date) : Int :=
  let y := d.year - 1
  let months := (List.range (d.month - 1)).map (fun m => daysInMonth d.year (m + 1))
  (365 * y + y / 4 - y / 100 + y / 400 + months.foldl (· + ·) 0 + d.day : Nat)

end Date

namespace Moment

def offsetText (minutes : Int) : String :=
  let n := minutes.natAbs
  (if minutes < 0 then "-" else "+") ++ padded 2 (n / 60) ++ ":" ++ padded 2 (n % 60)

def text (m : Moment) : String :=
  let micro := if m.micro = 0 then "" else "." ++ padded 6 m.micro
  m.date.text ++ " " ++ padded 2 m.hour ++ ":" ++ padded 2 m.minute ++ ":" ++ padded 2 m.second
    ++ micro ++ (m.offset.map offsetText).getD ""

/-- Trailing zero seconds and microseconds are left out. -/
def literal (m : Moment) : String :=
  let fine := if m.micro ≠ 0 then [m.second, m.micro] else if m.second ≠ 0 then [m.second] else []
  let numbers := (m.date.numbers ++ [m.hour, m.minute] ++ fine).map toString
  let zone := match m.offset with
    | none => []
    | some minutes =>
      if minutes = 0 then ["tzinfo=datetime.timezone.utc"]
      else ["tzinfo=datetime.timezone(" ++ spanText minutes ++ ")"]
  "datetime.datetime(" ++ ", ".intercalate (numbers ++ zone) ++ ")"

def microseconds (m : Moment) : Int :=
  (((m.date.ordinal * 24 + m.hour) * 60 + m.minute) * 60 + m.second) * 1000000 + m.micro

/-- Moments with offsets are the same when they are at the same time; one without is never one with. -/
def same (a b : Moment) : Bool :=
  match a.offset, b.offset with
  | none, none => a.microseconds = b.microseconds
  | some x, some y => a.microseconds - x * 60000000 = b.microseconds - y * 60000000
  | _, _ => false

end Moment

end SqlMigration
