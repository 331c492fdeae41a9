import QueryDomain.Text.Basic

/-! Days of the proleptic Gregorian calendar and times of day. Both carry the proof that they exist,
and both have an integer key that grows with time. -/
namespace QueryDomain

namespace Calendar

def isLeapYear (year : Int) : Bool :=
  year % 4 == 0 && (year % 100 != 0 || year % 400 == 0)

def daysInMonth (year : Int) (month : Nat) : Nat :=
  if month = 2 then (if isLeapYear year then 29 else 28)
  else if month = 4 ∨ month = 6 ∨ month = 9 ∨ month = 11 then 30
  else 31

def firstYear : Int := -262143

def lastYear : Int := 262142

def isDate (year : Int) (month day : Nat) : Bool :=
  firstYear ≤ year && year ≤ lastYear && 1 ≤ month && month ≤ 12 &&
    1 ≤ day && day ≤ daysInMonth year month

def nanosPerSecond : Nat := 1000000000

/-- A leap second is second 59 with a whole second or more of nanoseconds. -/
def isTime (hour minute second nanosecond : Nat) : Bool :=
  hour < 24 && minute < 60 && second < 60 &&
    (nanosecond < nanosPerSecond || (second == 59 && nanosecond < 2 * nanosPerSecond))

end Calendar

open Calendar

structure Date where
  year : Int
  month : Nat
  day : Nat
  exists_day : isDate year month day = true
  deriving DecidableEq, Repr

namespace Date

def of? (year : Int) (month day : Nat) : Option Date :=
  if h : isDate year month day = true then some ⟨year, month, day, h⟩ else none

theorem of?_self (d : Date) : of? d.year d.month d.day = some d := by
  simp [of?, d.exists_day]

def key (d : Date) : Int := (d.year * 16 + d.month) * 32 + d.day

def next? (d : Date) : Option Date :=
  if d.day < daysInMonth d.year d.month then of? d.year d.month (d.day + 1)
  else if d.month < 12 then of? d.year (d.month + 1) 1
  else of? (d.year + 1) 1 1

def previous? (d : Date) : Option Date :=
  if 1 < d.day then of? d.year d.month (d.day - 1)
  else if 1 < d.month then of? d.year (d.month - 1) (daysInMonth d.year (d.month - 1))
  else of? (d.year - 1) 12 31

/-- Years of four digits stand alone; all others have a sign and at least four digits. -/
def yearText (year : Int) : String :=
  if 0 ≤ year ∧ year ≤ 9999 then Text.zeroPadded 4 year.toNat
  else (if year < 0 then "-" else "+") ++ Text.zeroPadded 4 year.natAbs

def text (d : Date) : String :=
  yearText d.year ++ "-" ++ Text.zeroPadded 2 d.month ++ "-" ++ Text.zeroPadded 2 d.day

end Date

structure TimeOfDay where
  hour : Nat
  minute : Nat
  second : Nat
  nanosecond : Nat
  exists_time : isTime hour minute second nanosecond = true
  deriving DecidableEq, Repr

namespace TimeOfDay

def of? (hour minute second nanosecond : Nat) : Option TimeOfDay :=
  if h : isTime hour minute second nanosecond = true then
    some ⟨hour, minute, second, nanosecond, h⟩
  else none

def midnight : TimeOfDay := ⟨0, 0, 0, 0, by decide⟩

/-- Seconds are counted to 60 here, where the last one is the leap second. -/
def ofClock? (hour minute second nanosecond : Nat) : Option TimeOfDay :=
  if second = 60 then of? hour minute 59 (nanosecond + nanosPerSecond)
  else of? hour minute second nanosecond

def key (t : TimeOfDay) : Int :=
  (((t.hour * 60 + t.minute) * 60 + t.second) * (2 * nanosPerSecond) + t.nanosecond : Nat)

def text (t : TimeOfDay) : String :=
  Text.zeroPadded 2 t.hour ++ ":" ++ Text.zeroPadded 2 t.minute ++ ":" ++
    Text.zeroPadded 2 (t.second + t.nanosecond / nanosPerSecond)

end TimeOfDay

structure Timestamp where
  date : Date
  time : TimeOfDay
  deriving DecidableEq, Repr

namespace Timestamp

def key (t : Timestamp) : Int :=
  t.date.key * (86400 * (2 * nanosPerSecond) : Nat) + t.time.key

def text (t : Timestamp) : String := t.date.text ++ " " ++ t.time.text

def startOf (d : Date) : Timestamp := ⟨d, .midnight⟩

def startOfNext? (d : Date) : Option Timestamp := d.next?.map startOf

def minusMinutes? (t : Timestamp) (minutes : Int) : Option Timestamp := do
  let total : Int := (t.time.hour * 60 + t.time.minute : Nat) - minutes
  let date ←
    if total < 0 then t.date.previous?
    else if 1440 ≤ total then t.date.next?
    else some t.date
  let inDay := (total % 1440).toNat
  let time ← TimeOfDay.of? (inDay / 60) (inDay % 60) t.time.second t.time.nanosecond
  return ⟨date, time⟩

end Timestamp

end QueryDomain
