/-! # The calendar

An instant is a number of seconds since the beginning of 1970, and a zone is an offset from
universal time. Together they have a date of the Gregorian calendar, which is carried on from 1582
in both directions, and an hour. The calendar reaches from the year -262143 to the year 262142;
there is no instant with a date before or after that.

The date is found by counting days from the first of March of the year 0. There the leap day ends
the year, and 400 years always have the same number of days.
-/

namespace DeviceLog

structure Date where
  year : Int
  month : Nat
  day : Nat
  deriving DecidableEq, Repr

namespace Date

def daysOfCycle : Nat := 146097

/-- How many days the first of March of the year 0 is before the first of January 1970. -/
def daysBefore1970 : Int := 719468

/-- The whole years before a day of a cycle. Of the days so far the leap days are taken off: one in
every 1461 days, but not in every 36524, but again in the last day of a cycle. -/
def yearOfCycle (day : Nat) : Nat := (day - day / 1460 + day / 36524 - day / 146096) / 365

/-- The days of a cycle before a year of it. -/
def daysBeforeYear (year : Nat) : Nat := 365 * year + year / 4 - year / 100

/-- The months before a day of a year that begins in March. -/
def monthOfDay (day : Nat) : Nat := (5 * day + 2) / 153

/-- The days before a month of a year that begins in March. -/
def daysBeforeMonth (month : Nat) : Nat := (153 * month + 2) / 5

/-- The date of a day, by its distance from the first of January 1970. -/
def ofDay (day : Int) : Date :=
  let fromStart := day + daysBefore1970
  let cycle := fromStart / daysOfCycle
  let dayOfCycle := (fromStart % daysOfCycle).toNat
  let year := yearOfCycle dayOfCycle
  let dayOfYear := dayOfCycle - daysBeforeYear year
  let month := monthOfDay dayOfYear
  -- Years begin in March here, so the last two months belong to the next one.
  { year := cycle * 400 + year + (if month < 10 then 0 else 1)
    month := if month < 10 then month + 3 else month - 9
    day := dayOfYear - daysBeforeMonth month + 1 }

/-- What clocks show when the calendar begins, in seconds since the beginning of 1970. -/
def firstSecond : Int := -8334601228800

/-- What clocks show just before the calendar ends. -/
def lastSecond : Int := 8210266876799

/-- Clocks that show so many seconds since the beginning of 1970 show a date of the calendar. -/
def IsShown (seconds : Int) : Prop := firstSecond ≤ seconds ∧ seconds ≤ lastSecond

instance (seconds : Int) : Decidable (IsShown seconds) :=
  inferInstanceAs (Decidable (firstSecond ≤ seconds ∧ seconds ≤ lastSecond))

/-- A number with zeros in front, up to a width. -/
def padded (width n : Nat) : String :=
  let digits := toString n
  String.ofList (List.replicate (width - digits.length) '0') ++ digits

/-- A year of four digits; a year that has more, or is before the year 0, has a sign. -/
def yearText (year : Int) : String :=
  if 0 ≤ year ∧ year ≤ 9999 then padded 4 year.toNat
  else if 0 ≤ year then "+" ++ padded 4 year.toNat
  else "-" ++ padded 4 year.natAbs

/-- Year, month and day, with dashes between them. -/
def text (d : Date) : String :=
  yearText d.year ++ "-" ++ padded 2 d.month ++ "-" ++ padded 2 d.day

end Date

/-- A moment as the clocks of a zone show it. -/
structure Instant where
  /-- Seconds since the beginning of 1970 in universal time. -/
  seconds : Int
  /-- How many seconds the zone is ahead of universal time. -/
  offset : Int
  /-- Zones differ from universal time by less than a day. -/
  offset_lt : offset.natAbs < 86400
  /-- The moment has a date in universal time. -/
  isShown : Date.IsShown seconds
  /-- The moment has a date in the zone. -/
  isShown_local : Date.IsShown (seconds + offset)
  deriving DecidableEq

namespace Instant

/-- The moment of so many seconds in the zone of an offset, if there is one. -/
def of? (seconds offset : Int) : Option Instant :=
  if h : offset.natAbs < 86400 ∧ Date.IsShown seconds ∧ Date.IsShown (seconds + offset) then
    some ⟨seconds, offset, h.1, h.2.1, h.2.2⟩
  else none

/-- Seconds since the beginning of 1970 on the clocks of the zone. -/
def localSeconds (i : Instant) : Int := i.seconds + i.offset

/-- Hours since the beginning of 1970 on the clocks of the zone. -/
def localHours (i : Instant) : Int := i.localSeconds / 3600

def date (i : Instant) : Date := .ofDay (i.localHours / 24)

def hour (i : Instant) : Nat := (i.localHours % 24).toNat

end Instant

end DeviceLog
