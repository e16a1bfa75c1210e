import Homoicon.Bits

/-!
# Calendar

Conversion between days counted from 1 January 1970 and dates of the Gregorian calendar, extended
to all years.  A year is taken to begin in March, so that the leap day is its last day; 400 years
are a cycle of 146097 days.
-/

namespace Homoicon.Calendar

/-- Days of a year that begins in March before a month, where March is 0. -/
def daysBeforeMonth (month : Int) : Int := (153 * month + 2) / 5

/-- Days from 1 January 1970 to a date. -/
def daysFromCivil (year month day : Int) : Int :=
  let marchYear := if month ≤ 2 then year - 1 else year
  let cycle := marchYear / 400
  let yearOfCycle := marchYear - cycle * 400
  let dayOfYear := daysBeforeMonth (if 2 < month then month - 3 else month + 9) + day - 1
  let dayOfCycle := yearOfCycle * 365 + yearOfCycle / 4 - yearOfCycle / 100 + dayOfYear
  cycle * 146097 + dayOfCycle - 719468

/-- Days from 1 March of the year 0 to a day given from 1 January 1970. -/
def fromMarch (days : Int) : Int := days + 719468

/-- Whether the date some days after 1 January 1970 can be reckoned in 64 bits. -/
def isReckoned (days : Int) : Bool :=
  Bits.fits64 (fromMarch days) && (0 ≤ fromMarch days || Bits.fits64 (fromMarch days - 146096))

/-- Year, month and day of the date that lies some days after 1 January 1970.  A year wraps around
beyond 32 bits. -/
def civilFromDays (days : Int) : Int × Int × Int :=
  let shifted := fromMarch days
  let cycle := (if 0 ≤ shifted then shifted else shifted - 146096).tdiv 146097
  let dayOfCycle := shifted - cycle * 146097
  let yearOfCycle :=
    (dayOfCycle - dayOfCycle / 1460 + dayOfCycle / 36524 - dayOfCycle / 146096) / 365
  let dayOfYear := dayOfCycle - (365 * yearOfCycle + yearOfCycle / 4 - yearOfCycle / 100)
  let marchMonth := (5 * dayOfYear + 2) / 153
  let day := dayOfYear - daysBeforeMonth marchMonth + 1
  let month := if marchMonth < 10 then marchMonth + 3 else marchMonth - 9
  let year := yearOfCycle + cycle * 400 + (if month ≤ 2 then 1 else 0)
  (Bits.wrap32 year, month, day)

/-- The English names of the months. -/
def monthNames : List String :=
  ["Jan", "Feb", "Mar", "Apr", "May", "Jun", "Jul", "Aug", "Sep", "Oct", "Nov", "Dec"]

end Homoicon.Calendar
