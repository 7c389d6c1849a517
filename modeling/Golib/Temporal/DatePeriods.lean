import Golib.Temporal.Limits

/-! Civil dates and the periods between them. The days of a period are those of its closed range of
included dates. -/
namespace Golib.Temporal.DatePeriod

/-- The number of the last date, 9999-12-31. -/
def maxOrdinal : Int := 3652058

/-- A valid date, by its number of days after 0001-01-01. -/
@[ext]
structure Date where
  ordinal : Int
  valid : 0 ≤ ordinal ∧ ordinal ≤ maxOrdinal
  deriving DecidableEq

instance : LinearOrder Date :=
  @LinearOrder.lift' Date Int Int.instLinearOrder Date.ordinal fun _ _ => Date.ext

namespace Date

/-- Callers drop the error of a date that is out of range, so they have to show that there is
none. -/
def addDays (d : Date) (days : Int) (inRange : 0 ≤ d.ordinal + days ∧ d.ordinal + days ≤
      maxOrdinal) :
    Date := ⟨d.ordinal + days, inRange⟩

def daysUntil (d other : Date) : Int := other.ordinal - d.ordinal

end Date

structure Period where
  start : Date
  end_ : Date
  bounds : Bounds
  ordered : start ≤ end_

namespace Period

def days (p : Period) : Int :=
  let days := p.start.daysUntil p.end_ + 1
  let days := if !p.bounds.includesStart then days - 1 else days
  let days := if !p.bounds.includesEnd then days - 1 else days
  max days 0

def isEmpty (p : Period) : Bool := p.days = 0

end Period

end Golib.Temporal.DatePeriod
