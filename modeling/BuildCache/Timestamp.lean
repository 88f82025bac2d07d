/-! # Moments in universal time, with leap seconds and nanoseconds -/
namespace BuildCache

namespace Date

def isLeap (year : Int) : Bool := year % 4 = 0 && (year % 100 ≠ 0 || year % 400 = 0)

def daysIn (year : Int) (month : Nat) : Nat :=
  if month = 2 then (if isLeap year then 29 else 28)
  else if month = 4 ∨ month = 6 ∨ month = 9 ∨ month = 11 then 30
  else 31

def firstYear : Int := -262143
def lastYear : Int := 262142

/-- The dates of the proleptic Gregorian calendar in the years that can be stored. -/
def Valid (year : Int) (month day : Nat) : Prop :=
  firstYear ≤ year ∧ year ≤ lastYear ∧ 1 ≤ month ∧ month ≤ 12 ∧ 1 ≤ day ∧ day ≤ daysIn year month

instance (year : Int) (month day : Nat) : Decidable (Valid year month day) :=
  inferInstanceAs (Decidable (_ ∧ _))

end Date

structure Date where
  year : Int
  month : Nat
  day : Nat
  valid : Date.Valid year month day
  deriving DecidableEq

namespace Date

def of? (year : Int) (month day : Nat) : Option Date :=
  if h : Valid year month day then some ⟨year, month, day, h⟩ else none

def next? (d : Date) : Option Date :=
  if d.day < daysIn d.year d.month then of? d.year d.month (d.day + 1)
  else if d.month < 12 then of? d.year (d.month + 1) 1
  else of? (d.year + 1) 1 1

def previous? (d : Date) : Option Date :=
  if 1 < d.day then of? d.year d.month (d.day - 1)
  else if 1 < d.month then of? d.year (d.month - 1) (daysIn d.year (d.month - 1))
  else of? (d.year - 1) 12 31

end Date

/-- A moment: the second of its day, and nanoseconds, which pass a full second within a leap second. Any
second of a day may be followed by a leap second. -/
structure Timestamp where
  date : Date
  second : Nat
  nano : Nat
  second_lt : second < 86400
  nano_lt : nano < 2000000000
  deriving DecidableEq

namespace Timestamp

def of? (date : Date) (second nano : Nat) : Option Timestamp :=
  if h : second < 86400 ∧ nano < 2000000000 then some ⟨date, second, nano, h.1, h.2⟩ else none

/-- Not within a leap second, or within one at the end of a minute, where a text has a number for it. -/
def IsRegular (t : Timestamp) : Prop := t.nano < 1000000000 ∨ t.second % 60 = 59

instance (t : Timestamp) : Decidable t.IsRegular := inferInstanceAs (Decidable (_ ∨ _))

/-- A leap second within a minute becomes the second after it. -/
def regular (t : Timestamp) : Timestamp :=
  if h : t.IsRegular then t
  else {
    date := t.date
    second := t.second + 1
    nano := t.nano - 1000000000
    second_lt := by
      have hminute : t.second % 60 ≠ 59 := fun hlast => h (.inr hlast)
      have hday := t.second_lt
      omega
    nano_lt := Nat.lt_of_le_of_lt (Nat.sub_le _ _) t.nano_lt }

/-- The universal time of a local time that is ahead by `offset` seconds, less than a day either way. -/
def ofLocal? (date : Date) (second nano : Nat) (offset : Int) : Option Timestamp :=
  let shifted := (second : Int) - offset
  if shifted < 0 then do of? (← date.previous?) (shifted + 86400).toNat nano
  else if 86400 ≤ shifted then do of? (← date.next?) (shifted - 86400).toNat nano
  else of? date shifted.toNat nano

end Timestamp

/-- What a clock shows, which never is within a leap second. -/
structure ClockTime extends Timestamp where
  shown : nano < 1000000000
  deriving DecidableEq

end BuildCache
