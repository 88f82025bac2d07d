import BuildCache.Timestamp
import BuildCache.Text.Blank

/-! # RFC 3339 text: written with `Z` and 0, 3, 6 or 9 decimals, read in a relaxed form -/
namespace BuildCache.Timestamp

open Text

def padded (width n : Nat) : List Char :=
  let ds := Nat.toDigits 10 n
  List.replicate (width - ds.length) '0' ++ ds

/-- Four digits, with a sign exactly when the year is outside 0 to 9999. -/
def yearText (year : Int) : List Char :=
  if 0 ≤ year ∧ year ≤ 9999 then padded 4 year.toNat
  else (if year < 0 then '-' else '+') :: padded 4 year.natAbs

def decimals (nano : Nat) : List Char :=
  if nano = 0 then []
  else if nano % 1000000 = 0 then '.' :: padded 3 (nano / 1000000)
  else if nano % 1000 = 0 then '.' :: padded 6 (nano / 1000)
  else '.' :: padded 9 nano

/-- A leap second has the number of the next second. -/
def write (t : Timestamp) : List Char :=
  let (leap, nano) := if t.nano < 1000000000 then (0, t.nano) else (1, t.nano - 1000000000)
  yearText t.date.year ++ '-' :: padded 2 t.date.month ++ '-' :: padded 2 t.date.day
    ++ 'T' :: padded 2 (t.second / 3600) ++ ':' :: padded 2 (t.second / 60 % 60)
    ++ ':' :: padded 2 (t.second % 60 + leap) ++ decimals nano ++ ['Z']

def toText (t : Timestamp) : String := String.ofList t.write

def isDigit (c : Char) : Bool := '0' ≤ c && c ≤ '9'

def toNumber (ds : List Char) : Nat := ds.foldl (fun n c => 10 * n + (c.toNat - 48)) 0

/-- The digits at the front, at most `limit` of them. -/
def digits (limit : Nat) (cs : List Char) : Option (List Char × List Char) :=
  match (cs.take limit).takeWhile isDigit with
  | [] => none
  | ds => some (ds, cs.drop ds.length)

/-- A number of one or two digits behind blanks, within bounds. -/
def shortNumber (low high : Nat) (cs : List Char) : Option (Nat × List Char) := do
  let (ds, rest) ← digits 2 (dropBlank cs)
  if low ≤ toNumber ds ∧ toNumber ds ≤ high then some (toNumber ds, rest) else none

/-- A year: up to four digits, or any number of digits behind a sign. -/
def yearNumber (cs : List Char) : Option (Int × List Char) :=
  match dropBlank cs with
  | '-' :: cs => (digits cs.length cs).map fun (ds, rest) => (-(toNumber ds : Int), rest)
  | '+' :: cs => (digits cs.length cs).map fun (ds, rest) => ((toNumber ds : Int), rest)
  | cs => (digits 4 cs).map fun (ds, rest) => ((toNumber ds : Int), rest)

def separator (c : Char) (cs : List Char) : Option (List Char) :=
  match dropBlank cs with
  | d :: rest => if d = c then some rest else none
  | [] => none

/-- Decimals of a second, of which nine count. -/
def fraction : List Char → Option (Nat × List Char)
  | '.' :: cs => do
    let (ds, rest) ← digits 9 cs
    pure (toNumber (ds ++ List.replicate (9 - ds.length) '0'), rest.dropWhile isDigit)
  | cs => some (0, cs)

/-- Hours and minutes ahead of universal time, in seconds. -/
def offset : List Char → Option (Nat × List Char)
  | a :: b :: cs =>
    if isDigit a && isDigit b then
      match cs.dropWhile fun c => c = ':' || isBlank c with
      | c :: d :: rest =>
        if isDigit c && isDigit d && c ≤ '5' then some (toNumber [a, b] * 3600 + toNumber [c, d] * 60, rest)
        else none
      | _ => none
    else none
  | _ => none

/-- A time zone: universal time by name or letter, or a signed offset. -/
def zone (cs : List Char) : Option (Int × List Char) :=
  match cs with
  | 'Z' :: rest | 'z' :: rest => some (0, rest)
  | '+' :: rest => (offset rest).map fun (n, rest) => ((n : Int), rest)
  | '-' :: rest | '\u2212' :: rest => (offset rest).map fun (n, rest) => (-(n : Int), rest)
  | u :: t :: c :: rest =>
    if (u = 'U' ∨ u = 'u') ∧ (t = 'T' ∨ t = 't') ∧ (c = 'C' ∨ c = 'c') then some (0, rest) else none
  | _ => none

def dateParts (cs : List Char) : Option ((Int × Nat × Nat) × List Char) := do
  let (year, cs) ← yearNumber cs
  let (month, cs) ← shortNumber 1 12 (← separator '-' cs)
  let (day, cs) ← shortNumber 1 31 (← separator '-' cs)
  pure ((year, month, day), cs)

def timeParts (cs : List Char) : Option ((Nat × Nat × Nat × Nat) × List Char) := do
  let (hour, cs) ← shortNumber 0 23 cs
  let (minute, cs) ← shortNumber 0 59 (← separator ':' cs)
  let (second, cs) ← shortNumber 0 60 (← separator ':' cs)
  let (nano, cs) ← fraction cs
  pure ((hour, minute, second, nano), cs)

/-- Reads a moment; blanks may stand between the parts and at both ends. -/
def read? (cs : List Char) : Option Timestamp := do
  let ((year, month, day), cs) ← dateParts cs
  let cs ← match cs with
    | 't' :: cs | 'T' :: cs | ' ' :: cs => some cs
    | _ => none
  let ((hour, minute, second, nano), cs) ← timeParts cs
  let (ahead, cs) ← zone (dropBlank cs)
  if dropBlank cs = [] ∧ ahead.natAbs < 86400 then
    let date ← Date.of? year month day
    let (second, nano) := if second = 60 then (59, nano + 1000000000) else (second, nano)
    ofLocal? date (hour * 3600 + minute * 60 + second) nano ahead
  else none

def ofText? (s : String) : Option Timestamp := read? s.toList

end BuildCache.Timestamp
