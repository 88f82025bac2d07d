import BuildCache.Binary64
import BuildCache.Timestamp.Text
import BuildCache.Toml.Basic
import BuildCache.Toml.Lexical

/-! # TOML numbers and moments -/
namespace BuildCache.Toml

/-- Further digits, each of them perhaps behind an underscore. -/
def moreDigits (p : Char → Bool) : List Char → List Char × List Char
  | '_' :: c :: rest =>
    if p c then
      let (ds, rest) := moreDigits p rest
      (c :: ds, rest)
    else ([], '_' :: c :: rest)
  | c :: rest =>
    if p c then
      let (ds, rest) := moreDigits p rest
      (c :: ds, rest)
    else ([], c :: rest)
  | [] => ([], [])

def digits (p : Char → Bool) : List Char → Option (List Char × List Char)
  | c :: rest =>
    if p c then
      let (ds, rest) := moreDigits p rest
      some (c :: ds, rest)
    else none
  | [] => none

def sign : List Char → Bool × List Char
  | '-' :: rest => (true, rest)
  | '+' :: rest => (false, rest)
  | cs => (false, cs)

def whole : List Char → Option (List Char × List Char)
  | '0' :: rest => some (['0'], rest)
  | cs => digits isDigit cs

/-- An integer of 64 bits with its sign. -/
def ranged (n : Int) : Option Toml :=
  if -0x8000000000000000 ≤ n ∧ n < 0x8000000000000000 then some (.integer n) else none

def inBase (base : Nat) (p : Char → Bool) (cs : List Char) : Option (Toml × List Char) := do
  let (ds, rest) ← digits p cs
  pure (← ranged (toNumber base ds), rest)

def integer? : List Char → Option (Toml × List Char)
  | '0' :: 'x' :: rest => inBase 16 isHexDigit rest
  | '0' :: 'o' :: rest => inBase 8 (fun c => '0' ≤ c && c ≤ '7') rest
  | '0' :: 'b' :: rest => inBase 2 (fun c => c = '0' || c = '1') rest
  | cs => do
    let (negative, rest) := sign cs
    let (ds, rest) ← whole rest
    pure (← ranged (if negative then -(toNumber 10 ds : Int) else toNumber 10 ds), rest)

def fraction : List Char → Option (List Char × List Char)
  | '.' :: rest => digits isDigit rest
  | _ => none

def exponent : List Char → Option (Int × List Char)
  | c :: rest =>
    if c = 'e' ∨ c = 'E' then
      let (negative, rest) := sign rest
      (digits isDigit rest).map fun (ds, rest) => (if negative then -(toNumber 10 ds : Int) else toNumber 10 ds, rest)
    else none
  | [] => none

/-- A number with a fraction, an exponent or both; one that is too great is refused. -/
def float? (cs : List Char) : Option (Toml × List Char) :=
  let (negative, rest) := sign cs
  match rest with
  | 'i' :: 'n' :: 'f' :: rest | 'n' :: 'a' :: 'n' :: rest => some (.float, rest)
  | _ => do
    let (ds, rest) ← whole rest
    let (decimals, rest, given) := match fraction rest with
      | some (decimals, rest) => (decimals, rest, true)
      | none => ([], rest, false)
    let (e, rest, given) := match exponent rest with
      | some (e, rest) => (e, rest, true)
      | none => (0, rest, given)
    if given && Binary64.ofDecimal negative (toNumber 10 (ds ++ decimals)) (e - decimals.length)
        ≠ .infinite false then
      some (.float, rest)
    else none

/-- A number of a fixed count of digits, within bounds. -/
def fixed (count low high : Nat) (cs : List Char) : Option (Nat × List Char) :=
  let ds := cs.take count
  let n := toNumber 10 ds
  if ds.length = count ∧ ds.all isDigit ∧ low ≤ n ∧ n ≤ high then some (n, cs.drop count) else none

def pass (c : Char) : List Char → Option (List Char)
  | d :: rest => if c = d then some rest else none
  | [] => none

open Timestamp in
def date (cs : List Char) : Option (List Char × List Char) := do
  let (year, cs) ← fixed 4 0 9999 cs
  let (month, cs) ← fixed 2 1 12 (← pass '-' cs)
  let (day, cs) ← fixed 2 1 31 (← pass '-' cs)
  if day ≤ Date.daysIn year month then
    some (padded 4 year ++ '-' :: padded 2 month ++ '-' :: padded 2 day, cs)
  else none

/-- Decimals of a second: nine of them count, and zeros at their end do not. -/
def decimals : List Char → List Char × List Char
  | '.' :: c :: rest =>
    if isDigit c then
      let ds := ((c :: rest).takeWhile isDigit).take 9
      let ds := (ds.reverse.dropWhile (· = '0')).reverse
      (if ds = [] then [] else '.' :: ds, rest.dropWhile isDigit)
    else ([], '.' :: c :: rest)
  | cs => ([], cs)

open Timestamp in
def time (cs : List Char) : Option (List Char × List Char) := do
  let (hour, cs) ← fixed 2 0 23 cs
  let (minute, cs) ← fixed 2 0 59 (← pass ':' cs)
  let (second, cs) ← fixed 2 0 60 (← pass ':' cs)
  let (ds, cs) := decimals cs
  pure (padded 2 hour ++ ':' :: padded 2 minute ++ ':' :: padded 2 second ++ ds, cs)

open Timestamp in
/-- A time zone; zero hours and minutes are written with a plus sign. -/
def zone : List Char → Option (List Char × List Char)
  | 'Z' :: rest | 'z' :: rest => some (['Z'], rest)
  | c :: rest => do
    if c = '+' ∨ c = '-' then
      let (hour, rest) ← fixed 2 0 23 rest
      let (minute, rest) ← fixed 2 0 59 (← pass ':' rest)
      let c := if hour = 0 ∧ minute = 0 then '+' else c
      pure (c :: padded 2 hour ++ ':' :: padded 2 minute, rest)
    else none
  | [] => none

/-- The time behind a date, with its zone if there is one. -/
def timeOfDate : List Char → Option (List Char × List Char)
  | c :: rest =>
    if c = 'T' ∨ c = 't' ∨ c = ' ' then do
      let (t, rest) ← time rest
      match zone rest with
      | some (z, rest) => some ('T' :: t ++ z, rest)
      | none => some ('T' :: t, rest)
    else none
  | [] => none

def moment? (cs : List Char) : Option (Toml × List Char) := do
  let (written, rest) ← match date cs with
    | some (d, rest) =>
      match timeOfDate rest with
      | some (t, rest) => some (d ++ t, rest)
      | none => some (d, rest)
    | none => time cs
  pure (.moment (String.ofList written), rest)

end BuildCache.Toml
