/-! # Double precision: 53-bit mantissas with exponents, results rounded to the nearest, ties to even -/
namespace BuildCache

/-- A finite number is `mantissa * 2 ^ exponent` with a sign; only the least exponent takes short mantissas. -/
inductive Binary64
  | nan
  | infinite (negative : Bool)
  | finite (negative : Bool) (mantissa : Nat) (exponent : Int)
  deriving DecidableEq

namespace Binary64

/-- The quotient rounded to the nearest natural number, a tie to the even one. -/
def roundDiv (num den : Nat) : Nat :=
  let q := num / den
  let twice := 2 * (num % den)
  if den < twice ∨ den = twice ∧ q % 2 = 1 then q + 1 else q

theorem roundDiv_bounds {num den : Nat} (h : 0 < den) :
    2 * num ≤ (2 * roundDiv num den + 1) * den ∧ 2 * roundDiv num den * den ≤ 2 * num + den := by
  have hd := Nat.div_add_mod num den
  have hm := Nat.mod_lt num h
  have hc := Nat.mul_comm den (num / den)
  unfold roundDiv
  simp only
  split
  · next hr =>
    have : den ≤ 2 * (num % den) := by omega
    constructor <;> grind
  · next hr =>
    have : 2 * (num % den) ≤ den := by omega
    constructor <;> grind

def leastExponent : Int := -1074
def greatestExponent : Int := 971

/-- `n * 2 ^ (e - low)`, or `n` if `e` is below `low`. -/
def scale (n : Nat) (e low : Int) : Nat := n <<< (e - low).toNat

/-- The greatest exponent `e` for which `2 ^ e` is at most the quotient of two positive numbers. -/
def magnitude (num den : Nat) : Int :=
  let e := (num.log2 : Int) - den.log2
  if scale den e 0 ≤ scale num (-e) 0 then e else e - 1

/-- The number nearest to a fraction. -/
def ofRatio (negative : Bool) (num den : Nat) : Binary64 :=
  if num = 0 then .finite negative 0 leastExponent
  else
    let e := max (magnitude num den - 52) leastExponent
    let m := roundDiv (scale num (-e) 0) (scale den e 0)
    let (m, e) := if m = 0x20000000000000 then (0x10000000000000, e + 1) else (m, e)
    if greatestExponent < e then .infinite negative else .finite negative m e

/-- The number nearest to `num / den * 2 ^ e`. -/
def ofScaled (negative : Bool) (num den : Nat) (e : Int) : Binary64 :=
  ofRatio negative (scale num e 0) (scale den (-e) 0)

def ofNat (n : Nat) : Binary64 := ofRatio false n 1

/-- The number nearest to `n * 10 ^ e`. Beyond a thousand places it is settled by the place alone. -/
def ofDecimal (negative : Bool) (n : Nat) (e : Int) : Binary64 :=
  let places := e + (Nat.toDigits 10 n).length
  if n = 0 ∨ places < -1000 then .finite negative 0 leastExponent
  else if 1000 < places then .infinite negative
  else ofRatio negative (n * Nat.pow 10 e.toNat) (Nat.pow 10 (-e).toNat)

def mul : Binary64 → Binary64 → Binary64
  | .nan, _ | _, .nan => .nan
  | .infinite a, .infinite b => .infinite (a != b)
  | .infinite a, .finite b m _ | .finite a m _, .infinite b => if m = 0 then .nan else .infinite (a != b)
  | .finite a m e, .finite b n f => ofScaled (a != b) (m * n) 1 (e + f)

def div : Binary64 → Binary64 → Binary64
  | .nan, _ | _, .nan | .infinite _, .infinite _ => .nan
  | .infinite a, .finite b _ _ => .infinite (a != b)
  | .finite a _ _, .infinite b => .finite (a != b) 0 leastExponent
  | .finite a m e, .finite b n f =>
    if n = 0 then (if m = 0 then .nan else .infinite (a != b)) else ofScaled (a != b) m n (e - f)

/-- A finite number as a multiple of `2 ^ low`. -/
def multiple (negative : Bool) (m : Nat) (e low : Int) : Int :=
  if negative then -(scale m e low : Int) else scale m e low

def add : Binary64 → Binary64 → Binary64
  | .nan, _ | _, .nan => .nan
  | .infinite a, .infinite b => if a = b then .infinite a else .nan
  | .infinite a, .finite .. | .finite .., .infinite a => .infinite a
  | .finite a m e, .finite b n f =>
    let low := min e f
    let sum := multiple a m e low + multiple b n f low
    ofScaled (if sum = 0 then a && b else sum < 0) sum.natAbs 1 low

def isNegative : Binary64 → Bool
  | .nan => false
  | .infinite a => a
  | .finite a m _ => a && m ≠ 0

/-- Whether a number is less than another; nothing compares with the number that is none. -/
def less : Binary64 → Binary64 → Bool
  | .nan, _ | _, .nan => false
  | .infinite a, .infinite b => a && !b
  | .infinite a, .finite .. => a
  | .finite .., .infinite b => !b
  | .finite a m e, .finite b n f => multiple a m e (min e f) < multiple b n f (min e f)

/-- The lesser of two numbers, or the one that is a number. -/
def least (x y : Binary64) : Binary64 :=
  if x = .nan ∨ y.less x then y else x

/-- The power that repeated squaring gives, every step rounded. -/
def powerFrom (product base : Binary64) (n : Nat) : Binary64 :=
  let product := if n % 2 = 1 then product.mul base else product
  if n / 2 = 0 then product else powerFrom product (base.mul base) (n / 2)
termination_by n
decreasing_by omega

def power (x : Binary64) (n : Nat) : Binary64 := powerFrom (ofNat 1) x n

def greatestPowerOfTen : Nat := 308

/-- A number times `10 ^ e`, rounded at every power of ten that it takes. -/
def scaleTen (x : Binary64) (e : Int) : Binary64 :=
  if 0 ≤ e then x.mul (ofDecimal false 1 e)
  else if -e ≤ greatestPowerOfTen then x.div (ofDecimal false 1 (-e))
  else scaleTen (x.div (ofDecimal false 1 greatestPowerOfTen)) (e + greatestPowerOfTen)
termination_by (-e).toNat
decreasing_by simp only [greatestPowerOfTen] at *; omega

/-- The first digits of a number as far as 64 bits hold them, and the exponent with the others dropped. -/
def leadingDigits (n : Nat) (e : Int) : Nat × Int :=
  if n < 0x10000000000000000 then (n, e) else leadingDigits (n / 10) (e + 1)
termination_by n
decreasing_by omega

/-- A number without the zeros at its end, and the exponent with them counted. -/
def dropZeros (n : Nat) (e : Int) : Nat × Int :=
  if n ≠ 0 ∧ n % 10 = 0 then dropZeros (n / 10) (e + 1) else (n, e)
termination_by n
decreasing_by omega

/-- The numeral `n * 10 ^ e` read in two roundings, of its digits and of the power of ten; so it may miss
the nearest number by the last bit. A whole numeral counts its zeros into the power. -/
def ofNumeral (negative : Bool) (n : Nat) (e : Int) : Binary64 :=
  let (n, e) := if 0 ≤ e then dropZeros n e else (n, e)
  let (n, e) := leadingDigits n e
  (ofRatio negative n 1).scaleTen e

/-- The natural number nearest to `factor` times the absolute value. -/
def round? (factor : Nat) : Binary64 → Option Nat
  | .finite _ m e => some (roundDiv (scale (m * factor) e 0) (scale 1 (-e) 0))
  | _ => none

end Binary64
end BuildCache
