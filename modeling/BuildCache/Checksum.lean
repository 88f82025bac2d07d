import BuildCache.Bytes

/-! # The 128-bit XXH3 checksum of a byte string, without a seed -/
namespace BuildCache

abbrev Checksum := BitVec 128

namespace Xxh3

def secret : Bytes := [
  0xb8, 0xfe, 0x6c, 0x39, 0x23, 0xa4, 0x4b, 0xbe, 0x7c, 0x01, 0x81, 0x2c, 0xf7, 0x21, 0xad, 0x1c,
  0xde, 0xd4, 0x6d, 0xe9, 0x83, 0x90, 0x97, 0xdb, 0x72, 0x40, 0xa4, 0xa4, 0xb7, 0xb3, 0x67, 0x1f,
  0xcb, 0x79, 0xe6, 0x4e, 0xcc, 0xc0, 0xe5, 0x78, 0x82, 0x5a, 0xd0, 0x7d, 0xcc, 0xff, 0x72, 0x21,
  0xb8, 0x08, 0x46, 0x74, 0xf7, 0x43, 0x24, 0x8e, 0xe0, 0x35, 0x90, 0xe6, 0x81, 0x3a, 0x26, 0x4c,
  0x3c, 0x28, 0x52, 0xbb, 0x91, 0xc3, 0x00, 0xcb, 0x88, 0xd0, 0x65, 0x8b, 0x1b, 0x53, 0x2e, 0xa3,
  0x71, 0x64, 0x48, 0x97, 0xa2, 0x0d, 0xf9, 0x4e, 0x38, 0x19, 0xef, 0x46, 0xa9, 0xde, 0xac, 0xd8,
  0xa8, 0xfa, 0x76, 0x3f, 0xe3, 0x9c, 0x34, 0x3f, 0xf9, 0xdc, 0xbb, 0xc7, 0xc7, 0x0b, 0x4f, 0x1d,
  0x8a, 0x51, 0xe0, 0x4b, 0xcd, 0xb4, 0x59, 0x31, 0xc8, 0x9f, 0x7e, 0xc9, 0xd9, 0x78, 0x73, 0x64,
  0xea, 0xc5, 0xac, 0x83, 0x34, 0xd3, 0xeb, 0xc3, 0xc5, 0x81, 0xa0, 0xff, 0xfa, 0x13, 0x63, 0xeb,
  0x17, 0x0d, 0xdd, 0x51, 0xb7, 0xf0, 0xda, 0x49, 0xd3, 0x16, 0x55, 0x26, 0x29, 0xd4, 0x68, 0x9e,
  0x2b, 0x16, 0xbe, 0x58, 0x7d, 0x47, 0xa1, 0xfc, 0x8f, 0xf8, 0xb8, 0xd1, 0x7a, 0xd0, 0x31, 0xce,
  0x45, 0xcb, 0x3a, 0x8f, 0x95, 0x16, 0x04, 0x28, 0xaf, 0xd7, 0xfb, 0xca, 0xbb, 0x4b, 0x40, 0x7e]

def prime32A : UInt64 := 0x9E3779B1
def prime32B : UInt64 := 0x85EBCA77
def prime32C : UInt64 := 0xC2B2AE3D
def primeA : UInt64 := 0x9E3779B185EBCA87
def primeB : UInt64 := 0xC2B2AE3D27D4EB4F
def primeC : UInt64 := 0x165667B19E3779F9
def primeD : UInt64 := 0x85EBCA77C2B2AE63
def primeE : UInt64 := 0x27D4EB2F165667C5
def mixerA : UInt64 := 0x165667919E3779F9
def mixerB : UInt64 := 0x9FB21C651E98DF25

/-- The little-endian word of `count` bytes that stands at an offset. -/
def word (count : Nat) (bytes : Bytes) (offset : Nat) : UInt64 :=
  ((bytes.drop offset).take count).reverse.foldl (fun w b => w <<< 8 ||| b.toUInt64) 0

abbrev word32 := word 4
abbrev word64 := word 8

def swap64 (w : UInt64) : UInt64 := word64 (Bytes.ofNat 8 w.toNat).reverse 0
def swap32 (w : UInt64) : UInt64 := word32 (Bytes.ofNat 4 w.toNat).reverse 0

/-- The two halves of a product, low half first. -/
def product (a b : UInt64) : UInt64 × UInt64 :=
  let p := a.toNat * b.toNat
  (UInt64.ofNat p, UInt64.ofNat (p >>> 64))

def fold (a b : UInt64) : UInt64 :=
  let (low, high) := product a b
  low ^^^ high

def avalanche (h : UInt64) : UInt64 :=
  let h := (h ^^^ (h >>> 37)) * mixerA
  h ^^^ (h >>> 32)

def strongAvalanche (h : UInt64) : UInt64 :=
  let h := (h ^^^ (h >>> 33)) * primeB
  let h := (h ^^^ (h >>> 29)) * primeC
  h ^^^ (h >>> 32)

def ofHalves (low high : UInt64) : Checksum := high.toBitVec ++ low.toBitVec

def ofEmpty : Checksum :=
  ofHalves (strongAvalanche (word64 secret 64 ^^^ word64 secret 72))
    (strongAvalanche (word64 secret 80 ^^^ word64 secret 88))

/-- One to three bytes. -/
def ofTiny (bytes : Bytes) : Checksum :=
  let n := bytes.length
  let low := word 1 bytes 0 <<< 16 ||| word 1 bytes (n / 2) <<< 24 ||| word 1 bytes (n - 1)
    ||| UInt64.ofNat n <<< 8
  let swapped := swap32 low
  let high := (swapped <<< 13 ||| swapped >>> 19) &&& 0xFFFFFFFF
  ofHalves (strongAvalanche (low ^^^ (word32 secret 0 ^^^ word32 secret 4)))
    (strongAvalanche (high ^^^ (word32 secret 8 ^^^ word32 secret 12)))

/-- Four to eight bytes. -/
def ofShort (bytes : Bytes) : Checksum :=
  let n := bytes.length
  let input := word32 bytes 0 + word32 bytes (n - 4) <<< 32
  let keyed := input ^^^ (word64 secret 16 ^^^ word64 secret 24)
  let (low, high) := product keyed (primeA + UInt64.ofNat n <<< 2)
  let high := high + low <<< 1
  let low := low ^^^ (high >>> 3)
  let low := (low ^^^ (low >>> 35)) * mixerB
  ofHalves (low ^^^ (low >>> 28)) (avalanche high)

/-- Nine to sixteen bytes. -/
def ofMedium (bytes : Bytes) : Checksum :=
  let n := bytes.length
  let first := word64 bytes 0
  let last := word64 bytes (n - 8)
  let (low, high) := product (first ^^^ last ^^^ (word64 secret 32 ^^^ word64 secret 40)) primeA
  let low := low + UInt64.ofNat (n - 1) <<< 54
  let last := last ^^^ (word64 secret 48 ^^^ word64 secret 56)
  let high := high + last + (last &&& 0xFFFFFFFF) * (prime32B - 1)
  let low := low ^^^ swap64 high
  let (low, top) := product low primeB
  ofHalves (avalanche low) (avalanche (top + high * primeB))

def mixLine (bytes : Bytes) (offset key : Nat) : UInt64 :=
  fold (word64 bytes offset ^^^ word64 secret key) (word64 bytes (offset + 8) ^^^ word64 secret (key + 8))

/-- Folds two lines of sixteen bytes into the two accumulators. -/
def mixPair (bytes : Bytes) (acc : UInt64 × UInt64) (one two key : Nat) : UInt64 × UInt64 :=
  ((acc.1 + mixLine bytes one key) ^^^ (word64 bytes two + word64 bytes (two + 8)),
    (acc.2 + mixLine bytes two (key + 16)) ^^^ (word64 bytes one + word64 bytes (one + 8)))

def finish (n : Nat) (acc : UInt64 × UInt64) : Checksum :=
  ofHalves (avalanche (acc.1 + acc.2))
    (0 - avalanche (acc.1 * primeA + acc.2 * primeD + UInt64.ofNat n * primeB))

/-- Seventeen to 128 bytes: pairs of lines from both ends, inner pairs first. -/
def ofLines (bytes : Bytes) : Checksum :=
  let n := bytes.length
  let pairs := ((List.range 4).filter fun i => i = 0 ∨ 32 * i < n).reverse
  finish n <| pairs.foldl (fun acc i => mixPair bytes acc (16 * i) (n - 16 * (i + 1)) (32 * i))
    (UInt64.ofNat n * primeA, 0)

/-- 129 to 240 bytes: pairs of lines in order, and the last pair again. -/
def ofPages (bytes : Bytes) : Checksum :=
  let n := bytes.length
  let acc := (List.range 4).foldl (fun acc i => mixPair bytes acc (32 * i) (32 * i + 16) (32 * i))
    (UInt64.ofNat n * primeA, 0)
  let acc := (avalanche acc.1, avalanche acc.2)
  let acc := (List.range (n / 32 - 4)).foldl
    (fun acc i => mixPair bytes acc (32 * i + 128) (32 * i + 144) (32 * i + 3)) acc
  finish n (mixPair bytes acc (n - 16) (n - 32) 103)

abbrev Lanes := Vector UInt64 8

def lanes : Lanes := #v[prime32C, primeA, primeB, primeC, primeD, prime32B, primeE, prime32A]

def lane (bytes : Bytes) (offset : Nat) : Lanes := Vector.ofFn fun i => word64 bytes (offset + 8 * i)

def swapIndex (i : Fin 8) : Fin 8 := ⟨i.val ^^^ 1, by revert i; decide⟩

/-- Takes up one stripe of 64 bytes under the key at an offset of the secret. -/
def stripe (acc : Lanes) (bytes : Bytes) (key : Nat) : Lanes :=
  let data := lane bytes 0
  let keys := lane secret key
  Vector.ofFn fun (i : Fin 8) =>
    let keyed : UInt64 := data[i] ^^^ keys[i]
    let low : UInt64 := keyed &&& 0xFFFFFFFF
    acc[i] + data[swapIndex i] + low * (keyed >>> 32)

def scramble (acc : Lanes) : Lanes :=
  let keys := lane secret 128
  Vector.ofFn fun i => (acc[i] ^^^ (acc[i] >>> 47) ^^^ keys[i]) * prime32A

/-- All stripes that end before the last byte; after every sixteenth the lanes are scrambled. -/
def stripes (acc : Lanes) (index : Nat) (bytes : Bytes) : Lanes :=
  if bytes.length ≤ 64 then acc
  else
    let acc := stripe acc (bytes.take 64) (8 * index)
    if index = 15 then stripes (scramble acc) 0 (bytes.drop 64)
    else stripes acc (index + 1) (bytes.drop 64)
termination_by bytes.length
decreasing_by all_goals simp only [List.length_drop]; omega

def merge (acc : Lanes) (key : Nat) (start : UInt64) : UInt64 :=
  let keys := lane secret key
  let keyed (i : Fin 8) : UInt64 := acc.get i ^^^ keys.get i
  avalanche (start + fold (keyed 0) (keyed 1) + fold (keyed 2) (keyed 3) + fold (keyed 4) (keyed 5)
    + fold (keyed 6) (keyed 7))

/-- More than 240 bytes: eight lanes over stripes, the last stripe flush with the end. -/
def ofStripes (bytes : Bytes) : Checksum :=
  let n := bytes.length
  let acc := stripe (stripes lanes 0 bytes) (bytes.drop (n - 64)) 121
  ofHalves (merge acc 11 (UInt64.ofNat n * primeA)) (merge acc 117 (~~~(UInt64.ofNat n * primeB)))

end Xxh3

def checksum (bytes : Bytes) : Checksum :=
  let n := bytes.length
  if n = 0 then Xxh3.ofEmpty
  else if n ≤ 3 then Xxh3.ofTiny bytes
  else if n ≤ 8 then Xxh3.ofShort bytes
  else if n ≤ 16 then Xxh3.ofMedium bytes
  else if n ≤ 128 then Xxh3.ofLines bytes
  else if n ≤ 240 then Xxh3.ofPages bytes
  else Xxh3.ofStripes bytes

end BuildCache
