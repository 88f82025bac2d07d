import BuildCache.Bytes

/-! # Counted numbers: one byte up to 250, else a marker and 2, 4, 8 or 16 bytes -/
namespace BuildCache.Varint

def encode (n : Nat) : Bytes :=
  if n < 251 then [UInt8.ofNat n]
  else if n < Bytes.range 2 then 251 :: Bytes.ofNat 2 n
  else if n < Bytes.range 4 then 252 :: Bytes.ofNat 4 n
  else if n < Bytes.range 8 then 253 :: Bytes.ofNat 8 n
  else 254 :: Bytes.ofNat 16 n

def fixed (count : Nat) (bytes : Bytes) : Option (Nat × Bytes) :=
  (bytes.split? count).map fun (number, rest) => (number.toNat, rest)

/-- Reads a number whose marker allows at most `width` bytes; longer forms than needed are accepted. -/
def decode (width : Nat) : Bytes → Option (Nat × Bytes)
  | [] => none
  | marker :: rest =>
    if marker < 251 then some (marker.toNat, rest)
    else if marker = 251 ∧ 2 ≤ width then fixed 2 rest
    else if marker = 252 ∧ 4 ≤ width then fixed 4 rest
    else if marker = 253 ∧ 8 ≤ width then fixed 8 rest
    else if marker = 254 ∧ 16 ≤ width then fixed 16 rest
    else none

theorem fixed_ofNat {count n : Nat} (h : n < Bytes.range count) (rest : Bytes) :
    fixed count (Bytes.ofNat count n ++ rest) = some (n, rest) := by
  simp [fixed, Bytes.split?_append (Bytes.length_ofNat count n), Bytes.toNat_ofNat h]

theorem decode_encode {width n : Nat} (hn : n < Bytes.range width)
    (hw : width = 4 ∨ width = 8 ∨ width = 16) (rest : Bytes) :
    decode width (encode n ++ rest) = some (n, rest) := by
  unfold encode
  split
  · next h =>
    have h1 : UInt8.ofNat n < 251 := by
      rw [UInt8.lt_iff_toNat_lt, UInt8.toNat_ofNat']
      exact Nat.lt_of_le_of_lt (Nat.mod_le _ _) h
    have h2 : (UInt8.ofNat n).toNat = n := by
      rw [UInt8.toNat_ofNat']
      omega
    simp [decode, h1, h2]
  · split
    · next h => simpa [decode, show 2 ≤ width by omega] using @fixed_ofNat 2 n (by omega) rest
    · split
      · next h => simpa [decode, show 4 ≤ width by omega] using @fixed_ofNat 4 n (by omega) rest
      · split
        · next h =>
          have hw : 8 ≤ width := by
            rcases hw with rfl | rfl | rfl <;> omega
          simpa [decode, hw] using @fixed_ofNat 8 n (by omega) rest
        · next h =>
          have hw : width = 16 := by
            rcases hw with rfl | rfl | rfl <;> omega
          subst hw
          simpa [decode] using @fixed_ofNat 16 n hn rest

end BuildCache.Varint
