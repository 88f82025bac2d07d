/-! # Byte strings: counted words, UTF-8 text and splitting at a length -/
namespace BuildCache

abbrev Bytes := List UInt8

namespace Bytes

/-- The first `count` bytes of a number, least significant first. -/
def ofNat : (count value : Nat) → Bytes
  | 0, _ => []
  | count + 1, value => UInt8.ofNat value :: ofNat count (value / 256)

/-- The number whose bytes these are, least significant first. -/
def toNat : Bytes → Nat
  | [] => 0
  | b :: rest => b.toNat + 256 * toNat rest

@[simp] theorem length_ofNat (count value : Nat) : (ofNat count value).length = count := by
  induction count generalizing value with
  | zero => rfl
  | succ count ih => simp [ofNat, ih]

/-- How many numbers have `count` bytes at most. -/
def range : (count : Nat) → Nat
  | 0 => 1
  | count + 1 => 256 * range count

theorem toNat_lt (bytes : Bytes) : toNat bytes < range bytes.length := by
  induction bytes with
  | nil => decide
  | cons b rest ih =>
    have := b.toNat_lt
    simp only [toNat, List.length_cons, range]
    omega

theorem toNat_ofNat {count value : Nat} (h : value < range count) : toNat (ofNat count value) = value := by
  induction count generalizing value with
  | zero =>
    simp only [range] at h
    simp only [ofNat, toNat]
    omega
  | succ count ih =>
    simp only [range] at h
    simp only [ofNat, toNat, ih (Nat.div_lt_of_lt_mul h), UInt8.toNat_ofNat']
    omega

/-- The UTF-8 form of a text. -/
def ofText (s : String) : Bytes := s.toUTF8.data.toList

/-- The text that these bytes spell in UTF-8. -/
def toText? (bytes : Bytes) : Option String := String.fromUTF8? ⟨bytes.toArray⟩

/-- Cuts off the first `count` bytes when there are that many. -/
def split? (count : Nat) (bytes : Bytes) : Option (Bytes × Bytes) :=
  if count ≤ bytes.length then some (bytes.splitAt count) else none

theorem split?_append {first : Bytes} {count : Nat} (h : first.length = count) (rest : Bytes) :
    split? count (first ++ rest) = some (first, rest) := by
  subst h
  simp [split?]

end Bytes
end BuildCache
