import BuildCache.Bytes

/-! # Hexadecimal digits: two lower-case digits a byte, read in either case -/
namespace BuildCache.Hex

def digit (n : Nat) : Char :=
  if n < 10 then Char.ofNat (n + 48) else Char.ofNat (n + 87)

def encode (bytes : Bytes) : String :=
  String.ofList (bytes.flatMap fun b => [digit (b.toNat / 16), digit (b.toNat % 16)])

/-- The value of a digit given by its ASCII code. -/
def value? (code : UInt8) : Option Nat :=
  if 48 ≤ code ∧ code ≤ 57 then some (code.toNat - 48)
  else if 97 ≤ code ∧ code ≤ 102 then some (code.toNat - 87)
  else if 65 ≤ code ∧ code ≤ 70 then some (code.toNat - 55)
  else none

/-- Reads pairs of digits; a failure tells the offset of the first byte that is no digit. -/
def decode (offset : Nat) : Bytes → Except Nat Bytes
  | [] | [_] => .ok []
  | hi :: lo :: rest =>
    match value? hi, value? lo with
    | none, _ => .error offset
    | some _, none => .error (offset + 1)
    | some h, some l => (decode (offset + 2) rest).map (UInt8.ofNat (16 * h + l) :: ·)

theorem length_decode {offset : Nat} {digits bytes : Bytes} (h : decode offset digits = .ok bytes) :
    bytes.length = digits.length / 2 := by
  fun_induction decode offset digits generalizing bytes with
  | case1 | case2 => simp_all
  | case3 | case4 => simp at h
  | case5 offset hi lo rest a b _ _ ih =>
    match hd : decode (offset + 2) rest with
    | .error _ => simp [hd, Except.map] at h
    | .ok tail =>
      simp only [hd, Except.map, Except.ok.injEq] at h
      subst h
      have := ih hd
      simp only [List.length_cons]
      omega

/-- A number in lower-case hexadecimal, padded with zeros on the left. -/
def ofNat (width value : Nat) : String :=
  let digits := Nat.toDigits 16 value
  String.ofList (List.replicate (width - digits.length) '0' ++ digits)

end BuildCache.Hex
