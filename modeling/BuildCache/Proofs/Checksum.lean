import Mathlib.Data.Nat.ModEq
import Mathlib.Data.Nat.Prime.Basic
import BuildCache.Checksum

/-! # The checksum tells byte strings of up to sixteen bytes apart

Up to that length every step of the hash can be undone: a shift that is folded back, a product with an odd
number, and the words that cover the bytes. Longer strings go through products of two words of the input,
which lose information; so there are two of seventeen bytes that differ in one byte and have one checksum. -/
namespace BuildCache

theorem Bytes.toNat_injective {x y : Bytes} (hlen : x.length = y.length) (h : toNat x = toNat y) : x = y := by
  induction x generalizing y with
  | nil => exact (List.eq_nil_of_length_eq_zero hlen.symm).symm
  | cons b x ih =>
    obtain _ | ⟨c, y⟩ := y
    · cases hlen
    · have hb := b.toNat_lt
      have hc := c.toNat_lt
      simp only [toNat] at h
      have hhead : b = c := UInt8.toNat_inj.mp (by omega)
      rw [hhead, ih (Nat.succ.inj hlen) (by omega)]

namespace Xxh3

private theorem xor_shiftRight_injective {s : Nat} (hs : 0 < s) {x y : BitVec 64}
    (h : x ^^^ (x >>> s) = y ^^^ (y >>> s)) : x = y := by
  have hbit (i : Nat) : x.getLsbD i = y.getLsbD i := by
    induction hk : 64 - i using Nat.strongRecOn generalizing i with
    | ind k ih =>
      by_cases hi : i < 64
      · have hlater := ih (64 - (s + i)) (by omega) (s + i) rfl
        have hxor := congrArg (fun z : BitVec 64 => z.getLsbD i) h
        simp only [BitVec.getLsbD_xor, BitVec.getLsbD_ushiftRight] at hxor
        rw [hlater] at hxor
        exact Bool.xor_left_inj.mp hxor
      · rw [BitVec.getLsbD_of_ge _ _ (Nat.not_lt.mp hi), BitVec.getLsbD_of_ge _ _ (Nat.not_lt.mp hi)]
  exact BitVec.eq_of_getLsbD_eq fun i _ => hbit i

theorem xorShift_injective {s : UInt64} (hs : 0 < s.toNat % 64) :
    Function.Injective fun h : UInt64 => h ^^^ (h >>> s) := by
  intro x y h
  have hbits := congrArg UInt64.toBitVec h
  simp only [UInt64.toBitVec_xor, UInt64.toBitVec_shiftRight, BitVec.ushiftRight_eq', BitVec.toNat_umod] at hbits
  exact UInt64.toBitVec_inj.mp (xor_shiftRight_injective hs hbits)

private theorem mod_cancel {m n a b : Nat} (hm : m % 2 = 1) (h : a * m % 2 ^ n = b * m % 2 ^ n) :
    a % 2 ^ n = b % 2 ^ n :=
  Nat.ModEq.cancel_right_of_coprime (Nat.Coprime.pow_left n (Nat.coprime_two_left.mpr (Nat.odd_iff.mpr hm))) h

theorem mul_injective {m : UInt64} (hm : m.toNat % 2 = 1) : Function.Injective (· * m) := by
  intro x y h
  have hmod : x.toNat * m.toNat % 2 ^ 64 = y.toNat * m.toNat % 2 ^ 64 := by
    simpa only [UInt64.toNat_mul] using congrArg UInt64.toNat h
  have hcancel := mod_cancel hm hmod
  rw [Nat.mod_eq_of_lt x.toNat_lt, Nat.mod_eq_of_lt y.toNat_lt] at hcancel
  exact UInt64.toNat_inj.mp hcancel

theorem avalanche_injective : Function.Injective avalanche := by
  intro x y h
  exact xorShift_injective (by decide) (mul_injective (by decide) (xorShift_injective (by decide) h))

theorem strongAvalanche_injective : Function.Injective strongAvalanche := by
  intro x y h
  apply xorShift_injective (by decide : 0 < (33 : UInt64).toNat % 64)
  apply mul_injective (by decide : primeB.toNat % 2 = 1)
  apply xorShift_injective (by decide : 0 < (29 : UInt64).toNat % 64)
  apply mul_injective (by decide : primeC.toNat % 2 = 1)
  exact xorShift_injective (by decide : 0 < (32 : UInt64).toNat % 64) h

theorem toNat_ofHalves (low high : UInt64) : (ofHalves low high).toNat = high.toNat * 2 ^ 64 + low.toNat := by
  rw [ofHalves, BitVec.toNat_append, UInt64.toNat_toBitVec, UInt64.toNat_toBitVec,
    ← Nat.shiftLeft_add_eq_or_of_lt low.toNat_lt, Nat.shiftLeft_eq]

theorem ofHalves_injective {low high low' high' : UInt64} (h : ofHalves low high = ofHalves low' high') :
    low = low' ∧ high = high' := by
  have hnat := congrArg BitVec.toNat h
  rw [toNat_ofHalves, toNat_ofHalves] at hnat
  have hlow := low.toNat_lt
  have hlow' := low'.toNat_lt
  exact ⟨UInt64.toNat_inj.mp (by omega), UInt64.toNat_inj.mp (by omega)⟩

theorem product_fst (a b : UInt64) : (product a b).1 = a * b := by
  rw [product, UInt64.ofNat_mul, UInt64.ofNat_toNat, UInt64.ofNat_toNat]

theorem product_fst_injective {m a b : UInt64} (hm : m.toNat % 2 = 1) (h : (product a m).1 = (product b m).1) :
    a = b := by
  rw [product_fst, product_fst] at h
  exact mul_injective hm h

private theorem toNat_foldl {bytes : Bytes} (h : bytes.length ≤ 8) :
    (bytes.reverse.foldl (fun (w : UInt64) b => w <<< 8 ||| b.toUInt64) 0).toNat = Bytes.toNat bytes := by
  induction bytes with
  | nil => rfl
  | cons b rest ih =>
    have hrest : rest.length ≤ 7 := Nat.le_of_succ_le_succ h
    have hsmall : Bytes.toNat rest < 2 ^ 56 := by
      have hrange : ∀ n ≤ 7, Bytes.range n ≤ 2 ^ 56 := by decide
      exact Nat.lt_of_lt_of_le (Bytes.toNat_lt rest) (hrange _ hrest)
    have hb : b.toNat < 2 ^ 8 := b.toNat_lt
    simp only [List.reverse_cons, List.foldl_append, List.foldl_cons, List.foldl_nil, UInt64.toNat_or,
      UInt64.toNat_shiftLeft, ih (Nat.le_succ_of_le hrest), UInt8.toNat_toUInt64]
    have hshift : Bytes.toNat rest <<< ((8 : UInt64).toNat % 64) % 2 ^ 64 = Bytes.toNat rest <<< 8 := by
      simp only [Nat.shiftLeft_eq]
      exact Nat.mod_eq_of_lt (by simpa using by omega)
    rw [hshift, ← Nat.shiftLeft_add_eq_or_of_lt hb, Nat.shiftLeft_eq, Bytes.toNat]
    omega

theorem toNat_word {count : Nat} (hc : count ≤ 8) (bytes : Bytes) (offset : Nat) :
    (word count bytes offset).toNat = Bytes.toNat ((bytes.drop offset).take count) :=
  toNat_foldl (Nat.le_trans (List.length_take_le _ _) hc)

theorem word32_lt (bytes : Bytes) (offset : Nat) : (word32 bytes offset).toNat < 2 ^ 32 := by
  have hrange : ∀ n ≤ 4, Bytes.range n ≤ 2 ^ 32 := by decide
  rw [word32, toNat_word (by decide)]
  exact Nat.lt_of_lt_of_le (Bytes.toNat_lt _) (hrange _ (List.length_take_le _ _))

theorem word_injective {count offset : Nat} {x y : Bytes} (hc : count ≤ 8) (hlen : x.length = y.length)
    (h : word count x offset = word count y offset) :
    (x.drop offset).take count = (y.drop offset).take count := by
  apply Bytes.toNat_injective
  · simp only [List.length_take, List.length_drop, hlen]
  · rw [← toNat_word hc, ← toNat_word hc, h]

/-- Two words that cover a byte string, one at its beginning and one flush with its end. -/
theorem eq_of_words {count : Nat} {x y : Bytes} (hc : count ≤ 8) (hlen : x.length = y.length)
    (hle : count ≤ x.length) (hcover : x.length ≤ 2 * count) (hfirst : word count x 0 = word count y 0)
    (hlast : word count x (x.length - count) = word count y (x.length - count)) : x = y := by
  have htake := word_injective hc hlen hfirst
  have hdrop := word_injective hc hlen hlast
  rw [List.drop_zero, List.drop_zero] at htake
  rw [List.take_of_length_le (by simp; omega), List.take_of_length_le (by simp; omega)] at hdrop
  have hrest := congrArg (List.drop (2 * count - x.length)) hdrop
  rw [List.drop_drop, List.drop_drop, show x.length - count + (2 * count - x.length) = count by omega] at hrest
  rw [← List.take_append_drop count x, ← List.take_append_drop count y, htake, hrest]

private theorem short_injective {m a b : UInt64} (hm : m.toNat % 2 = 1)
    (hhigh : (product a m).2 + (product a m).1 <<< 1 = (product b m).2 + (product b m).1 <<< 1)
    (hlow : (product a m).1 ^^^ ((product a m).2 + (product a m).1 <<< 1) >>> 3
      = (product b m).1 ^^^ ((product b m).2 + (product b m).1 <<< 1) >>> 3) : a = b := by
  rw [hhigh] at hlow
  exact product_fst_injective hm ((UInt64.xor_left_inj _).mp hlow)

private theorem halves_injective {a b a' b' : UInt64} (ha : a.toNat < 2 ^ 32) (hb : b.toNat < 2 ^ 32)
    (ha' : a'.toNat < 2 ^ 32) (hb' : b'.toNat < 2 ^ 32) (h : a + b <<< 32 = a' + b' <<< 32) : a = a' ∧ b = b' := by
  have hnat := congrArg UInt64.toNat h
  simp only [UInt64.toNat_add, UInt64.toNat_shiftLeft, Nat.shiftLeft_eq] at hnat
  simp only [show (32 : UInt64).toNat % 64 = 32 by decide] at hnat
  exact ⟨UInt64.toNat_inj.mp (by omega), UInt64.toNat_inj.mp (by omega)⟩

theorem ofShort_injective {x y : Bytes} (hlen : x.length = y.length) (hlow : 4 ≤ x.length) (hhigh : x.length ≤ 8)
    (h : ofShort x = ofShort y) : x = y := by
  have hodd : ∀ n ≤ 8, 4 ≤ n → (primeA + UInt64.ofNat n <<< 2).toNat % 2 = 1 := by decide
  simp only [ofShort, ← hlen] at h
  obtain ⟨hl, hh⟩ := ofHalves_injective h
  have htop := avalanche_injective hh
  have hbottom := xorShift_injective (by decide) (mul_injective (by decide) (xorShift_injective (by decide) hl))
  have hinput := (UInt64.xor_left_inj _).mp (short_injective (hodd _ hhigh hlow) htop hbottom)
  obtain ⟨hfirst, hlast⟩ := halves_injective (word32_lt x _) (word32_lt x _) (word32_lt y _) (word32_lt y _) hinput
  exact eq_of_words (by decide) hlen hlow hhigh hfirst hlast

/-- The bottom half of the number comes back first, from what is left modulo `2 ^ 32`. -/
private theorem widen_injective {m a b : UInt64} (hm : (m.toNat + 1) % 2 = 1)
    (h : a + (a &&& 0xFFFFFFFF) * m = b + (b &&& 0xFFFFFFFF) * m) : a = b := by
  have hmask (c : UInt64) : (c &&& 0xFFFFFFFF).toNat = c.toNat % 2 ^ 32 := by
    rw [UInt64.toNat_and]
    exact Nat.and_two_pow_sub_one_eq_mod _ 32
  have hnat := congrArg UInt64.toNat h
  simp only [UInt64.toNat_add, UInt64.toNat_mul, hmask] at hnat
  have hrest : a.toNat % 2 ^ 32 * (m.toNat + 1) % 2 ^ 32 = b.toNat % 2 ^ 32 * (m.toNat + 1) % 2 ^ 32 := by
    simp only [Nat.mul_succ]
    omega
  have hbottom : a &&& 0xFFFFFFFF = b &&& 0xFFFFFFFF := by
    have := mod_cancel hm hrest
    rw [Nat.mod_mod, Nat.mod_mod] at this
    exact UInt64.toNat_inj.mp (by rw [hmask, hmask, this])
  rw [hbottom] at h
  exact (UInt64.add_left_inj _).mp h

private theorem medium_injective {low high low' high' : UInt64}
    (hbottom : (product (low ^^^ swap64 high) primeB).1 = (product (low' ^^^ swap64 high') primeB).1)
    (htop : (product (low ^^^ swap64 high) primeB).2 + high * primeB
      = (product (low' ^^^ swap64 high') primeB).2 + high' * primeB) : low = low' ∧ high = high' := by
  have hmixed := product_fst_injective (by decide) hbottom
  rw [hmixed] at htop
  have hhigh := mul_injective (by decide) ((UInt64.add_right_inj _).mp htop)
  rw [hhigh] at hmixed
  exact ⟨(UInt64.xor_left_inj _).mp hmixed, hhigh⟩

theorem ofMedium_injective {x y : Bytes} (hlen : x.length = y.length) (hlow : 8 ≤ x.length) (hhigh : x.length ≤ 16)
    (h : ofMedium x = ofMedium y) : x = y := by
  simp only [ofMedium, ← hlen] at h
  obtain ⟨hl, hh⟩ := ofHalves_injective h
  obtain ⟨hbottom, htop⟩ := medium_injective (avalanche_injective hl) (avalanche_injective hh)
  have hboth := product_fst_injective (by decide) ((UInt64.add_left_inj _).mp hbottom)
  rw [hboth, UInt64.add_assoc, UInt64.add_assoc] at htop
  have hlast := (UInt64.xor_left_inj _).mp (widen_injective (by decide) ((UInt64.add_right_inj _).mp htop))
  rw [hlast] at hboth
  have hfirst := (UInt64.xor_left_inj _).mp ((UInt64.xor_left_inj _).mp hboth)
  exact eq_of_words (by decide) hlen hlow hhigh hfirst hlast

private theorem toNat_lined {n : UInt64} (hn : n.toNat < 2 ^ 8) (a b c : UInt8) :
    (a.toUInt64 <<< 16 ||| b.toUInt64 <<< 24 ||| c.toUInt64 ||| n <<< 8).toNat
      = (b.toNat * 2 ^ 8 + a.toNat) * 2 ^ 16 + (n.toNat * 2 ^ 8 + c.toNat) := by
  have ha := a.toNat_lt
  have hb := b.toNat_lt
  have hc : c.toNat < 2 ^ 8 := c.toNat_lt
  have hhigh : a.toNat <<< 16 ||| b.toNat <<< 24 = (b.toNat * 2 ^ 8 + a.toNat) <<< 16 := by
    rw [Nat.or_comm, ← Nat.shiftLeft_add_eq_or_of_lt (by rw [Nat.shiftLeft_eq]; omega)]
    simp only [Nat.shiftLeft_eq]
    omega
  have hlow : c.toNat ||| n.toNat <<< 8 = n.toNat * 2 ^ 8 + c.toNat := by
    rw [Nat.or_comm, ← Nat.shiftLeft_add_eq_or_of_lt hc, Nat.shiftLeft_eq]
  have hshift {w s : Nat} (hw : w < 2 ^ 8) (hs : 2 ^ s ≤ 2 ^ 24) : w <<< s % 2 ^ 64 = w <<< s := by
    rw [Nat.shiftLeft_eq]
    exact Nat.mod_eq_of_lt (Nat.lt_of_lt_of_le (Nat.mul_lt_mul_of_lt_of_le hw hs (by decide)) (by decide))
  simp only [UInt64.toNat_or, UInt64.toNat_shiftLeft, UInt8.toNat_toUInt64]
  rw [hshift ha (by decide), hshift hb (by decide), hshift hn (by decide)]
  show a.toNat <<< 16 ||| b.toNat <<< 24 ||| c.toNat ||| n.toNat <<< 8 = _
  rw [Nat.or_assoc, hhigh, hlow, ← Nat.shiftLeft_add_eq_or_of_lt (by omega), Nat.shiftLeft_eq]

theorem word_one (bytes : Bytes) (offset : Nat) : word 1 bytes offset = (bytes[offset]?.getD 0).toUInt64 := by
  rw [← List.head?_drop, word]
  cases bytes.drop offset with
  | nil => rfl
  | cons b rest => simp

theorem ofTiny_injective {x y : Bytes} (hlen : x.length = y.length) (hhigh : x.length ≤ 3)
    (h : ofTiny x = ofTiny y) : x = y := by
  have hn : (UInt64.ofNat x.length).toNat < 2 ^ 8 := by
    rw [UInt64.toNat_ofNat']
    omega
  simp only [ofTiny, ← hlen, word_one] at h
  have hlined := congrArg UInt64.toNat
    ((UInt64.xor_left_inj _).mp (strongAvalanche_injective (ofHalves_injective h).1))
  rw [toNat_lined hn, toNat_lined hn] at hlined
  have hbyte (z : Bytes) (i : Nat) : (z[i]?.getD 0).toNat < 2 ^ 8 := UInt8.toNat_lt _
  have hbytes (i : Nat) (hi : i = 0 ∨ i = x.length / 2 ∨ i = x.length - 1) :
      (x[i]?.getD 0).toNat = (y[i]?.getD 0).toNat := by
    have h0 := hbyte x 0
    have h0' := hbyte y 0
    have hmid := hbyte x (x.length / 2)
    have hmid' := hbyte y (x.length / 2)
    have hlast := hbyte x (x.length - 1)
    have hlast' := hbyte y (x.length - 1)
    rcases hi with rfl | rfl | rfl <;> omega
  apply List.ext_getElem hlen
  intro i hi hi'
  simpa [hi, hi'] using UInt8.toNat_inj.mp (hbytes i (by omega))

end Xxh3

theorem checksum_injective {x y : Bytes} (hlen : x.length = y.length) (hle : x.length ≤ 16)
    (h : checksum x = checksum y) : x = y := by
  simp only [checksum, ← hlen] at h
  split at h
  · next h0 => rw [List.eq_nil_of_length_eq_zero h0, List.eq_nil_of_length_eq_zero (hlen.symm.trans h0)]
  · split at h
    · next h3 => exact Xxh3.ofTiny_injective hlen h3 h
    · split at h
      · next h8 => exact Xxh3.ofShort_injective hlen (by omega) h8 h
      · exact Xxh3.ofMedium_injective hlen (by omega) hle h

/-- Seventeen bytes, of which the second to ninth meet the secret so that their product with the last
eight is those alone. -/
def pivot (last : UInt8) : Bytes :=
  [0, 0xdf, 0xd4, 0x6d, 0xe9, 0x83, 0x90, 0x97, 0xdb, 0, 0, 0, 0, 0, 0, 0, last]

example : checksum (pivot 0x80) = checksum (pivot 0) := by decide +kernel

end BuildCache
