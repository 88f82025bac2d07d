import Mathlib.Tactic.Common
import BuildCache.Digest

/-! # Texts as bytes, and hex forms that are read back -/
namespace BuildCache

namespace Bytes

theorem toText?_ofText (s : String) : toText? (ofText s) = some s := by
  have hbytes : (⟨(ofText s).toArray⟩ : ByteArray) = s.toByteArray := by
    simp [ofText, String.toUTF8_eq_toByteArray]
  rw [toText?, hbytes, String.fromUTF8?, dif_pos s.isValidUTF8]
  rfl

theorem ofText_ofList (cs : List Char) : ofText
    (String.ofList cs) = cs.flatMap String.utf8EncodeChar := by
  simp [ofText, String.toUTF8_eq_toByteArray, List.utf8Encode]

theorem ofText_ascii {cs : List Char} (h : ∀ c ∈ cs, c.toNat < 128) :
    ofText (String.ofList cs) = cs.map fun c => UInt8.ofNat c.toNat := by
  rw [ofText_ofList]
  induction cs with
  | nil => rfl
  | cons c cs ih =>
    have hc : c.toNat < 128 := h c List.mem_cons_self
    have hsize : c.utf8Size = 1 := by
      rw [Char.utf8Size, if_pos]
      exact UInt32.le_iff_toNat_le.mpr (Nat.le_of_lt_succ hc)
    rw [List.flatMap_cons, ih fun d hd => h d (List.mem_cons_of_mem _ hd),
      String.utf8EncodeChar_eq_singleton hsize]
    rfl

end Bytes

theorem Text.append_inj_of_length {a b x y : String} (hlen : x.length = y.length) (h : a ++ x = b ++ y) :
    a = b ∧ x = y := by
  have hlist : a.toList ++ x.toList = b.toList ++ y.toList := by
    rw [← String.toList_append, ← String.toList_append, h]
  have hlen' : x.toList.length = y.toList.length := by rwa [String.length_toList, String.length_toList]
  obtain ⟨ha, hx⟩ := List.append_inj' hlist hlen'
  exact ⟨String.toList_inj.mp ha, String.toList_inj.mp hx⟩

namespace Hex

def pair (b : UInt8) : List Char := [digit (b.toNat / 16), digit (b.toNat % 16)]

theorem encode_eq (bytes : Bytes) : encode bytes = String.ofList (bytes.flatMap pair) := rfl

theorem digit_ascii {n : Nat} (h : n < 16) : (digit n).toNat < 128 := by
  revert n
  decide

theorem value?_digit {n : Nat} (h : n < 16) : value? (UInt8.ofNat (digit n).toNat) = some n := by
  revert n
  decide

theorem isAlphanum_digit {n : Nat} (h : n < 16) : (digit n).isAlphanum = true := by
  revert n
  decide

theorem mem_pair {b : UInt8} {c : Char} (h : c ∈ pair b) : ∃ n < 16, c = digit n := by
  have hb := b.toNat_lt
  rcases List.mem_cons.mp h with rfl | h
  · exact ⟨_, by omega, rfl⟩
  · exact ⟨_, Nat.mod_lt _ (by decide), List.mem_singleton.mp h⟩

theorem mem_encode {bytes : Bytes} {c : Char} (h : c ∈ bytes.flatMap pair) : ∃ n < 16, c = digit n := by
  obtain ⟨b, -, hc⟩ := List.mem_flatMap.mp h
  exact mem_pair hc

theorem not_mem_encode {c : Char} (h : c.isAlphanum = false) (bytes : Bytes) : c ∉ (encode bytes).toList := by
  rw [encode_eq, String.toList_ofList]
  intro hc
  obtain ⟨n, hn, rfl⟩ := mem_encode hc
  exact absurd (isAlphanum_digit hn) (by simp [h])

theorem ofText_encode (bytes : Bytes) :
    Bytes.ofText (encode bytes) = (bytes.flatMap pair).map fun c => UInt8.ofNat c.toNat := by
  rw [encode_eq]
  apply Bytes.ofText_ascii
  intro c hc
  obtain ⟨n, hn, rfl⟩ := mem_encode hc
  exact digit_ascii hn

theorem length_pairs (bytes : Bytes) : (bytes.flatMap pair).length = 2 * bytes.length := by
  induction bytes with
  | nil => rfl
  | cons b bytes ih =>
    rw [List.flatMap_cons, List.length_append, ih, List.length_cons]
    simp only [pair, List.length_cons, List.length_nil]
    omega

theorem decode_encode (offset : Nat) (bytes : Bytes) : decode offset
    (Bytes.ofText (encode bytes)) = .ok bytes := by
  rw [ofText_encode]
  induction bytes generalizing offset with
  | nil => rfl
  | cons b bytes ih =>
    have hb := b.toNat_lt
    have hhigh : value? (UInt8.ofNat (digit (b.toNat / 16)).toNat) = some (b.toNat / 16) :=
      value?_digit (by omega)
    have hlow : value? (UInt8.ofNat (digit (b.toNat % 16)).toNat) = some (b.toNat % 16) :=
      value?_digit (Nat.mod_lt _ (by decide))
    simp only [List.flatMap_cons, pair, List.cons_append, List.nil_append, List.map_cons,
      decode, hhigh, hlow]
    rw [ih (offset + 2)]
    have hbyte : 16 * (b.toNat / 16) + b.toNat % 16 = b.toNat := by omega
    simp [Except.map, hbyte]

end Hex

namespace Digest

theorem ofText_toHex_length (d : Digest) : (Bytes.ofText d.toHex).length = 64 := by
  rw [toHex, Hex.ofText_encode, List.length_map, Hex.length_pairs, d.length_eq]

theorem length_toHex (d : Digest) : d.toHex.length = 64 := by
  rw [← String.length_toList, toHex, Hex.encode_eq, String.toList_ofList, Hex.length_pairs, d.length_eq]

theorem parse_toHex (d : Digest) : parse d.toHex = .ok d := by
  have hdecode : Hex.decode 0 (Bytes.ofText d.toHex) = .ok d.bytes := Hex.decode_encode 0 d.bytes
  simp only [parse]
  simp only [ofText_toHex_length, dif_pos]
  split
  · next offset he =>
    rw [hdecode] at he
    cases he
  · next bytes he =>
    have hbytes : bytes = d.bytes := Except.ok.inj (he.symm.trans hdecode)
    cases d
    cases hbytes
    rfl

end Digest

namespace CacheKey

@[simp] theorem parse_toHex (k : CacheKey) : parse k.toHex = .ok k := by
  rw [parse, toHex, Digest.parse_toHex]
  rfl

theorem length_toHex (k : CacheKey) : k.toHex.length = 64 := k.digest.length_toHex

theorem toHex_ne_empty (k : CacheKey) : k.toHex ≠ "" := by
  intro h
  have hlength := k.length_toHex
  rw [h] at hlength
  cases hlength

theorem toHex_injective {k l : CacheKey} (h : k.toHex = l.toHex) : k = l := by
  have hparse := k.parse_toHex
  rw [h, parse_toHex] at hparse
  exact (Except.ok.inj hparse).symm

theorem bytes_injective {k l : CacheKey} (h : k.bytes = l.bytes) : k = l := by
  obtain ⟨⟨bytes, hbytes⟩⟩ := k
  obtain ⟨⟨others, hothers⟩⟩ := l
  obtain rfl : bytes = others := h
  rfl

end CacheKey
end BuildCache
