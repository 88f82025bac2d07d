import Mathlib.Tactic.Common
import BuildCache.Artifact
import BuildCache.Proofs.Hex

/-! # Counted numbers and texts: how they can be read, and what reading leaves -/
namespace BuildCache

namespace Bytes

variable {x : Bytes}

theorem ofText_of_toText? {s : String} (h : toText? x = some s) : ofText s = x := by
  simp only [toText?, String.fromUTF8?] at h
  split at h
  · cases h
    simp [ofText, String.toUTF8_eq_toByteArray, String.fromUTF8]
  · cases h

theorem lt_of_mem_ofText {s : String} {b : UInt8} (h : b ∈ ofText s) : b < 251 := by
  rw [← String.ofList_toList (s := s), ofText_ofList, List.mem_flatMap] at h
  obtain ⟨c, -, hb⟩ := h
  rw [UInt8.lt_iff_toNat_lt]
  have hlow {m : Nat} (hm : m < 251) (hb : b = UInt8.ofNat m) : b.toNat < (251 : UInt8).toNat := by
    rw [hb, UInt8.toNat_ofNat']
    exact Nat.lt_of_le_of_lt (Nat.mod_le _ _) hm
  simp only [String.utf8EncodeChar] at hb
  split_ifs at hb <;> simp only [List.mem_cons, List.not_mem_nil, or_false] at hb
  · exact hlow (by omega) hb
  · rcases hb with hb | hb <;> exact hlow (by omega) hb
  · rcases hb with hb | hb | hb <;> exact hlow (by omega) hb
  · rcases hb with hb | hb | hb | hb <;> exact hlow (by omega) hb

theorem split?_eq_some {count : Nat} {first rest : Bytes} :
    split? count x = some (first, rest) ↔ first.length = count ∧ x = first ++ rest := by
  constructor
  · intro h
    simp only [split?, List.splitAt_eq, Option.ite_none_right_eq_some, Option.some.injEq, Prod.mk.injEq] at h
    obtain ⟨hle, rfl, rfl⟩ := h
    exact ⟨List.length_take_of_le hle, (List.take_append_drop count x).symm⟩
  · rintro ⟨hlen, rfl⟩
    exact split?_append hlen rest

end Bytes

namespace Varint

variable {width count n : Nat} {x rest : Bytes}

theorem fixed_eq_some : fixed count x = some (n, rest) ↔
    ∃ number, number.length = count ∧ Bytes.toNat number = n ∧ x = number ++ rest := by
  simp only [fixed, Option.map_eq_some_iff, Prod.exists, Bytes.split?_eq_some, Prod.mk.injEq]
  constructor
  · rintro ⟨number, rest, ⟨hlen, rfl⟩, rfl, rfl⟩
    exact ⟨number, hlen, rfl, rfl⟩
  · rintro ⟨number, hlen, rfl, rfl⟩
    exact ⟨number, rest, ⟨hlen, rfl⟩, rfl, rfl⟩

/-- The two ways in which a number is read: from the marker itself, or from bytes that it announces. -/
theorem decode_eq_some {marker : UInt8} : decode width (marker :: x) = some (n, rest) →
    (marker < 251 ∧ n = marker.toNat ∧ rest = x) ∨
      251 ≤ marker ∧ ∃ count, 2 ≤ count ∧ fixed count x = some (n, rest) := by
  intro h
  simp only [decode] at h
  split at h
  · next hm =>
    cases h
    exact .inl ⟨hm, rfl, rfl⟩
  · next hm =>
    refine .inr ⟨UInt8.not_lt.mp hm, ?_⟩
    split at h
    · exact ⟨2, by decide, h⟩
    · split at h
      · exact ⟨4, by decide, h⟩
      · split at h
        · exact ⟨8, by decide, h⟩
        · split at h
          · exact ⟨16, by decide, h⟩
          · cases h

/-- What a marker announces is at least two bytes, of which the least significant one comes first. -/
theorem fixed_cons_cons {a b : UInt8} (hc : 2 ≤ count) (h : fixed count (a :: b :: x) = some (n, rest)) :
    n % 256 = a.toNat ∧ 256 * b.toNat ≤ n := by
  have ha := a.toNat_lt
  obtain ⟨number, hlen, rfl, hx⟩ := fixed_eq_some.mp h
  match number, hlen with
  | [], hlen | [_], hlen =>
    simp only [List.length_cons, List.length_nil] at hlen
    omega
  | _ :: _ :: number, hlen =>
    cases hx
    simp only [Bytes.toNat]
    omega

theorem decode_append (h : decode width x = some (n, rest)) (y : Bytes) :
    decode width (x ++ y) = some (n, rest ++ y) := by
  have hfixed {count : Nat} {x : Bytes} (h : fixed count x = some (n, rest)) :
    fixed count (x ++ y) = some (n, rest ++ y) := by
    obtain ⟨number, hlen, hn, rfl⟩ := fixed_eq_some.mp h
    exact fixed_eq_some.mpr ⟨number, hlen, hn, List.append_assoc _ _ _⟩
  cases x with
  | nil => cases h
  | cons marker x =>
    simp only [decode, List.cons_append] at h ⊢
    split_ifs at h ⊢
    · cases h
      rfl
    · exact hfixed h
    · exact hfixed h
    · exact hfixed h
    · exact hfixed h

theorem decode_length_lt (h : decode width x = some (n, rest)) : rest.length < x.length := by
  cases x with
  | nil => cases h
  | cons marker x =>
    rcases decode_eq_some h with ⟨-, -, rfl⟩ | ⟨-, count, -, hfixed⟩
    · exact Nat.lt_succ_self _
    · obtain ⟨number, -, -, rfl⟩ := fixed_eq_some.mp hfixed
      rw [List.length_cons, List.length_append]
      omega

theorem encode_cases (m : Nat) : (∃ b < 251, encode m = [b]) ∨
    ∃ marker ≥ 251, ∃ number, encode m = marker :: number := by
  unfold encode
  split_ifs with h
  · refine .inl ⟨UInt8.ofNat m, ?_, rfl⟩
    rw [UInt8.lt_iff_toNat_lt, UInt8.toNat_ofNat']
    exact Nat.lt_of_le_of_lt (Nat.mod_le _ _) h
  · exact .inr ⟨251, by decide, _, rfl⟩
  · exact .inr ⟨252, by decide, _, rfl⟩
  · exact .inr ⟨253, by decide, _, rfl⟩
  · exact .inr ⟨254, by decide, _, rfl⟩

theorem decode_encode_rest {m : Nat} (h : decode width (encode m) = some (n, rest)) : rest = [] := by
  have hfixed {count : Nat} (h : fixed count (Bytes.ofNat count m) = some (n, rest)) : rest = [] := by
    obtain ⟨number, hlen, -, hx⟩ := fixed_eq_some.mp h
    have := congrArg List.length hx
    rw [List.length_append, Bytes.length_ofNat] at this
    exact List.eq_nil_of_length_eq_zero (by omega)
  unfold encode at h
  split_ifs at h with hm
  · rcases decode_eq_some h with ⟨-, -, rfl⟩ | ⟨hle, -⟩
    · rfl
    · rw [UInt8.le_iff_toNat_le, UInt8.toNat_ofNat'] at hle
      exact absurd (Nat.le_trans hle (Nat.mod_le _ _)) (Nat.not_le.mpr hm)
  · simp [decode] at h
    exact hfixed h.2
  · simp [decode] at h
    exact hfixed h.2
  · simp [decode] at h
    exact hfixed h.2
  · simp [decode] at h
    exact hfixed h.2

theorem decodeText_eq_some {s : String} : decodeText x = some (s, rest) ↔
    decode 8 x = some ((Bytes.ofText s).length, Bytes.ofText s ++ rest) := by
  simp only [decodeText, bind, Option.bind_eq_some_iff, pure, Option.some.injEq, Prod.exists, Prod.mk.injEq,
    Bytes.split?_eq_some]
  constructor
  · rintro ⟨n, left, hn, content, rest, ⟨rfl, rfl⟩, s, hs, rfl, rfl⟩
    rw [Bytes.ofText_of_toText? hs, hn]
  · intro h
    exact ⟨_, _, h, _, _, ⟨rfl, rfl⟩, s, Bytes.toText?_ofText s, rfl, rfl⟩

theorem decodeText_append {s : String} (h : decodeText x = some (s, rest)) (y : Bytes) :
    decodeText (x ++ y) = some (s, rest ++ y) := by
  rw [decodeText_eq_some] at h ⊢
  rw [← List.append_assoc]
  exact decode_append h y

theorem encodeText_eq {s : String} (h : (Bytes.ofText s).length < 251) :
    encodeText s = UInt8.ofNat (Bytes.ofText s).length :: Bytes.ofText s := by
  rw [encodeText, encode, if_pos h]
  rfl

end Varint

end BuildCache
