import Mathlib.Data.FinEnum
import Mathlib.Tactic.Common
import BuildCache.Proofs.Hex

/-! # Digests read from text: which texts are accepted, and where the others fail -/
namespace BuildCache

namespace Bytes

theorem exists_mem_utf8EncodeChar {c : Char} (h : 128 ≤ c.toNat) : ∃ b ∈ String.utf8EncodeChar c, 128 ≤ b.toNat := by
  have hlarge : ¬c.val.toNat ≤ 127 := Nat.not_le.mpr h
  -- the last byte holds six bits of the character, above a mark
  refine ⟨UInt8.ofNat (c.val.toNat % 64 + 128), ?_, ?_⟩
  · simp only [String.utf8EncodeChar, if_neg hlarge]
    split_ifs <;> simp
  · rw [UInt8.toNat_ofNat']
    omega

theorem ascii_of_ofText {s : String} (h : ∀ b ∈ ofText s, b.toNat < 128) : ∀ c ∈ s.toList, c.toNat < 128 := by
  intro c hc
  by_contra hlarge
  obtain ⟨b, hb, hbyte⟩ := exists_mem_utf8EncodeChar (Nat.le_of_not_lt hlarge)
  have hmem : b ∈ ofText s := by
    rw [← String.ofList_toList (s := s), ofText_ofList]
    exact List.mem_flatMap.mpr ⟨c, hc, hb⟩
  exact Nat.not_lt.mpr hbyte (h b hmem)

end Bytes

namespace Hex

def isDigit (code : UInt8) : Bool := (Bytes.ofText "0123456789abcdefABCDEF").contains code

/-- The character of an ASCII code, a letter in lower case. -/
def lower (code : UInt8) : Char := (Char.ofNat code.toNat).toLower

theorem ascii_of_isDigit {code : UInt8} (h : isDigit code) : code.toNat < 128 := by
  have hdigits : ∀ b ∈ Bytes.ofText "0123456789abcdefABCDEF", b.toNat < 128 := by decide +kernel
  exact hdigits code (List.contains_iff_mem.mp h)

theorem isDigit_eq (code : UInt8) : isDigit code = (value? code).isSome := by
  revert code
  decide +kernel

theorem digit_of_value? (code : UInt8) : ∀ n ∈ value? code, n < 16 ∧ digit n = lower code := by
  revert code
  decide +kernel

theorem pair_ofNat {high low : Nat} (hhigh : high < 16) (hlow : low < 16) :
    pair (UInt8.ofNat (16 * high + low)) = [digit high, digit low] := by
  have hbyte : (UInt8.ofNat (16 * high + low)).toNat = 16 * high + low := by
    rw [UInt8.toNat_ofNat', Nat.mod_eq_of_lt (by omega)]
  rw [pair, hbyte, show (16 * high + low) / 16 = high by omega, show (16 * high + low) % 16 = low by omega]

/-- What comes of reading pairs of digits from an offset on. -/
inductive Decoded (offset : Nat) (digits : Bytes) : Except Nat Bytes → Prop
  | ok {bytes : Bytes} : (∀ b ∈ digits, isDigit b) → bytes.flatMap pair = digits.map lower →
      Decoded offset digits (.ok bytes)
  | error {i : Nat} : digits.findIdx? (!isDigit ·) = some i → Decoded offset digits (.error (offset + i))

theorem Decoded.cons {offset h l : Nat} {hi lo : UInt8} {rest : Bytes} {r : Except Nat Bytes}
    (hhigh : value? hi = some h) (hlow : value? lo = some l) (hr : Decoded (offset + 2) rest r) :
    Decoded offset (hi :: lo :: rest) (r.map (UInt8.ofNat (16 * h + l) :: ·)) := by
  obtain ⟨hh, hhdigit⟩ := digit_of_value? hi h hhigh
  obtain ⟨hl, hldigit⟩ := digit_of_value? lo l hlow
  have hgood : isDigit hi ∧ isDigit lo := by simp [isDigit_eq, hhigh, hlow]
  cases hr with
  | ok hdigits hpairs =>
    refine .ok (by simpa [hgood] using hdigits) ?_
    rw [List.flatMap_cons, pair_ofNat hh hl, hhdigit, hldigit, hpairs]
    rfl
  | error hfirst =>
    rw [Except.map, Nat.add_assoc, Nat.add_comm 2]
    exact .error (by simp [List.findIdx?_cons, hgood, hfirst])

theorem decoded (offset : Nat) {digits : Bytes} (heven : digits.length % 2 = 0) :
    Decoded offset digits (decode offset digits) := by
  fun_induction decode offset digits with
  | case1 => exact .ok (List.forall_mem_nil _) rfl
  | case2 => cases heven
  | case3 offset hi lo rest hhigh =>
    have hbad : isDigit hi = false := by simp [isDigit_eq, hhigh]
    exact .error (i := 0) (by simp [List.findIdx?_cons, hbad])
  | case4 offset hi lo rest h hlow hhigh =>
    have hgood : isDigit hi := by simp [isDigit_eq, hhigh]
    have hbad : isDigit lo = false := by simp [isDigit_eq, hlow]
    exact .error (i := 1) (by simp [List.findIdx?_cons, hgood, hbad])
  | case5 offset hi lo rest h l hlow hhigh ih =>
    have hrest : rest.length % 2 = 0 := by
      simp only [List.length_cons] at heven
      omega
    exact (ih hrest).cons hhigh hlow

end Hex

namespace Digest

/-- A text of 64 bytes, all of them hex digits. -/
def IsForm (s : String) : Prop := (Bytes.ofText s).length = 64 ∧ ∀ b ∈ Bytes.ofText s, Hex.isDigit b

/-- The offset of the first byte that is no hex digit. -/
def firstOther? (s : String) : Option Nat := (Bytes.ofText s).findIdx? (!Hex.isDigit ·)

theorem IsForm.firstOther?_ne {s : String} (h : IsForm s) (i : Nat) : firstOther? s ≠ some i := by
  have hnone : firstOther? s = none := by
    rw [firstOther?, List.findIdx?_eq_none_iff]
    intro b hb
    rw [h.2 b hb]
    rfl
  rw [hnone]
  nofun

theorem map_lower_ofText {s : String} (h : ∀ b ∈ Bytes.ofText s, Hex.isDigit b) :
    (Bytes.ofText s).map Hex.lower = s.toList.map Char.toLower := by
  have hascii := Bytes.ascii_of_ofText fun b hb => Hex.ascii_of_isDigit (h b hb)
  rw [← String.ofList_toList (s := s), Bytes.ofText_ascii hascii, String.toList_ofList, List.map_map]
  refine List.map_congr_left fun c hc => ?_
  have hcode : (UInt8.ofNat c.toNat).toNat = c.toNat := by
    have := hascii c hc
    rw [UInt8.toNat_ofNat', Nat.mod_eq_of_lt (by omega)]
  rw [Function.comp_apply, Hex.lower, hcode, Char.ofNat_toNat]

/-- What comes of reading a text as a digest of some kind. -/
inductive Parsed {α : Type} (toHex : α → String) (s : String) : Except DigestError α → Prop
  | ok {a : α} : IsForm s → toHex a = s.toLower → Parsed toHex s (.ok a)
  | length : (Bytes.ofText s).length ≠ 64 → Parsed toHex s (.error (.length (Bytes.ofText s).length))
  | character {i : Nat} : (Bytes.ofText s).length = 64 → firstOther? s = some i →
      Parsed toHex s (.error (.character i))

theorem parsed (s : String) : Parsed toHex s (parse s) := by
  unfold parse
  extract_lets digits
  split
  · next hl =>
    have hdecoded : Hex.Decoded 0 digits (Hex.decode 0 digits) := Hex.decoded 0 (by rw [hl])
    split
    · next offset hoffset =>
      rw [hoffset] at hdecoded
      cases hdecoded with
      | error hfirst => exact .character hl (by rwa [Nat.zero_add])
    · next bytes hbytes =>
      rw [hbytes] at hdecoded
      cases hdecoded with
      | ok hdigits hpairs =>
        refine .ok ⟨hl, hdigits⟩ ?_
        calc String.ofList (bytes.flatMap Hex.pair)
          _ = String.ofList (s.toList.map Char.toLower) := by rw [hpairs, map_lower_ofText hdigits]
          _ = s.map Char.toLower := by rw [← String.toList_map, String.ofList_toList]
  · next hl => exact .length hl

theorem Parsed.map {α : Type} {shown : α → String} {s : String} {r : Except DigestError Digest} {mk : Digest → α}
    (h : Parsed toHex s r) (hmk : ∀ d, shown (mk d) = d.toHex) : Parsed shown s (r.map mk) := by
  cases h with
  | ok hform hlower => exact .ok hform ((hmk _).trans hlower)
  | length hl => exact .length hl
  | character hl hfirst => exact .character hl hfirst

/-- A reader accepts exactly the hex forms, whatever the case of their letters, and shows them in lower case;
of other texts it tells the length in bytes, unless that is right, and else the first byte that is no digit. -/
structure Exact {α : Type} (parse : String → Except DigestError α) (toHex : α → String) : Prop where
  accepts : ∀ s, (∃ a, parse s = .ok a) ↔ IsForm s
  shows : ∀ s a, parse s = .ok a → toHex a = s.toLower
  length : ∀ s n, parse s = .error (.length n) ↔ n = (Bytes.ofText s).length ∧ n ≠ 64
  character : ∀ s i, parse s = .error (.character i) ↔ (Bytes.ofText s).length = 64 ∧ firstOther? s = some i
  reads_back : ∀ a, parse (toHex a) = .ok a

theorem exact_of_parsed {α : Type} {parse : String → Except DigestError α} {toHex : α → String}
    (hparsed : ∀ s, Parsed toHex s (parse s)) (hback : ∀ a, parse (toHex a) = .ok a) : Exact parse toHex where
  accepts s := by
    generalize hr : parse s = r
    cases hr ▸ hparsed s with
    | ok hform _ => exact ⟨fun _ => hform, fun _ => ⟨_, rfl⟩⟩
    | length hl => exact ⟨nofun, fun hform => absurd hform.1 hl⟩
    | character _ hfirst => exact ⟨nofun, fun hform => absurd hfirst (hform.firstOther?_ne _)⟩
  shows s a h := by
    cases h ▸ hparsed s with
    | ok _ hlower => exact hlower
  length s n := by
    generalize hr : parse s = r
    cases hr ▸ hparsed s with
    | ok hform _ => exact ⟨nofun, fun ⟨hn, hne⟩ => absurd (hn.trans hform.1) hne⟩
    | length hl =>
      simp only [Except.error.injEq, DigestError.length.injEq]
      exact ⟨fun hn => ⟨hn.symm, hn ▸ hl⟩, fun h => h.1.symm⟩
    | character hl _ => exact ⟨nofun, fun ⟨hn, hne⟩ => absurd (hn.trans hl) hne⟩
  character s i := by
    generalize hr : parse s = r
    cases hr ▸ hparsed s with
    | ok hform _ => exact ⟨nofun, fun h => absurd h.2 (hform.firstOther?_ne i)⟩
    | length hl => exact ⟨nofun, fun h => absurd h.1 hl⟩
    | character hl hfirst => simp [hl, hfirst]
  reads_back := hback

end Digest

theorem ContentHash.parse_toHex (h : ContentHash) : parse h.toHex = .ok h := by
  rw [parse, toHex, Digest.parse_toHex]
  rfl

/-- Hashes of content and keys of the cache are read exactly. -/
theorem parses_exactly : Digest.Exact ContentHash.parse ContentHash.toHex ∧
    Digest.Exact CacheKey.parse CacheKey.toHex :=
  ⟨Digest.exact_of_parsed (fun s => (Digest.parsed s).map fun _ => rfl) ContentHash.parse_toHex,
    Digest.exact_of_parsed (fun s => (Digest.parsed s).map fun _ => rfl) CacheKey.parse_toHex⟩

example : CacheKey.parse ("0é" ++ String.ofList (List.replicate 61 'F')) = .error (.character 1) := by decide +kernel

end BuildCache
