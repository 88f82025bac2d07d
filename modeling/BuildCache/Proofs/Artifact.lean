import BuildCache.Proofs.Hex
import BuildCache.Proofs.Timestamp
import BuildCache.Proofs.Varint

/-! # Encoded artifacts are read back -/
namespace BuildCache

theorem Bytes.length_ofText_le (cs : List Char) : (ofText (String.ofList cs)).length ≤ 4 * cs.length := by
  rw [ofText_ofList]
  induction cs with
  | nil => exact Nat.le_refl _
  | cons c cs ih =>
    have hc := c.utf8Size_le_four
    rw [List.flatMap_cons, List.length_append, String.length_utf8EncodeChar, List.length_cons]
    omega

theorem Bytes.range_mono {m n : Nat} (h : m ≤ n) : range m ≤ range n := by
  induction h with
  | refl => exact Nat.le_refl _
  | step _ ih =>
    rw [range]
    omega

namespace Varint

theorem length_encode_le (n : Nat) : (encode n).length ≤ 17 := by
  simp only [encode]
  repeat' split
  all_goals simp

theorem fixed_lt {count n : Nat} {bytes rest : Bytes} (h : fixed count bytes = some (n, rest)) :
    n < Bytes.range count := by
  obtain ⟨⟨number, rest'⟩, hsplit, he⟩ := Option.map_eq_some_iff.mp h
  cases he
  simp only [Bytes.split?, List.splitAt_eq, Option.ite_none_right_eq_some, Option.some.injEq] at hsplit
  have hlen : number.length = count := by
    have := congrArg (fun p => p.1.length) hsplit.2
    simp only [List.length_take] at this
    omega
  exact hlen ▸ Bytes.toNat_lt number

theorem decode_lt {width n : Nat} {bytes rest : Bytes} (hw : 0 < width)
    (h : decode width bytes = some (n, rest)) : n < Bytes.range width := by
  have hfixed : ∀ {count : Nat} {bytes : Bytes}, count ≤ width → fixed count bytes = some (n, rest) →
      n < Bytes.range width := fun hcount hf => Nat.lt_of_lt_of_le (fixed_lt hf) (Bytes.range_mono hcount)
  cases bytes with
  | nil => cases h
  | cons marker bytes =>
    simp only [decode] at h
    split at h
    · cases h
      exact Nat.lt_of_lt_of_le marker.toNat_lt (Bytes.range_mono hw)
    · split at h
      · next hm => exact hfixed hm.2 h
      · split at h
        · next hm => exact hfixed hm.2 h
        · split at h
          · next hm => exact hfixed hm.2 h
          · split at h
            · next hm => exact hfixed hm.2 h
            · cases h

end Varint

namespace Timestamp

theorem length_padded_le (width : Nat) {k n : Nat} (hk : 0 < k) (h : n < 10 ^ k) :
    (padded width n).length ≤ width + k := by
  have hle : (Nat.toDigits 10 n).length ≤ k := (Nat.length_toDigits_le_iff (by decide) hk).mpr h
  simp only [padded, List.length_append, List.length_replicate]
  omega

theorem length_yearText_le (d : Date) : (yearText d.year).length ≤ 11 := by
  obtain ⟨h1, h2, -⟩ := d.valid
  simp only [Date.firstYear, Date.lastYear] at h1 h2
  simp only [yearText]
  split
  · have hlen : (padded 4 d.year.toNat).length ≤ 4 + 4 := length_padded_le 4 (by decide) (by omega)
    omega
  · have hlen : (padded 4 d.year.natAbs).length ≤ 4 + 6 := length_padded_le 4 (by decide) (by omega)
    simp only [List.length_cons]
    omega

theorem length_decimals_le {nano : Nat} (h : nano < 1000000000) : (decimals nano).length ≤ 10 := by
  have hpoint : ∀ {width n : Nat}, 0 < width → n < 10 ^ width → width ≤ 9 →
    ('.' :: padded width n).length ≤ 10 :=
    fun hpos hn hwidth => by
      rw [List.length_cons, length_padded hpos hn]
      exact Nat.succ_le_succ hwidth
  simp only [decimals]
  repeat' split
  · exact Nat.zero_le _
  · exact hpoint (by decide) (by omega) (by decide)
  · exact hpoint (by decide) (by omega) (by decide)
  · exact hpoint (by decide) (by omega) (by decide)

theorem length_write_le (t : Timestamp) : t.write.length ≤ 40 := by
  obtain ⟨d, second, nano, hsecond, hnano⟩ := t
  obtain ⟨-, -, -, hm, -, hd⟩ := d.valid
  have hd := Nat.le_trans hd (daysIn_le d.year d.month)
  have hyear := length_yearText_le d
  have hmonth : (padded 2 d.month).length = 2 := length_padded (by decide) (by omega)
  have hday : (padded 2 d.day).length = 2 := length_padded (by decide) (by omega)
  have hhour : (padded 2 (second / 3600)).length = 2 := length_padded (by decide) (by omega)
  have hminute : (padded 2 (second / 60 % 60)).length = 2 := length_padded (by decide) (by omega)
  by_cases h : nano < 1000000000
  · have hsec : (padded 2 (second % 60)).length = 2 := length_padded (by decide) (by omega)
    have hdec := length_decimals_le h
    simp only [write, if_pos h, List.length_append, List.length_cons, List.length_nil, Nat.add_zero]
    omega
  · have hsec : (padded 2 (second % 60 + 1)).length = 2 := length_padded (by decide) (by omega)
    have hdec : (decimals (nano - 1000000000)).length ≤ 10 := length_decimals_le (by omega)
    simp only [write, if_neg h, List.length_append, List.length_cons, List.length_nil]
    omega

theorem length_ofText_toText_le (t : Timestamp) : (Bytes.ofText t.toText).length ≤ 160 := by
  have := Bytes.length_ofText_le t.write
  have := t.length_write_le
  rw [toText]
  omega

end Timestamp

theorem Varint.decodeText_encodeText {s : String} (h : (Bytes.ofText s).length < Bytes.range 8)
    (rest : Bytes) :
    decodeText (encodeText s ++ rest) = some (s, rest) := by
  simp only [decodeText, encodeText, List.append_assoc, decode_encode h (.inr (.inl rfl)), bind,
    Option.bind_some, Bytes.split?_append rfl, Bytes.toText?_ofText, pure]

namespace Artifact

theorem Header.length_encode_le {h : Header} (hm : h.magic.length = 4) : h.encode.length ≤ 500 := by
  have hversion := Varint.length_encode_le h.version
  have hkey := Varint.length_encode_le (Bytes.ofText h.key.toHex).length
  have htime := Varint.length_encode_le (Bytes.ofText h.createdAt.toText).length
  have hsize := Varint.length_encode_le h.size
  have hsum := Varint.length_encode_le h.checksum.toNat
  have hhex : (Bytes.ofText h.key.toHex).length = 64 := h.key.digest.ofText_toHex_length
  have htext := h.createdAt.length_ofText_toText_le
  simp only [encode, Varint.encodeText, List.length_append]
  omega

/-- Reads a header, and gives it with the bytes behind it. -/
def Header.split? (bytes : Bytes) : Option (Header × Bytes) := do
  let (magic, bytes) ← bytes.split? 4
  let (version, bytes) ← Varint.decode 4 bytes
  let (keyText, bytes) ← Varint.decodeText bytes
  let key ← (CacheKey.parse keyText).toOption
  let (timeText, bytes) ← Varint.decodeText bytes
  let createdAt ← Timestamp.ofText? timeText
  let (size, bytes) ← Varint.decode 8 bytes
  let (sum, bytes) ← Varint.decode 16 bytes
  pure (⟨magic, version, key, createdAt, size, BitVec.ofNat 128 sum⟩, bytes)

theorem Header.decode?_eq (bytes : Bytes) : decode? bytes = (split? bytes).map (·.1) := by
  simp only [decode?, split?, bind, pure, Option.map_bind, Function.comp_def, Option.map_some]

theorem Header.split?_encode {h : Header} (hm : h.magic.length = 4) (hv : h.version < Bytes.range 4)
    (hs : h.size < Bytes.range 8) (rest : Bytes) :
    split? (h.encode ++ rest) = some ({ h with createdAt := h.createdAt.regular }, rest) := by
  have hkey : (Bytes.ofText h.key.toHex).length < Bytes.range 8 := by
    rw [CacheKey.toHex, h.key.digest.ofText_toHex_length]
    decide
  have htime : (Bytes.ofText h.createdAt.toText).length < Bytes.range 8 :=
    Nat.lt_of_le_of_lt h.createdAt.length_ofText_toText_le (by decide)
  have hsum : h.checksum.toNat < Bytes.range 16 := h.checksum.isLt
  simp only [split?, encode, List.append_assoc, Bytes.split?_append hm, bind, Option.bind_some,
    Varint.decode_encode hv (.inl rfl), Varint.decodeText_encodeText hkey, CacheKey.parse_toHex,
    Except.toOption, Varint.decodeText_encodeText htime, Timestamp.ofText?_toText,
    Varint.decode_encode hs (.inr (.inl rfl)), Varint.decode_encode hsum (.inr (.inr rfl)), pure]
  rw [BitVec.ofNat_toNat, BitVec.setWidth_eq]

theorem Header.decode?_encode {h : Header} (hm : h.magic.length = 4) (hv : h.version < Bytes.range 4)
    (hs : h.size < Bytes.range 8) : decode? h.encode = some { h with createdAt := h.createdAt.regular } := by
  have hsplit := split?_encode hm hv hs []
  rw [List.append_nil] at hsplit
  rw [decode?_eq, hsplit]
  rfl

namespace Header

variable {h : Header} {bytes : Bytes}

theorem exists_parts (hd : decode? bytes = some h) : ∃ r₁ r₂ r₃ r₄ r₅ r₆ keyText timeText sum,
    (h.magic.length = 4 ∧ bytes = h.magic ++ r₁) ∧ Varint.decode 4 r₁ = some (h.version, r₂) ∧
      (Varint.decodeText r₂ = some (keyText, r₃) ∧ (Bytes.ofText keyText).length = 64) ∧
      (Varint.decodeText r₃ = some (timeText, r₄) ∧ Timestamp.ofText? timeText = some h.createdAt) ∧
      Varint.decode 8 r₄ = some (h.size, r₅) ∧ Varint.decode 16 r₅ = some (sum, r₆) := by
  simp only [decode?, bind, Option.bind_eq_some_iff, pure, Option.some.injEq] at hd
  obtain ⟨⟨magic, r₁⟩, hmagic, ⟨version, r₂⟩, hversion, ⟨keyText, r₃⟩, hkey, key, hparse, ⟨timeText, r₄⟩, htime,
    createdAt, hcreated, ⟨size, r₅⟩, hsize, ⟨sum, r₆⟩, hsum, rfl⟩ := hd
  have hlen : (Bytes.ofText keyText).length = 64 := by
    by_contra hne
    simp [CacheKey.parse, Digest.parse, hne, Except.toOption, Except.map] at hparse
  exact ⟨r₁, r₂, r₃, r₄, r₅, r₆, keyText, timeText, sum, Bytes.split?_eq_some.mp hmagic, hversion, ⟨hkey, hlen⟩,
    ⟨htime, hcreated⟩, hsize, hsum⟩

theorem split?_append {r : Bytes} (hd : split? bytes = some (h, r)) (rest : Bytes) :
    split? (bytes ++ rest) = some (h, r ++ rest) := by
  simp only [split?, bind, Option.bind_eq_some_iff, pure, Option.some.injEq, Prod.mk.injEq] at hd ⊢
  obtain ⟨⟨magic, r₁⟩, hmagic, ⟨version, r₂⟩, hversion, ⟨keyText, r₃⟩, hkey, key, hparse, ⟨timeText, r₄⟩, htime,
    createdAt, hcreated, ⟨size, r₅⟩, hsize, ⟨sum, r₆⟩, hsum, hh, hr⟩ := hd
  obtain ⟨hlen, rfl⟩ := Bytes.split?_eq_some.mp hmagic
  exact ⟨⟨magic, r₁ ++ rest⟩, Bytes.split?_eq_some.mpr ⟨hlen, List.append_assoc _ _ _⟩,
    ⟨version, r₂ ++ rest⟩, Varint.decode_append hversion rest,
    ⟨keyText, r₃ ++ rest⟩, Varint.decodeText_append hkey rest, key, hparse,
    ⟨timeText, r₄ ++ rest⟩, Varint.decodeText_append htime rest, createdAt, hcreated,
    ⟨size, r₅ ++ rest⟩, Varint.decode_append hsize rest, ⟨sum, r₆ ++ rest⟩, Varint.decode_append hsum rest, hh,
    congrArg (· ++ rest) hr⟩

theorem decode?_append (hd : decode? bytes = some h) (rest : Bytes) : decode? (bytes ++ rest) = some h := by
  rw [decode?_eq] at hd ⊢
  obtain ⟨⟨h, r⟩, hsplit, rfl⟩ := Option.map_eq_some_iff.mp hd
  rw [split?_append hsplit]
  rfl

end Header

theorem Header.size_lt_of_decode? {bytes : Bytes} {h : Header} (hd : decode? bytes = some h) :
    h.size < Bytes.range 8 := by
  simp only [decode?, bind, Option.bind_eq_some_iff, pure, Option.some.injEq] at hd
  obtain ⟨_, -, _, -, _, -, _, -, _, -, _, -, ⟨size, rest⟩, hsize, _, -, rfl⟩ := hd
  exact Varint.decode_lt (by decide) hsize

theorem length_header_lt (a : Artifact) : a.header.encode.length < Bytes.range 4 :=
  Nat.lt_of_le_of_lt (Header.length_encode_le (h := a.header) rfl) (by decide)

/-- What comes of reading an encoded artifact, after its parts were told apart. -/
private theorem parse_encode_eq (k : CacheKey) (a : Artifact) : parse k a.encode =
    match Header.decode? a.header.encode with
    | none => .error (.invalidHeader "it cannot be read")
    | some h =>
      if h.magic ≠ magic then .error .badMagic
      else if h.version ≠ formatVersion then .error (.versionMismatch formatVersion h.version)
      else if h.key ≠ k then .error (.keyMismatch h.key)
      else if h.size ≠ a.data.length then .error (.sizeMismatch h.size a.data.length)
      else if h.checksum ≠ BuildCache.checksum a.data then
        .error (.checksumMismatch h.checksum (BuildCache.checksum a.data))
      else .ok ⟨h.key, h.createdAt, a.data⟩ := by
  have hsplit : Bytes.split? 4 a.encode
      = some (Bytes.ofNat 4 a.header.encode.length, a.header.encode ++ a.data) := by
    rw [encode, List.append_assoc]
    exact Bytes.split?_append (Bytes.length_ofNat 4 _) _
  have hrest : Bytes.split? (Bytes.toNat (Bytes.ofNat 4 a.header.encode.length))
    (a.header.encode ++ a.data)
      = some (a.header.encode, a.data) := by
    rw [Bytes.toNat_ofNat a.length_header_lt]
    exact Bytes.split?_append rfl _
  simp only [parse, hsplit, hrest]
  cases Header.decode? a.header.encode <;> rfl

theorem key_of_parse {k : CacheKey} {raw : Bytes} {a : Artifact} (h : parse k raw = .ok a) :
    a.key = k := by
  simp only [parse] at h
  repeat' split at h
  all_goals cases h
  next hk _ _ => exact not_not.mp hk

theorem size_of_parse {k : CacheKey} {raw : Bytes} {a : Artifact} (h : parse k raw = .ok a) :
    a.size < Bytes.range 8 := by
  simp only [parse] at h
  repeat' split at h
  all_goals cases h
  next hheader _ _ _ hsize _ =>
    have hlt := Header.size_lt_of_decode? hheader
    rwa [not_not.mp hsize] at hlt

theorem split?_header {a : Artifact} (h : a.size < Bytes.range 8) (rest : Bytes) :
    Header.split? (a.header.encode ++ rest) = some (a.reread.header, rest) :=
  Header.split?_encode rfl (by decide : formatVersion < Bytes.range 4) h rest

theorem decode?_header {a : Artifact} (h : a.size < Bytes.range 8) :
    Header.decode? a.header.encode = some a.reread.header :=
  Header.decode?_encode rfl (by decide : formatVersion < Bytes.range 4) h

theorem parse_encode {a : Artifact} (h : a.size < Bytes.range 8) (k : CacheKey) :
    parse k a.encode = if k = a.key then .ok a.reread else .error (.keyMismatch a.key) := by
  rw [parse_encode_eq, decode?_header h]
  by_cases hk : k = a.key
  · simp [reread, header, size, hk]
  · have hkey : a.reread.header.key ≠ k := fun he => hk he.symm
    rw [if_neg hk]
    simp only [reread, header, ne_eq, not_true_eq_false, if_false]
    exact if_pos hkey

@[simp] theorem reread_eq_iff {a : Artifact} : a.reread = a ↔ a.createdAt.IsRegular := by
  rw [← Timestamp.regular_eq_iff]
  exact ⟨congrArg createdAt, fun h => by rw [reread, h]⟩

theorem parse_eq_ok {k : CacheKey} {raw : Bytes} {a : Artifact} (hd : parse k raw = .ok a) :
    ∃ length bytes h, (length.length = 4 ∧ raw = length ++ (bytes ++ a.data) ∧ bytes.length = Bytes.toNat length) ∧
      Header.decode? bytes = some h ∧ h.magic = magic ∧ h.version = formatVersion ∧ h.size = a.size ∧
      h.checksum = BuildCache.checksum a.data ∧ a = ⟨k, h.createdAt, a.data⟩ := by
  simp only [parse] at hd
  repeat' split at hd
  all_goals cases hd
  next _ _ _ hlength _ _ _ hrest _ h hheader hmagic hversion hkey hsize hsum =>
    obtain ⟨hlen, rfl⟩ := Bytes.split?_eq_some.mp hlength
    obtain ⟨hlen', rfl⟩ := Bytes.split?_eq_some.mp hrest
    rw [not_not] at hmagic hversion hkey hsize hsum
    exact ⟨_, _, _, ⟨hlen, rfl, hlen'⟩, hheader, hmagic, hversion, hsize, hsum, by rw [hkey]⟩

theorem data_of_parse_encode {k : CacheKey} {a a' : Artifact} (h : parse k a.encode = .ok a') :
    a'.key = k ∧ a'.data = a.data := by
  rw [parse_encode_eq] at h
  split at h
  · cases h
  · next header hheader =>
    split at h
    · cases h
    · split at h
      · cases h
      · split at h
        · cases h
        · next hk =>
          split at h
          · cases h
          · split at h
            · cases h
            · cases h
              exact ⟨not_not.mp hk, rfl⟩

end Artifact
end BuildCache
